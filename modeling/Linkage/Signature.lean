import Linkage.Loading

/-! # Signatures

    Between class objects and the descriptors that name them: the signature of a
    class object, a method descriptor from class objects, and back. -/

namespace Linkage

open Link

/-- The descriptor of the class that a class object stands for; the given error for
    any other object. -/
def signatureOr (e : LinkError) (classObject : Handle) : Link String := do
  let c ← orFail (← classOfObject classObject) e
  pure ((← classes).signature c)

/-- The descriptor of the class that a class object stands for. -/
def classObjectSignature (classObject : Handle) : Link String :=
  signatureOr .notAClassObject classObject

/-- The method descriptor with the given class objects as result and parameters. -/
def methodDescriptor (result : Handle) (parameters : List Handle) : Link String := do
  let parameters ← forEach (signatureOr .parameterNotAClass) parameters
  let result ← signatureOr .resultNotAClass result
  pure ("(" ++ String.join parameters ++ ")" ++ result)

/-- The class of a type. -/
def classOfType (env : Environment) (t : TypeDescriptor) : Link Class :=
  loadClass env t.className

/-- The class that a descriptor names; `V` is allowed. -/
def classOfDescriptor (env : Environment) (descriptor : String) : Link Class := do
  let t ← orFail (TypeDescriptor.parseReturn? descriptor) (.invalidTypeDescriptor descriptor)
  classOfType env t

/-- A new method type for a method descriptor. -/
def newMethodType (env : Environment) (descriptor : String) : Link Handle := do
  let d ← orFail (MethodDescriptor.parse? descriptor) (.invalidMethodDescriptor descriptor)
  let parameters ← forEach (classOfType env) d.parameters
  let result ← classOfType env d.result
  let text ← intern descriptor
  allocate (.methodType
    { result := result.classObject
      parameters := parameters.map Class.classObject
      descriptor := some text })

/-- The method type with a descriptor, unless it has one. -/
def Object.setDescriptor (text : Handle) : Object → Object
  | .methodType t => .methodType { t with descriptor := some (t.descriptor.getD text) }
  | object => object

/-- The descriptor that the type of a member name stands for. A method type that
    has not been asked for its descriptor before remembers it. -/
def typeSignature (type : Handle) : Link String := do
  match ← read type with
  | .methodType t =>
      match t.descriptor with
      | some text => stringValue text
      | none => do
          let signature ← methodDescriptor t.result t.parameters
          let text ← intern signature
          update type (Object.setDescriptor text)
          pure signature
  | .string text => pure text
  | .classObject _ => classObjectSignature type
  | _ => fail .typeWithoutSignature

end Linkage
