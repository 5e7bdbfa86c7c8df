import Linkage.ClassFile.Parser
import Linkage.Declaration.Layout
import Linkage.Machine.Environment
import Linkage.Machine.Store

/-! # Defining and loading classes

    * `defineClass` lays out a declared class and adds it to the class table;
      its supertypes are loaded first.
    * `deriveClass` defines the class that a class file declares.
    * `defineArrayClass` and `definePrimitiveClass` define the others.
    * `loadClass` finds a class by name: in the class table, as an array of another
      class, or on the class path.

    Supertypes of a class file may lie on the class path too. A class that is
    needed to define itself is refused, so that loading ends. -/

namespace Linkage

open Link

/-! ## Defining -/

/-- A class that nothing can extend: an interface, array or primitive class, or a
    final one. -/
def Class.isSealed (c : Class) : Bool :=
  c.isInterface || c.isArray || c.isPrimitive || c.access.has Access.finalFlag

/-- Load the superclass of a declared class, if it has one. -/
def loadSuperclass (load : String → Link Class) (d : ClassDeclaration) :
    Link (Option Class) := do
  match d.superclass with
  | none => pure none
  | some name => do
      let s ← load name
      if s.isSealed then fail (.cannotExtend d.name s.name) else pure (some s)

/-- Load an interface that a declared class lists. -/
def loadInterface (load : String → Link Class) (d : ClassDeclaration) (name : String) :
    Link Class := do
  let i ← load name
  if i.isInterface then pure i else fail (.cannotImplement d.name i.name)

/-- Define a declared class whose supertypes are loaded by `load`. A class that is
    defined already is left as it is. -/
def defineClassWith (load : String → Link Class) (d : ClassDeclaration) : Link Class := do
  match ← findClass d.name with
  | some c => pure c
  | none => do
      let superclass ← loadSuperclass load d
      let interfaces ← forEach (loadInterface load d) d.interfaces
      let layout ← ofExcept (Layout.ofDeclaration (← classes) d superclass interfaces)
      addClass layout.declaration.name layout.toClass (fun _ _ => rfl)

/-- Define the class that a class file declares. -/
def deriveClassWith (load : String → Link Class) (bytes : Text.Bytes) : Link Class :=
  match ClassFile.parse bytes >>= ClassDeclaration.ofFile with
  | .ok d => defineClassWith load d
  | .error fault => fail (.malformedFile fault)

/-! ## Arrays and primitives -/

/-- Arrays and primitive classes are final and abstract. -/
def builtInAccess : Access :=
  Access.finalFlag ||| Access.abstractFlag

/-- The class of a primitive type at the given place, with the given class object:
    no superclass and no members. -/
def Class.ofPrimitive (p : Primitive) (id : ClassId) (classObject : Handle) : Class :=
  { id
    name := p.name
    access := Access.publicFlag ||| builtInAccess
    kind := .primitive p
    superclass := none
    interfaces := []
    superclasses := []
    itable := []
    vtable := #[]
    pool := ConstantPool.empty
    bootstrapTable := []
    fields := #[]
    methods := #[]
    instanceSize := 0
    staticSlots := 0
    classObject }

/-- Define the class of a primitive type. -/
def definePrimitiveClass (p : Primitive) : Link Class :=
  addClass p.name (Class.ofPrimitive p) (fun _ _ => rfl)

/-- The class of arrays with the given name and component at the given place, with
    the given class object. Its supertypes are `object`, `cloneable` and
    `serializable`. -/
def Class.ofArray (name : String) (component object cloneable serializable : Class)
    (id : ClassId) (classObject : Handle) : Class :=
  { id
    name
    access := (component.access &&& Access.publicFlag) ||| builtInAccess
    kind := .array component.id
    superclass := some object.id
    interfaces := [cloneable.id, serializable.id]
    superclasses := [object.id]
    itable := [cloneable.id, serializable.id]
    vtable := object.vtable
    pool := ConstantPool.empty
    bootstrapTable := []
    fields := #[]
    methods := #[]
    instanceSize := Field.headerSize
    staticSlots := 0
    classObject }

/-- Define the class of arrays with the given component, which is named by its
    descriptor. There are no arrays of `void`. -/
def defineArrayClass (component : Class) : Link Class := do
  if component.kind = .primitive .void then fail (.classNotFound "[V")
  else
    let name := "[" ++ (← classes).signature component
    match ← findClass name with
    | some c => pure c
    | none => do
        let object ← coreClass ClassDeclaration.objectName
        let cloneable ← coreClass "java/lang/Cloneable"
        let serializable ← coreClass "java/io/Serializable"
        addClass name (Class.ofArray name component object cloneable serializable)
          (fun _ _ => rfl)

/-- The class of a type. Array classes are defined from the inside out, and other
    classes come from `load`. -/
def classOfTypeWith (load : String → Link Class) : TypeDescriptor → Link Class
  | .array component => do
      match ← findClass (TypeDescriptor.array component).className with
      | some c => pure c
      | none => do
          let component ← classOfTypeWith load component
          defineArrayClass component
  | t => load t.className

/-! ## Loading -/

/-- Run an action while the class `name` counts as being loaded. -/
def whileLoading {α : Type} (name : String) (x : Link α) : Link α := fun m =>
  match x { m with loading := name :: m.loading } with
  | (result, m) => (result, { m with loading := m.loading.erase name })

/-- Define the class `name` from its file on the class path. -/
def loadFile (env : Environment) (load : String → Link Class) (name : String) : Link Class := do
  let bytes ← orFail (env.classPath.find? name) (.classNotFound name)
  if (← view Machine.loading).contains name then fail (.classCircularity name)
  else
    let c ← whileLoading name (deriveClassWith load bytes)
    if c.name = name then pure c else fail (.wrongName name c.name)

/-- Load a class with at most `bound` loads inside each other. -/
def loadClassWithin (env : Environment) : Nat → String → Link Class
  | 0, _ => failWith .boundReached
  | bound + 1, name => do
      match ← findClass name with
      | some c => pure c
      | none =>
          if name.toList.head? = some '[' then
            match TypeDescriptor.parse? name with
            | some (.array component) => do
                let component ← classOfTypeWith (loadClassWithin env bound) component
                defineArrayClass component
            | _ => fail (.classNotFound name)
          else loadFile env (loadClassWithin env bound) name

/-- Enough for every class path. Loads inside each other that open a file ask for
    different names, and all but the first of these names stand in files of the
    class path; between two of them lie at most two loads of array classes. -/
def Environment.loadBound (env : Environment) : Nat :=
  3 * (env.classPath.size + 2)

/-- The class with the given name. -/
def loadClass (env : Environment) (name : String) : Link Class :=
  loadClassWithin env env.loadBound name

/-- Define a declared class. -/
def defineClass (env : Environment) (d : ClassDeclaration) : Link Class :=
  defineClassWith (loadClass env) d

/-- Define the class that a class file declares. -/
def deriveClass (env : Environment) (bytes : Text.Bytes) : Link Class :=
  deriveClassWith (loadClass env) bytes

end Linkage
