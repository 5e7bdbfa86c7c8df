import Linkage.Class.Reference
import Linkage.Heap.Basic
import Linkage.MemberFlags

/-! # Objects

    The kinds of objects that linkage creates and inspects. Objects refer to each
    other by handle. Floating point values are kept as bit patterns. -/

namespace Linkage

/-- A member name: a symbolic reference to a member, and, once it is resolved,
    the member's identity and direct target. -/
structure MemberName where
  /-- The packed `MemberFlags`. -/
  flags : Int32 := 0
  name : Option Handle := none
  /-- A method type, a string or a class object. -/
  type : Option Handle := none
  /-- The class object of the class searched, or of the declaring class. -/
  clazz : Option Handle := none
  /-- The identity of the member; 0 while it is not known. -/
  vmindex : Nat := 0
  /-- The direct target; 0 while it is not known. -/
  vmtarget : Nat := 0
  deriving DecidableEq, Repr

/-- Identity and target are both known. -/
def MemberName.isResolved (m : MemberName) : Bool :=
  m.vmindex != 0 && m.vmtarget != 0

/-- A method type: class objects for the result and the parameters, and the
    descriptor once it has been asked for. -/
structure MethodType where
  result : Handle
  parameters : List Handle
  descriptor : Option Handle
  deriving DecidableEq, Repr

/-- A direct method handle. -/
structure MethodHandle where
  kind : ReferenceKind
  member : Handle
  deriving DecidableEq, Repr

/-- A reflected field. -/
structure ReflectedField where
  declaringClass : Handle
  slot : UInt16
  name : Handle
  type : Handle
  modifiers : Access
  deriving DecidableEq, Repr

/-- A reflected method or constructor. -/
structure ReflectedMethod where
  declaringClass : Handle
  slot : UInt16
  name : Option Handle
  signature : Handle
  modifiers : Access
  deriving DecidableEq, Repr

/-- An array of references. -/
structure ObjectArray where
  component : ClassId
  elements : Array (Option Handle)
  deriving DecidableEq, Repr

/-- An object. -/
inductive Object where
  | string (text : String)
  /-- The class object of a class. -/
  | classObject (id : ClassId)
  | integer (value : Int32)
  | float (bits : UInt32)
  | long (value : Int64)
  | double (bits : UInt64)
  | methodType (t : MethodType)
  | methodHandle (h : MethodHandle)
  | memberName (m : MemberName)
  | field (f : ReflectedField)
  | method (m : ReflectedMethod)
  | constructor (m : ReflectedMethod)
  | array (a : ObjectArray)
  | intArray (values : List Int32)
  | callSite (target : Option Handle)
  deriving DecidableEq, Repr

namespace Object

/-- The name of the object's class. -/
def typeName : Object → String
  | .string _ => "java/lang/String"
  | .classObject _ => "java/lang/Class"
  | .integer _ => "java/lang/Integer"
  | .float _ => "java/lang/Float"
  | .long _ => "java/lang/Long"
  | .double _ => "java/lang/Double"
  | .methodType _ => "java/lang/invoke/MethodType"
  | .methodHandle _ => "java/lang/invoke/MethodHandle"
  | .memberName _ => "java/lang/invoke/MemberName"
  | .field _ => "java/lang/reflect/Field"
  | .method _ => "java/lang/reflect/Method"
  | .constructor _ => "java/lang/reflect/Constructor"
  | .array _ => "[Ljava/lang/Object;"
  | .intArray _ => "[I"
  | .callSite _ => "java/lang/invoke/CallSite"

def string? : Object → Option String
  | .string text => some text
  | _ => none

def classId? : Object → Option ClassId
  | .classObject id => some id
  | _ => none

def memberName? : Object → Option MemberName
  | .memberName m => some m
  | _ => none

def array? : Object → Option ObjectArray
  | .array a => some a
  | _ => none

/-- The array with one element replaced; any other object unchanged. -/
def setElement (index : Nat) (value : Option Handle) : Object → Object
  | .array a => .array { a with elements := a.elements.setIfInBounds index value }
  | object => object

end Object

/-- A value that crosses the boundary to a native method. -/
inductive Value where
  | int (value : Int32)
  | long (value : Int64)
  | boolean (value : Bool)
  | ref (value : Option Handle)
  deriving DecidableEq, Repr

namespace Value

/-- The reference; null for any other value. -/
def asRef : Value → Option Handle
  | .ref r => r
  | _ => none

/-- The value as a 32-bit number: a long loses its upper half, a reference is 0. -/
def asInt : Value → Int32
  | .int i => i
  | .boolean b => if b then 1 else 0
  | .long l => l.toInt32
  | .ref _ => 0

/-- The value as a truth value: anything but 0. -/
def asBool (v : Value) : Bool :=
  v.asInt != 0

end Value

end Linkage
