import Linkage.Class.ConstantPool
import Linkage.Class.Native
import Linkage.Class.Reference
import Linkage.Descriptor
import Linkage.Heap.Basic

/-! # Classes

    A class as it stands in the class table: its place in the hierarchy, the
    layout of its fields, the dispatch of its methods, its constants and its
    bootstrap table. Nothing of it changes once it is in the table. -/

namespace Linkage

/-! ## Fields -/

/-- A declared field. -/
structure Field where
  access : Access
  name : String
  type : TypeDescriptor
  /-- Byte offset of an instance field, storage slot of a static one. -/
  slot : Nat

namespace Field

/-- Objects start with a header of this size. -/
def headerSize : Nat := 16

/-- The size of a field. -/
def slotSize : Nat := 8

def isStatic (f : Field) : Bool := f.access.has Access.staticFlag

def isFinal (f : Field) : Bool := f.access.has Access.finalFlag

/-- The direct target of a field: the offset of an instance field; for a static
    one the offset of its slot, marked in the lowest bit, and in the next one if
    the field is final. -/
def target (f : Field) : Nat :=
  if f.isStatic then f.slot * slotSize + 1 + (if f.isFinal then 2 else 0) else f.slot

/-- Name and, if given, descriptor are those of the field. -/
def isCalled (f : Field) (name : String) (descriptor : Option String) : Bool :=
  f.name == name && (match descriptor with | some d => f.type.render == d | none => true)

end Field

/-! ## Methods -/

/-- How calls of a method find it. -/
inductive Dispatch where
  /-- Static, private or an initializer: no dispatch slot. -/
  | direct
  /-- A position of the vtable. -/
  | virtual (index : UInt16)
  /-- A position among the methods of the declaring interface. -/
  | interface (index : UInt16)
  deriving DecidableEq, Repr

/-- A declared method. -/
structure Method where
  access : Access
  name : String
  descriptor : MethodDescriptor
  dispatch : Dispatch
  callerSensitive : Bool
  /-- The implementation, if the method is native and has one. -/
  native : Option Native

namespace Method

def isStatic (m : Method) : Bool := m.access.has Access.staticFlag

def isFinal (m : Method) : Bool := m.access.has Access.finalFlag

def isPrivate (m : Method) : Bool := m.access.has Access.privateFlag

def isAbstract (m : Method) : Bool := m.access.has Access.abstractFlag

def isNative (m : Method) : Bool := m.access.has Access.nativeFlag

/-- Names that start with `<` are those of initializers. -/
def isInitializerName (name : String) : Bool :=
  name.toList.head? == some '<'

/-- The name of constructors. -/
def constructorName : String := "<init>"

/-- The name of class initializers. -/
def classInitializerName : String := "<clinit>"

def isInitializer (m : Method) : Bool := isInitializerName m.name

def isConstructor (m : Method) : Bool :=
  m.name == constructorName && m.descriptor.result == .primitive .void

/-- Name and, if given, descriptor are those of the method. -/
def isCalled (m : Method) (name : String) (descriptor : Option String) : Bool :=
  m.name == name && (match descriptor with | some d => m.descriptor.render == d | none => true)

/-- The method takes over the vtable slot of an inherited one. -/
def overrides (m inherited : Method) : Bool :=
  m.name == inherited.name && m.descriptor == inherited.descriptor && !inherited.isPrivate

/-- The reference kind that a method is invoked with unless another one is asked
    for. -/
def referenceKind (m : Method) : ReferenceKind :=
  match m.dispatch with
  | .interface _ => .invokeInterface
  | .direct => if m.isStatic then .invokeStatic else .invokeSpecial
  | .virtual _ =>
      if m.isStatic then .invokeStatic
      else if m.isFinal then .invokeSpecial
      else .invokeVirtual

/-- Name, descriptor and dispatch in one line. -/
def summary (m : Method) : String :=
  let dispatch :=
    match m.dispatch with
    | .direct => "Direct"
    | .virtual i => s!"Virtual({i})"
    | .interface i => s!"Interface({i})"
  m.name ++ m.descriptor.render ++ " " ++ dispatch

end Method

/-! ## Classes -/

/-- What kind of type a class stands for. -/
inductive ClassKind where
  | primitive (p : Primitive)
  | array (component : ClassId)
  | object
  deriving DecidableEq, Repr

/-- A class of the class table. -/
structure Class where
  /-- Its place in the table. -/
  id : ClassId
  name : String
  access : Access
  kind : ClassKind
  superclass : Option ClassId
  /-- The interfaces it lists itself. -/
  interfaces : List ClassId
  /-- All its superclasses, the root first. -/
  superclasses : List ClassId
  /-- All its interfaces: those it lists, each followed by the interfaces of that
      one, then those of the superclass, without repetition. -/
  itable : List ClassId
  /-- The methods that virtual calls reach, by dispatch position. -/
  vtable : Array MethodRef
  pool : ConstantPool
  /-- The bootstrap table in one row: method, number of arguments, arguments,
      and so on. -/
  bootstrapTable : List UInt16
  fields : Array Field
  methods : Array Method
  /-- The size of an object. -/
  instanceSize : Nat
  /-- Number of static fields. -/
  staticSlots : Nat
  /-- The object that stands for the class. -/
  classObject : Handle

namespace Class

def isInterface (c : Class) : Bool := c.access.has Access.interfaceFlag

def isPrimitive (c : Class) : Bool :=
  match c.kind with
  | .primitive _ => true
  | _ => false

def isArray (c : Class) : Bool :=
  match c.kind with
  | .array _ => true
  | _ => false

/-- The part of a class name before its last `/`. -/
def packageOf (name : String) : String :=
  String.ofList ((name.toList.reverse.dropWhile (fun c => c != '/')).drop 1).reverse

/-- The package of the class. -/
def package (c : Class) : String := packageOf c.name

/-- `other` is the class itself or one of its superclasses. -/
def isSubclassOf (c : Class) (other : ClassId) : Bool :=
  c.id == other || c.superclasses.contains other

/-- `other` is the class itself or one of its interfaces. -/
def implements (c : Class) (other : ClassId) : Bool :=
  c.id == other || c.itable.contains other

/-- The field at the given place. -/
def field? (c : Class) (index : UInt16) : Option Field :=
  c.fields[index.toNat]?

/-- The method at the given place. -/
def method? (c : Class) (index : UInt16) : Option Method :=
  c.methods[index.toNat]?

/-- The place of the first field that is called so. -/
def findField? (c : Class) (name : String) (descriptor : Option String) : Option UInt16 :=
  (c.fields.findIdx? (fun f => f.isCalled name descriptor)).map UInt16.ofNat

/-- The place of the first method that is called so. -/
def findMethod? (c : Class) (name : String) (descriptor : Option String) : Option UInt16 :=
  (c.methods.findIdx? (fun m => m.isCalled name descriptor)).map UInt16.ofNat

end Class

/-! ## The bootstrap table -/

namespace BootstrapEntry

/-- The row of an entry: the method, the number of arguments, the arguments. -/
def row (e : BootstrapEntry) : List UInt16 :=
  e.method :: UInt16.ofNat e.arguments.length :: e.arguments

/-- The entry at the given place of a table of rows. -/
def ofRows? : Nat → List UInt16 → Option BootstrapEntry
  | 0, method :: count :: rest =>
      if count.toNat ≤ rest.length then some { method, arguments := rest.take count.toNat }
      else none
  | k + 1, _ :: count :: rest => ofRows? k (rest.drop count.toNat)
  | _, _ => none

end BootstrapEntry

/-- The bootstrap method at the given place of the class's table. -/
def Class.bootstrapMethod? (c : Class) (index : UInt16) : Option BootstrapEntry :=
  BootstrapEntry.ofRows? index.toNat c.bootstrapTable

end Linkage
