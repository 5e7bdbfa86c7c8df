import Linkage.Text.Utf8

/-! # Class files

    A class file as it is stored: constants refer to each other by index, and
    nothing has been followed yet.

    * `Constant`, `Attribute`, `Member`, `BootstrapEntry`, `ClassFile` are its parts.
    * `ClassFile.entry`, `utf8`, `className`, `nameAndType` follow an index.
    * `FormatError` is what can be wrong with a file. -/

namespace Linkage

open Text (Bytes)

/-! ## Faults -/

/-- Why a byte string is not a class file. -/
inductive FormatError where
  | truncated
  | utf8 (fault : Text.Malformed)
  | unknownTag (tag : UInt8)
  | badMagic
  | trailingBytes
  | constantPool (index : UInt16)
  | malformedAttribute (name : String)
  deriving DecidableEq, Repr

/-- The wording of a fault. -/
def FormatError.message : FormatError → String
  | .truncated => "failed to fill whole buffer"
  | .utf8 fault => fault.message
  | .unknownTag tag => s!"Unknown constant pool tag {tag}"
  | .badMagic => "Not a class file"
  | .trailingBytes => "Class file is longer than expected"
  | .constantPool index => s!"Format error at constant pool item {index}"
  | .malformedAttribute name => s!"Malformed {name} attribute"

/-! ## Constants -/

/-- The kinds of constants. -/
inductive ConstantTag where
  | utf8
  | integer
  | float
  | long
  | double
  | classRef
  | stringRef
  | fieldref
  | methodref
  | interfaceMethodref
  | nameAndType
  | methodHandle
  | methodType
  | dynamic
  | invokeDynamic
  | moduleName
  | packageName
  deriving DecidableEq, Repr

namespace ConstantTag

/-- Every kind, in the order of their numbers. -/
def all : List ConstantTag :=
  [.utf8, .integer, .float, .long, .double, .classRef, .stringRef, .fieldref, .methodref,
   .interfaceMethodref, .nameAndType, .methodHandle, .methodType, .dynamic, .invokeDynamic,
   .moduleName, .packageName]

/-- The number of the kind in a class file. -/
def code : ConstantTag → UInt8
  | .utf8 => 1
  | .integer => 3
  | .float => 4
  | .long => 5
  | .double => 6
  | .classRef => 7
  | .stringRef => 8
  | .fieldref => 9
  | .methodref => 10
  | .interfaceMethodref => 11
  | .nameAndType => 12
  | .methodHandle => 15
  | .methodType => 16
  | .dynamic => 17
  | .invokeDynamic => 18
  | .moduleName => 19
  | .packageName => 20

/-- The kind with the given number. -/
def ofCode? (code : UInt8) : Option ConstantTag :=
  all.find? (fun tag => tag.code == code)

/-- The name of the kind. -/
def name : ConstantTag → String
  | .utf8 => "Utf8"
  | .integer => "Integer"
  | .float => "Float"
  | .long => "Long"
  | .double => "Double"
  | .classRef => "Class"
  | .stringRef => "String"
  | .fieldref => "Fieldref"
  | .methodref => "Methodref"
  | .interfaceMethodref => "InterfaceMethodref"
  | .nameAndType => "NameAndType"
  | .methodHandle => "MethodHandle"
  | .methodType => "MethodType"
  | .dynamic => "Dynamic"
  | .invokeDynamic => "InvokeDynamic"
  | .moduleName => "Module"
  | .packageName => "Package"

end ConstantTag

/-- A slot of the constant pool. Numbers of type `UInt16` are indices of other
    slots. -/
inductive Constant where
  | utf8 (text : String)
  | integer (bits : UInt32)
  | float (bits : UInt32)
  | long (high low : UInt32)
  | double (high low : UInt32)
  | classRef (name : UInt16)
  | stringRef (value : UInt16)
  | fieldref (owner nameAndType : UInt16)
  | methodref (owner nameAndType : UInt16)
  | interfaceMethodref (owner nameAndType : UInt16)
  | nameAndType (name descriptor : UInt16)
  | methodHandle (kind : UInt8) (reference : UInt16)
  | methodType (descriptor : UInt16)
  | dynamic (bootstrap nameAndType : UInt16)
  | invokeDynamic (bootstrap nameAndType : UInt16)
  | moduleName (name : UInt16)
  | packageName (name : UInt16)
  /-- The unusable slot that follows a `long` or `double`. -/
  | hole
  deriving DecidableEq, Repr

namespace Constant

/-- The kind of the constant; a hole has none. -/
def tag? : Constant → Option ConstantTag
  | .utf8 _ => some .utf8
  | .integer _ => some .integer
  | .float _ => some .float
  | .long _ _ => some .long
  | .double _ _ => some .double
  | .classRef _ => some .classRef
  | .stringRef _ => some .stringRef
  | .fieldref _ _ => some .fieldref
  | .methodref _ _ => some .methodref
  | .interfaceMethodref _ _ => some .interfaceMethodref
  | .nameAndType _ _ => some .nameAndType
  | .methodHandle _ _ => some .methodHandle
  | .methodType _ => some .methodType
  | .dynamic _ _ => some .dynamic
  | .invokeDynamic _ _ => some .invokeDynamic
  | .moduleName _ => some .moduleName
  | .packageName _ => some .packageName
  | .hole => none

/-- Wide constants take two slots. -/
def isWide : Constant → Bool
  | .long _ _ => true
  | .double _ _ => true
  | _ => false

end Constant

/-! ## The file -/

/-- A named block of bytes. -/
structure Attribute where
  nameIndex : UInt16
  info : Bytes
  deriving DecidableEq, Repr

/-- A declared field or method. -/
structure Member where
  access : UInt16
  nameIndex : UInt16
  descriptorIndex : UInt16
  attributes : List Attribute
  deriving DecidableEq, Repr

/-- An entry of the `BootstrapMethods` attribute: the bootstrap method and its
    static arguments, as pool indices. -/
structure BootstrapEntry where
  method : UInt16
  arguments : List UInt16
  deriving DecidableEq, Repr

/-- A class file. -/
structure ClassFile where
  minor : UInt16
  major : UInt16
  /-- The constant with index `i` stands at position `i - 1`. -/
  pool : Array Constant
  access : UInt16
  thisClass : UInt16
  superClass : UInt16
  interfaces : List UInt16
  fields : List Member
  methods : List Member
  attributes : List Attribute
  /-- The entries of the last `BootstrapMethods` attribute. -/
  bootstrapMethods : List BootstrapEntry
  deriving DecidableEq, Repr

/-! ## Following indices -/

namespace ClassFile

/-- The constant with the given index. There is none at index 0. -/
def entry (file : ClassFile) (index : UInt16) : Except FormatError Constant :=
  match index.toNat with
  | 0 => .error (.constantPool index)
  | i + 1 =>
      match file.pool[i]? with
      | some constant => .ok constant
      | none => .error (.constantPool index)

/-- The text at the given index. -/
def utf8 (file : ClassFile) (index : UInt16) : Except FormatError String := do
  match ← file.entry index with
  | .utf8 text => .ok text
  | _ => .error (.constantPool index)

/-- The name of the class constant at the given index. -/
def className (file : ClassFile) (index : UInt16) : Except FormatError String := do
  match ← file.entry index with
  | .classRef name => file.utf8 name
  | _ => .error (.constantPool index)

/-- Name and descriptor at the given index. -/
def nameAndType (file : ClassFile) (index : UInt16) :
    Except FormatError (String × String) := do
  match ← file.entry index with
  | .nameAndType name descriptor => do
      let name ← file.utf8 name
      let descriptor ← file.utf8 descriptor
      .ok (name, descriptor)
  | _ => .error (.constantPool index)

end ClassFile

end Linkage
