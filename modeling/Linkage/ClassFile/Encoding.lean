import Linkage.ClassFile.Parser

/-! # Writing a class file

    `ClassFile.encode` lays a class file out in bytes, in the order in which
    `ClassFile.parse` reads it. Holes of the pool take no bytes, and the bootstrap
    table is not written by itself: it is part of an attribute. -/

namespace Linkage

open Text (Bytes)

/-! ## Numbers -/

/-- A 16-bit number, the high byte first. -/
def encodeU16 (n : UInt16) : Bytes :=
  [UInt8.ofNat (n.toNat / 256), UInt8.ofNat (n.toNat % 256)]

/-- A 32-bit number, the high half first. -/
def encodeU32 (n : UInt32) : Bytes :=
  encodeU16 (UInt16.ofNat (n.toNat / 65536)) ++ encodeU16 (UInt16.ofNat (n.toNat % 65536))

/-- A 16-bit count of the elements, then the elements. -/
def encodeCounted {α : Type} (encode : α → Bytes) (l : List α) : Bytes :=
  encodeU16 (UInt16.ofNat l.length) ++ l.flatMap encode

/-! ## The parts -/

namespace Constant

/-- The body of a constant, after the number of its kind. -/
def encodeBody : Constant → Bytes
  | .utf8 text =>
      let bytes := Text.encodeUtf8 text
      encodeU16 (UInt16.ofNat bytes.length) ++ bytes
  | .integer bits => encodeU32 bits
  | .float bits => encodeU32 bits
  | .long high low => encodeU32 high ++ encodeU32 low
  | .double high low => encodeU32 high ++ encodeU32 low
  | .classRef name => encodeU16 name
  | .stringRef value => encodeU16 value
  | .fieldref owner nt => encodeU16 owner ++ encodeU16 nt
  | .methodref owner nt => encodeU16 owner ++ encodeU16 nt
  | .interfaceMethodref owner nt => encodeU16 owner ++ encodeU16 nt
  | .nameAndType name descriptor => encodeU16 name ++ encodeU16 descriptor
  | .methodHandle kind reference => kind :: encodeU16 reference
  | .methodType descriptor => encodeU16 descriptor
  | .dynamic bootstrap nt => encodeU16 bootstrap ++ encodeU16 nt
  | .invokeDynamic bootstrap nt => encodeU16 bootstrap ++ encodeU16 nt
  | .moduleName name => encodeU16 name
  | .packageName name => encodeU16 name
  | .hole => []

/-- A slot of the pool. -/
def encode (c : Constant) : Bytes :=
  match c.tag? with
  | some tag => tag.code :: c.encodeBody
  | none => []

end Constant

/-- An attribute. -/
def Attribute.encode (a : Attribute) : Bytes :=
  encodeU16 a.nameIndex ++ encodeU32 (UInt32.ofNat a.info.length) ++ a.info

/-- A field or a method. -/
def Member.encode (m : Member) : Bytes :=
  encodeU16 m.access ++ encodeU16 m.nameIndex ++ encodeU16 m.descriptorIndex
    ++ encodeCounted Attribute.encode m.attributes

/-- An entry of the bootstrap table. -/
def BootstrapEntry.encode (e : BootstrapEntry) : Bytes :=
  encodeU16 e.method ++ encodeCounted encodeU16 e.arguments

/-- The content of a `BootstrapMethods` attribute. -/
def encodeBootstrapTable (entries : List BootstrapEntry) : Bytes :=
  encodeCounted BootstrapEntry.encode entries

/-! ## The whole file -/

namespace ClassFile

/-- The bytes of a file with the given count in front of its pool. -/
def encodeWith (poolCount : UInt16) (file : ClassFile) : Bytes :=
  encodeU32 magic ++ encodeU16 file.minor ++ encodeU16 file.major
    ++ encodeU16 poolCount ++ file.pool.toList.flatMap Constant.encode
    ++ encodeU16 file.access ++ encodeU16 file.thisClass ++ encodeU16 file.superClass
    ++ encodeCounted encodeU16 file.interfaces
    ++ encodeCounted Member.encode file.fields
    ++ encodeCounted Member.encode file.methods
    ++ encodeCounted Attribute.encode file.attributes

/-- The bytes of a file. The count in front of the pool is one more than the number
    of slots. -/
def encode (file : ClassFile) : Bytes :=
  file.encodeWith (UInt16.ofNat (file.pool.size + 1))

end ClassFile

end Linkage
