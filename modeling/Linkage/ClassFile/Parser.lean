import Linkage.ClassFile.Reader

/-! # Reading a class file

    `ClassFile.parse` reads a whole file and accounts for every byte of it. It
    follows the layout of the file from left to right; the `BootstrapMethods`
    attribute is opened last, when the rest of the file is known to be sound. -/

namespace Linkage.ClassFile

open Text (Bytes)
open Reader (u8 u16 u32)

/-- The first four bytes of every class file. -/
def magic : UInt32 := 0xCAFEBABE

/-! ## The parts -/

/-- The text of a `utf8` constant: a length in bytes, and the bytes. -/
def readUtf8 : Reader String := do
  let length ← u16
  let bytes ← Reader.take length.toNat
  match Text.decodeUtf8 bytes with
  | .ok text => pure text
  | .error fault => throw (.utf8 fault)

/-- Two numbers, put together by `make`. -/
def readPair {α β : Type} (r : Reader α) (make : α → α → β) : Reader β := do
  let a ← r
  let b ← r
  pure (make a b)

/-- The body of a constant of the given kind. -/
def readBody : ConstantTag → Reader Constant
  | .utf8 => Constant.utf8 <$> readUtf8
  | .integer => Constant.integer <$> u32
  | .float => Constant.float <$> u32
  | .long => readPair u32 Constant.long
  | .double => readPair u32 Constant.double
  | .classRef => Constant.classRef <$> u16
  | .stringRef => Constant.stringRef <$> u16
  | .fieldref => readPair u16 Constant.fieldref
  | .methodref => readPair u16 Constant.methodref
  | .interfaceMethodref => readPair u16 Constant.interfaceMethodref
  | .nameAndType => readPair u16 Constant.nameAndType
  | .methodHandle => do
      let kind ← u8
      let reference ← u16
      pure (.methodHandle kind reference)
  | .methodType => Constant.methodType <$> u16
  | .dynamic => readPair u16 Constant.dynamic
  | .invokeDynamic => readPair u16 Constant.invokeDynamic
  | .moduleName => Constant.moduleName <$> u16
  | .packageName => Constant.packageName <$> u16

/-- A constant: the number of its kind, and its body. -/
def readConstant : Reader Constant := do
  let code ← u8
  match ConstantTag.ofCode? code with
  | some tag => readBody tag
  | none => throw (.unknownTag code)

/-- Fill `n` more slots of the pool after those of `done`, last one first. `owed`
    tells that the last constant was wide: the next slot is its hole. A wide
    constant in the last slot still gets its hole. -/
def readSlots : Nat → Bool → List Constant → Reader (List Constant)
  | 0, owed, done => pure (if owed then .hole :: done else done).reverse
  | n + 1, true, done => readSlots n false (.hole :: done)
  | n + 1, false, done => do
      let constant ← readConstant
      readSlots n constant.isWide (constant :: done)

/-- The constant pool: a count that is one more than the number of slots. -/
def readPool : Reader (List Constant) := do
  let count ← u16
  readSlots (count.toNat - 1) false []

/-- An attribute: the index of its name, its length and its bytes. -/
def readAttribute : Reader Attribute := do
  let nameIndex ← u16
  let length ← u32
  let info ← Reader.take length.toNat
  pure { nameIndex, info }

/-- A field or a method. -/
def readMember : Reader Member := do
  let access ← u16
  let nameIndex ← u16
  let descriptorIndex ← u16
  let attributes ← Reader.counted readAttribute
  pure { access, nameIndex, descriptorIndex, attributes }

/-- An entry of the bootstrap table. -/
def readBootstrapEntry : Reader BootstrapEntry := do
  let method ← u16
  let arguments ← Reader.counted u16
  pure { method, arguments }

/-- All of a file but its bootstrap table. -/
def readFile : Reader ClassFile := do
  if (← u32) ≠ magic then throw .badMagic
  let minor ← u16
  let major ← u16
  let pool ← readPool
  let access ← u16
  let thisClass ← u16
  let superClass ← u16
  let interfaces ← Reader.counted u16
  let fields ← Reader.counted readMember
  let methods ← Reader.counted readMember
  let attributes ← Reader.counted readAttribute
  pure
    { minor, major, pool := pool.toArray, access, thisClass, superClass, interfaces, fields,
      methods, attributes, bootstrapMethods := [] }

/-! ## The bootstrap table -/

/-- The name of the attribute that holds the bootstrap table. -/
def bootstrapAttribute : String := "BootstrapMethods"

/-- The bootstrap table that fills the given bytes exactly. -/
def parseBootstrapTable (info : Bytes) : Except FormatError (List BootstrapEntry) :=
  match Reader.counted readBootstrapEntry info with
  | .ok (entries, []) => .ok entries
  | _ => .error (.malformedAttribute bootstrapAttribute)

/-- The bootstrap table of the last `BootstrapMethods` attribute among the given
    ones, `found` if there is none. The name of every attribute is looked at. -/
def findBootstrapTable (file : ClassFile) (found : List BootstrapEntry) :
    List Attribute → Except FormatError (List BootstrapEntry)
  | [] => .ok found
  | a :: rest => do
      let name ← file.utf8 a.nameIndex
      if name = bootstrapAttribute then
        let entries ← parseBootstrapTable a.info
        file.findBootstrapTable entries rest
      else file.findBootstrapTable found rest

/-! ## The whole file -/

/-- The class file that `bytes` encode. -/
def parse (bytes : Bytes) : Except FormatError ClassFile := do
  let (file, rest) ← readFile bytes
  if !rest.isEmpty then throw .trailingBytes
  let bootstrapMethods ← file.findBootstrapTable [] file.attributes
  pure { file with bootstrapMethods }

end Linkage.ClassFile
