import Linkage.ClassFile.Basic
import Linkage.MemberFlags
import Linkage.WordPair

/-! # Constant pools of classes

    The constants of a loaded class, with the indices inside them followed. Slot 0
    is unused, and a wide constant is followed by a hole. What a constant resolves
    to is not kept here: the pool never changes. -/

namespace Linkage

/-- A symbolic reference to a field or method: the slot of its class, its name
    and its descriptor. -/
structure SymbolicRef where
  owner : UInt16
  name : String
  descriptor : String
  deriving DecidableEq, Repr

/-- A slot of a constant pool. -/
inductive PoolEntry where
  | utf8 (text : String)
  | integer (value : Int32)
  | float (bits : UInt32)
  | long (words : WordPair)
  | double (words : WordPair)
  | classRef (name : String)
  | stringRef (value : String)
  | methodType (descriptor : String)
  | methodHandle (kind : ReferenceKind) (reference : UInt16)
  | dynamic (bootstrap : UInt16) (name descriptor : String)
  | fieldref (ref : SymbolicRef)
  | methodref (ref : SymbolicRef)
  | interfaceMethodref (ref : SymbolicRef)
  | nameAndType (name descriptor : String)
  | invokeDynamic (bootstrap : UInt16) (name descriptor : String)
  | hole
  deriving DecidableEq, Repr

namespace PoolEntry

/-- The kind of the constant; a hole has none. -/
def tag? : PoolEntry → Option ConstantTag
  | .utf8 _ => some .utf8
  | .integer _ => some .integer
  | .float _ => some .float
  | .long _ => some .long
  | .double _ => some .double
  | .classRef _ => some .classRef
  | .stringRef _ => some .stringRef
  | .methodType _ => some .methodType
  | .methodHandle _ _ => some .methodHandle
  | .dynamic _ _ _ => some .dynamic
  | .fieldref _ => some .fieldref
  | .methodref _ => some .methodref
  | .interfaceMethodref _ => some .interfaceMethodref
  | .nameAndType _ _ => some .nameAndType
  | .invokeDynamic _ _ _ => some .invokeDynamic
  | .hole => none

/-- Number of slots that the constant takes. -/
def width : PoolEntry → Nat
  | .long _ => 2
  | .double _ => 2
  | _ => 1

/-- The constant is resolved on first use and remembered. -/
def isLazy : PoolEntry → Bool
  | .classRef _ => true
  | .stringRef _ => true
  | .methodType _ => true
  | .methodHandle _ _ => true
  | .dynamic _ _ _ => true
  | _ => false

end PoolEntry

/-- The slots of a pool, slot 0 included. -/
structure ConstantPool where
  slots : Array PoolEntry

namespace ConstantPool

/-- The slots that a constant fills: wide ones get a hole. -/
def slotsOf (e : PoolEntry) : List PoolEntry :=
  if e.width = 2 then [e, .hole] else [e]

/-- The pool with the given constants, the first one in slot 1. -/
def ofConstants (constants : List PoolEntry) : ConstantPool :=
  ⟨(PoolEntry.hole :: constants.flatMap slotsOf).toArray⟩

/-- The pool without constants. -/
def empty : ConstantPool := ofConstants []

/-- The constant in a slot; a hole is none. -/
def get? (p : ConstantPool) (index : UInt16) : Option PoolEntry :=
  match p.slots[index.toNat]? with
  | some .hole => none
  | slot => slot

/-- Number of slots, slot 0 included. -/
def size (p : ConstantPool) : Nat := p.slots.size

/-- There is no slot but slot 0. -/
def isEmpty (p : ConstantPool) : Bool := p.size ≤ 1

end ConstantPool

end Linkage
