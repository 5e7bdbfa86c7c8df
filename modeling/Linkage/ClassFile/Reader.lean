import Linkage.ClassFile.Basic

/-! # Reading bytes

    A reader takes a value off the front of a byte string and returns the rest.
    Numbers are stored with the most significant byte first. Every reader fails
    with `truncated` when the bytes run out. -/

namespace Linkage.ClassFile

open Text (Bytes)

/-- Readers of class file data. -/
abbrev Reader : Type → Type := StateT Bytes (Except FormatError)

namespace Reader

/-- One byte. -/
def u8 : Reader UInt8
  | [] => .error .truncated
  | b :: rest => .ok (b, rest)

/-- A 16-bit number. -/
def u16 : Reader UInt16 := do
  let high ← u8
  let low ← u8
  pure (UInt16.ofNat (high.toNat * 256 + low.toNat))

/-- A 32-bit number. -/
def u32 : Reader UInt32 := do
  let high ← u16
  let low ← u16
  pure (UInt32.ofNat (high.toNat * 65536 + low.toNat))

/-- The next `n` bytes. -/
def take (n : Nat) : Reader Bytes := fun bytes =>
  let (front, rest) := bytes.splitAt n
  if front.length = n then .ok (front, rest) else .error .truncated

/-- `n` values in a row, in front of which stand those of `done`, last one first. -/
def manyAfter {α : Type} (r : Reader α) : Nat → List α → Reader (List α)
  | 0, done => pure done.reverse
  | n + 1, done => do
      let a ← r
      manyAfter r n (a :: done)

/-- `n` values in a row. -/
def many {α : Type} (n : Nat) (r : Reader α) : Reader (List α) :=
  manyAfter r n []

/-- A 16-bit count and that many values. -/
def counted {α : Type} (r : Reader α) : Reader (List α) := do
  let n ← u16
  many n.toNat r

end Reader

end Linkage.ClassFile
