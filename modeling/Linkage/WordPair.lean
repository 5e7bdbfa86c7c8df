/-! # Wide literals in two words

    A 64-bit literal is kept as two 32-bit words, the low one first. A class file
    stores the high word first. -/

namespace Linkage

/-- Two 32-bit words; together a 64-bit word whose low half is `first`. -/
structure WordPair where
  first : UInt32
  second : UInt32
  deriving DecidableEq, Repr

namespace WordPair

/-- The words of a literal as a class file gives them. -/
def ofClassFile (high low : UInt32) : WordPair :=
  { first := low, second := high }

/-- The 64-bit word. -/
def value (w : WordPair) : UInt64 :=
  UInt64.ofNat (w.second.toNat * 0x100000000 + w.first.toNat)

/-- The two words of a 64-bit word. -/
def ofValue (v : UInt64) : WordPair :=
  { first := UInt32.ofNat (v.toNat % 0x100000000), second := UInt32.ofNat (v.toNat / 0x100000000) }

end WordPair

end Linkage
