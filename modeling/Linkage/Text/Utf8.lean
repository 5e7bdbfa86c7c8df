/-! # Strict UTF-8

    The text of a byte string, or where it stops being text.

    Only the shortest form of a scalar value is accepted, and no surrogates.
    A refusal names the first malformed sequence:

    * `Malformed.incomplete i`: the bytes end inside a sequence that starts at
      offset `i` and is correct as far as it goes;
    * `Malformed.invalid n i`: the sequence at offset `i` cannot be continued;
      its first `n` bytes are a correct beginning (`n = 1` if there is none). -/

namespace Linkage.Text

/-- A byte string. -/
abbrev Bytes : Type := List UInt8

/-- The first malformed sequence of a byte string. -/
inductive Malformed where
  | invalid (length offset : Nat)
  | incomplete (offset : Nat)
  deriving DecidableEq, Repr

/-- The wording of a malformed sequence. -/
def Malformed.message : Malformed → String
  | .invalid length offset =>
      s!"invalid utf-8 sequence of {length} bytes from index {offset}"
  | .incomplete offset => s!"incomplete utf-8 byte sequence from index {offset}"

namespace Utf8

/-- `b` lies in `lo ..= hi`. -/
def within (lo hi b : UInt8) : Bool :=
  lo ≤ b && b ≤ hi

/-- The ranges of the bytes that follow a leading byte. The range of the second
    byte excludes overlong forms, surrogates and values above U+10FFFF; `none`
    for a byte that starts no sequence. -/
def continuation (lead : UInt8) : Option (List (UInt8 × UInt8)) :=
  let rest : UInt8 × UInt8 := (0x80, 0xBF)
  if lead < 0x80 then some []
  else if within 0xC2 0xDF lead then some [rest]
  else if lead = 0xE0 then some [(0xA0, 0xBF), rest]
  else if lead = 0xED then some [(0x80, 0x9F), rest]
  else if within 0xE1 0xEF lead then some [rest, rest]
  else if lead = 0xF0 then some [(0x90, 0xBF), rest, rest]
  else if lead = 0xF4 then some [(0x80, 0x8F), rest, rest]
  else if within 0xF1 0xF3 lead then some [rest, rest, rest]
  else none

/-- Match the bytes of one sequence after `seen` of them against their ranges:
    the fault, or the number of bytes of the whole sequence. -/
def measure (offset seen : Nat) : List (UInt8 × UInt8) → Bytes → Except Malformed Nat
  | [], _ => .ok seen
  | _ :: _, [] => .error (.incomplete offset)
  | (lo, hi) :: ranges, b :: bytes =>
      if within lo hi b then measure offset (seen + 1) ranges bytes
      else .error (.invalid seen offset)

/-- The first malformed sequence at or after `offset`, if there is one. `skip`
    counts the bytes of the current sequence that are already matched. -/
def locate (offset skip : Nat) : Bytes → Option Malformed
  | [] => none
  | b :: bytes =>
      if 0 < skip then locate (offset + 1) (skip - 1) bytes
      else
        match continuation b with
        | none => some (.invalid 1 offset)
        | some ranges =>
            match measure offset 1 ranges bytes with
            | .error fault => some fault
            | .ok length => locate (offset + 1) (length - 1) bytes

end Utf8

/-- The text that `bytes` encode, or their first malformed sequence. -/
def decodeUtf8 (bytes : Bytes) : Except Malformed String :=
  match String.fromUTF8? ⟨bytes.toArray⟩ with
  | some text => .ok text
  | none => .error ((Utf8.locate 0 0 bytes).getD (.incomplete 0))

/-- The bytes of a text. -/
def encodeUtf8 (text : String) : Bytes :=
  text.toUTF8.data.toList

end Linkage.Text
