import Linkage.ClassFile.Reader

/-! # Annotations of methods

    A method is caller sensitive if one of its runtime visible annotations has
    the type `Ljdk/internal/reflect/CallerSensitive;`. Annotations hold values,
    and values hold annotations and other values; reading one skips all that it
    holds, so a nested annotation does not count. -/

namespace Linkage.ClassFile

open Text (Bytes)
open Reader (u8 u16)

namespace Annotation

/-- The name of the attribute that holds the annotations. -/
def attributeName : String := "RuntimeVisibleAnnotations"

/-- The descriptor of the annotation that marks a caller-sensitive method. -/
def callerSensitive : String := "Ljdk/internal/reflect/CallerSensitive;"

/-- The fault of a malformed attribute. -/
def malformed : FormatError := .malformedAttribute attributeName

/-- Read an annotation whose values are read by `value`: its type and the number
    of its elements, each a name and a value. The answer is its type. -/
def read (value : Reader Unit) : Reader UInt16 := do
  let type ← u16
  let count ← u16
  let _ ← Reader.many count.toNat do
    let _ ← u16
    value
  pure type

/-- The letters of the values that are one index. -/
def constantLetters : List Char :=
  ['B', 'C', 'D', 'F', 'I', 'J', 'S', 'Z', 's', 'c']

/-- Skip a value nested at most `depth` deep: a constant, an enum constant, an
    annotation or an array of values, told apart by its first byte. -/
def skipValue : Nat → Reader Unit
  | 0 => throw malformed
  | depth + 1 => do
      let letter := Char.ofUInt8 (← u8)
      if constantLetters.contains letter then
        let _ ← u16
      else if letter = 'e' then
        let _ ← u16
        let _ ← u16
      else if letter = '@' then
        let _ ← read (skipValue depth)
      else if letter = '[' then
        let count ← u16
        let _ ← Reader.many count.toNat (skipValue depth)
      else throw malformed

/-- Whether one of the next `n` annotations marks a caller-sensitive method. The
    search ends at the first that does. A value takes at least one byte, so the
    number of bytes bounds how deep values are nested. -/
def anyCallerSensitive (file : ClassFile) : Nat → Bytes → Except FormatError Bool
  | 0, _ => .ok false
  | n + 1, bytes =>
      match read (skipValue bytes.length) bytes with
      | .error _ => .error malformed
      | .ok (type, rest) => do
          if (← file.utf8 type) = callerSensitive then .ok true
          else anyCallerSensitive file n rest

end Annotation

/-- Whether the attributes of a method mark it as caller sensitive. -/
def isCallerSensitive (file : ClassFile) : List Attribute → Except FormatError Bool
  | [] => .ok false
  | a :: rest => do
      if (← file.utf8 a.nameIndex) = Annotation.attributeName then
        match u16 a.info with
        | .error _ => .error Annotation.malformed
        | .ok (count, bytes) => do
            if ← Annotation.anyCallerSensitive file count.toNat bytes then .ok true
            else isCallerSensitive file rest
      else isCallerSensitive file rest

end Linkage.ClassFile
