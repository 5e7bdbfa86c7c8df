import Linkage.Decimal.Shortest
import Linkage.Machine.Store

/-! # Describing objects

    One line of text for an object and the objects it holds. -/

namespace Linkage

open Link

/-- A number in hexadecimal, after `0x`. -/
def hexadecimal (n : Nat) : String :=
  "0x" ++ String.ofList (Nat.toDigits 16 n)

/-- Describe a reference, with `describe` for the references inside. -/
def describeWith (describe : Option Handle → Link String) : Option Handle → Link String
  | none => pure "null"
  | some handle => do
      match ← read handle with
      | .string text => pure ("\"" ++ text ++ "\"")
      | .classObject id => do pure ("class " ++ (← classAt id).name)
      | .integer value => pure s!"Integer({value})"
      | .float bits => pure ("Float(" ++ Decimal.binary32.render bits.toNat ++ ")")
      | .long value => pure s!"Long({value})"
      | .double bits => pure ("Double(" ++ Decimal.binary64.render bits.toNat ++ ")")
      | .methodType t => do
          let parameters ← forEach (fun p => describe (some p)) t.parameters
          let result ← describe (some t.result)
          pure ("MethodType(" ++ String.intercalate ", " parameters ++ ")" ++ result)
      | .methodHandle h => do
          let member ← describe (some h.member)
          pure ("MethodHandle[" ++ h.kind.name ++ "](" ++ member ++ ")")
      | .memberName m => do
          let clazz ← describe m.clazz
          let name ← describe m.name
          let type ← describe m.type
          let flags := hexadecimal (wordOf m.flags)
          pure s!"MemberName({clazz} {name} {type} flags={flags})"
      | .array a => do
          let elements ← forEach describe a.elements.toList
          pure ("[" ++ String.intercalate ", " elements ++ "]")
      | other => pure other.typeName

/-- Describe a reference through at most `depth` objects inside each other. -/
def describeWithin : Nat → Option Handle → Link String
  | 0, _ => failWith .boundReached
  | depth + 1, r => describeWith (describeWithin depth) r

/-- Describe a reference. Objects inside each other are different unless one holds
    itself, so the number of live objects bounds the depth; an object that holds
    itself has no description. -/
def describe (r : Option Handle) : Link String := do
  let live ← view (fun m => m.heap.live)
  describeWithin (live + 2) r

end Linkage
