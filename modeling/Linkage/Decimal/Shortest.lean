/-! # Shortest decimals of binary floating point numbers

    The decimal text of a float given by its bit pattern: of all decimals that
    round to the float, one with the fewest digits, and of those the nearest to
    it; when two are equally near, the larger one. The text is positional, with
    no exponent, and a whole number has no point.

    * `Format.decode` splits a bit pattern into sign, mantissa and exponent.
    * `Interval` holds the numbers that round to a finite float.
    * `Interval.shortest` finds the decimal in exact arithmetic.
    * `Format.render` is the text. -/

namespace Linkage.Decimal

/-! ## Bit patterns -/

/-- A binary interchange format: the widths of its fraction and its exponent. -/
structure Format where
  fractionBits : Nat
  exponentBits : Nat

/-- 32-bit floats. -/
def binary32 : Format := ⟨23, 8⟩

/-- 64-bit floats. -/
def binary64 : Format := ⟨52, 11⟩

/-- What a bit pattern stands for. A finite number is `mantissa · 2 ^ exponent`;
    `narrow` tells that the next smaller number is only half as far away as the
    next larger one. -/
inductive Number where
  | nan
  | infinite (negative : Bool)
  | finite (negative : Bool) (mantissa : Nat) (exponent : Int) (narrow : Bool)

/-- The number with the given bit pattern. -/
def Format.decode (f : Format) (bits : Nat) : Number :=
  let base := Nat.pow 2 f.fractionBits
  let top := Nat.pow 2 f.exponentBits
  let fraction := bits % base
  let biased := bits / base % top
  let negative := bits / (base * top) % 2 == 1
  let lowest : Int := 2 - (Nat.pow 2 (f.exponentBits - 1) : Nat) - f.fractionBits
  if biased = top - 1 then
    if fraction = 0 then .infinite negative else .nan
  else if biased = 0 then .finite negative fraction lowest false
  else .finite negative (base + fraction) (lowest + biased - 1) (fraction == 0 && 1 < biased)

/-! ## The numbers that round to a float -/

/-- The numbers between `low / unit` and `high / unit`, with `value / unit` among
    them. The ends belong to it if `closed`. -/
structure Interval where
  low : Nat
  value : Nat
  high : Nat
  unit : Nat
  closed : Bool

/-- The numbers that round to `mantissa · 2 ^ exponent`: half way to either
    neighbour, the half way points themselves only for an even mantissa. -/
def Interval.around (mantissa : Nat) (exponent : Int) (narrow : Bool) : Interval :=
  let quarter := exponent - 2
  let scale := Nat.pow 2 quarter.toNat
  { low := (4 * mantissa - if narrow then 1 else 2) * scale
    value := 4 * mantissa * scale
    high := (4 * mantissa + 2) * scale
    unit := Nat.pow 2 (-quarter).toNat
    closed := mantissa % 2 == 0 }

namespace Interval

/-- `digits · 10 ^ power` lies in the interval. -/
def contains (i : Interval) (power : Int) (digits : Nat) : Bool :=
  let up := Nat.pow 10 (-power).toNat
  let point := digits * (i.unit * Nat.pow 10 power.toNat)
  if i.closed then i.low * up ≤ point && point ≤ i.high * up
  else i.low * up < point && point < i.high * up

/-- The neighbours of the value on the grid of multiples of `10 ^ power`: the
    one that lies in the interval, the nearer one if both do. -/
def nearest? (i : Interval) (power : Int) : Option Nat :=
  let value := i.value * Nat.pow 10 (-power).toNat
  let step := i.unit * Nat.pow 10 power.toNat
  let below := value / step
  match i.contains power below, i.contains power (below + 1) with
  | true, true =>
      if value - below * step < (below + 1) * step - value then some below
      else some (below + 1)
  | true, false => some below
  | false, true => some (below + 1)
  | false, false => none

/-- Search the grids from `10 ^ power` downwards, at most `steps` of them. -/
def search (i : Interval) : Nat → Int → Nat × Int
  | 0, power => (i.value, power)
  | steps + 1, power =>
      match i.nearest? power with
      | some digits => (digits, power)
      | none => i.search steps (power - 1)

/-- Number of decimal digits. -/
def digitCount (n : Nat) : Nat :=
  (Nat.toDigits 10 n).length

/-- The decimal `digits · 10 ^ power` of the coarsest grid that meets the
    interval. The value itself lies on the grid of `1 / unit`, because the unit is
    a power of two, so the search ends there at the latest. -/
def shortest (i : Interval) : Nat × Int :=
  let start := digitCount (i.high / i.unit)
  i.search (start + Nat.log2 i.unit + 1) start

end Interval

/-! ## Text -/

/-- The positional text of `digits · 10 ^ power`. -/
def positional (digits : Nat) (power : Int) : String :=
  let text := Nat.toDigits 10 digits
  let places := (-power).toNat
  if places = 0 then String.ofList (text ++ List.replicate power.toNat '0')
  else
    let text := List.replicate (places + 1 - text.length) '0' ++ text
    let whole := text.length - places
    String.ofList (text.take whole ++ '.' :: text.drop whole)

/-- The text of the float with the given bit pattern. -/
def Format.render (f : Format) (bits : Nat) : String :=
  let signed (negative : Bool) (text : String) := if negative then "-" ++ text else text
  match f.decode bits with
  | .nan => "NaN"
  | .infinite negative => signed negative "inf"
  | .finite negative 0 _ _ => signed negative "0"
  | .finite negative mantissa exponent narrow =>
      let (digits, power) := (Interval.around mantissa exponent narrow).shortest
      signed negative (positional digits power)

end Linkage.Decimal
