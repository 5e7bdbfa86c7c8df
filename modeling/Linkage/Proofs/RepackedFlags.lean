import Mathlib.Data.Nat.Bitwise
import Linkage.Proofs.Flags

/-! # Repacking the flags of a member name

    A word of flags need not be the word of a record. It may have bits without a meaning, the bits of
    several kinds, or a number that no reference kind has. Unpacking drops these and nothing else:

    * `encode_eq_or`: the word of a record is the union of the bits of its parts.
    * `encode_decode`: a word that is unpacked and packed again keeps its bits in `readBits`.
    * `encode_decode_eq_and_definedBits_iff`: it keeps every bit with a meaning exactly if it has
      at most one kind and the number of a reference kind or zero.

    Words are compared as signed numbers, with the bit operations of `Int32`. -/

namespace Linkage

/-! ## Signed words and their bits -/

theorem ofWord_wordOf (flags : Int32) : ofWord (wordOf flags) = flags := by
  unfold ofWord wordOf
  rw [UInt32.ofNat_toNat, Int32.toInt32_toUInt32]

theorem ofWord_or (a b : Nat) : ofWord (a ||| b) = ofWord a ||| ofWord b := by
  unfold ofWord
  rw [UInt32.ofNat_or, UInt32.toInt32_or]

theorem and_ofWord (flags : Int32) (mask : Nat) :
    flags &&& ofWord mask = ofWord (wordOf flags &&& mask) := by
  conv_lhs => rw [← ofWord_wordOf flags]
  unfold ofWord
  rw [UInt32.ofNat_and, UInt32.toInt32_and]

theorem and_or_distrib (a b c : Int32) : a &&& (b ||| c) = a &&& b ||| a &&& c := by
  apply Int32.toBitVec_inj.mp
  simp only [Int32.toBitVec_and, Int32.toBitVec_or]
  exact BitVec.and_or_distrib_left

theorem hasBit_two_pow (word i : Nat) : hasBit word (2 ^ i) = word.testBit i := by
  rw [Nat.testBit_eq_decide_div_mod_eq]
  rfl

/-- Cut down to a single bit, a word is that bit or zero. -/
theorem and_ofWord_two_pow (flags : Int32) (i : Nat) :
    flags &&& ofWord (2 ^ i) = if hasBit (wordOf flags) (2 ^ i) then ofWord (2 ^ i) else 0 := by
  rw [and_ofWord, Nat.and_two_pow, hasBit_two_pow]
  cases (wordOf flags).testBit i with
  | true => simp
  | false => simp [ofWord]

/-- Cut down to the `n` places from the `i`-th on, a word is the number there, moved up again. -/
theorem and_places (word i n : Nat) :
    word &&& (2 ^ n - 1) * 2 ^ i = word / 2 ^ i % 2 ^ n * 2 ^ i := by
  apply Nat.eq_of_testBit_eq
  intro j
  rw [Nat.testBit_and, Nat.testBit_mul_two_pow, Nat.testBit_mul_two_pow,
    Nat.testBit_two_pow_sub_one, Nat.testBit_mod_two_pow, Nat.testBit_div_two_pow]
  by_cases h : i ≤ j
  · simp [h, Bool.and_comm]
  · simp [h]

theorem or_eq_add {i low high : Nat} (hlow : low < 2 ^ i) (hhigh : 2 ^ i ∣ high) :
    low ||| high = low + high := by
  obtain ⟨k, rfl⟩ := hhigh
  rw [Nat.or_comm, ← Nat.two_pow_add_eq_or_of_lt hlow, Nat.add_comm]

namespace MemberFlags

/-! ## The places of the parts -/

/-- The bits of the modifiers. -/
def modifierBits : Int32 := 0x0000FFFF

/-- The bits of several kinds. -/
def kindBits (kinds : List MemberKind) : Int32 :=
  kinds.foldr (fun kind bits => ofWord kind.bit ||| bits) 0

/-- The bit of the mark for caller-sensitive methods. -/
def markBits : Int32 := ofWord callerSensitiveBit

/-- The bits of the reference kind. -/
def referenceBits : Int32 := 0x0F000000

/-- The bits with a meaning. -/
def definedBits : Int32 :=
  modifierBits ||| kindBits MemberKind.all ||| markBits ||| referenceBits

example : definedBits = 0x0F1FFFFF := by decide

/-- The kinds whose bits are set in a word, in the order in which they are looked for. -/
def kindsIn (flags : Int32) : List MemberKind :=
  MemberKind.all.filter (fun kind => flags &&& ofWord kind.bit != 0)

/-- The number in the place of the reference kind. The shift repeats the sign, which the mask cuts
    off again. -/
def referenceNumber (flags : Int32) : Int32 :=
  flags >>> 24 &&& 0xF

/-- The bits that unpacking reads from a word: of several kinds the first one only, and no reference
    kind if the number is too large for one. -/
def readBits (flags : Int32) : Int32 :=
  modifierBits ||| kindBits ((kindsIn flags).take 1) ||| markBits
    ||| if referenceNumber flags ≤ 9 then referenceBits else 0

/-! ## Packing as a union -/

/-- Each part lies above the ones before it, so their sum is their union. -/
theorem word_eq_or (f : MemberFlags) :
    f.word = f.modifiers.toNat ||| kindPart f.kind ||| sensitivePart f.callerSensitive
      ||| referencePart f.referenceKind * referenceKindUnit := by
  have hm := f.modifiers.toNat_lt
  have hk := kindPart_le f.kind
  have hs : sensitivePart f.callerSensitive ≤ 0x100000 := by
    cases f.callerSensitive <;> decide
  have hr : 2 ^ 24 ∣ referencePart f.referenceKind * referenceKindUnit := Nat.dvd_mul_left _ _
  rw [or_eq_add (i := 16) hm (dvd_kindPart f.kind),
    or_eq_add (i := 20) (by omega) (dvd_sensitivePart f.callerSensitive),
    or_eq_add (i := 24) (by omega) hr]
  unfold word
  omega

theorem ofWord_kindPart (kind : Option MemberKind) :
    ofWord (kindPart kind) = kindBits kind.toList := by
  cases kind with
  | none => rfl
  | some k => exact Int32.or_zero.symm

/-- The word of a record is the union of the bits of its parts. -/
theorem encode_eq_or (f : MemberFlags) :
    f.encode = ofWord f.modifiers.toNat ||| kindBits f.kind.toList
      ||| ofWord (sensitivePart f.callerSensitive)
      ||| ofWord (referencePart f.referenceKind * referenceKindUnit) := by
  rw [encode_eq_ofWord, word_eq_or, ofWord_or, ofWord_or, ofWord_or, ofWord_kindPart]

/-! ## Kinds -/

theorem bit_eq_two_pow (kind : MemberKind) : ∃ i, kind.bit = 2 ^ i := by
  cases kind with
  | method => exact ⟨16, rfl⟩
  | constructor => exact ⟨17, rfl⟩
  | field => exact ⟨18, rfl⟩
  | type => exact ⟨19, rfl⟩

theorem ofWord_bit_ne_zero (kind : MemberKind) : ofWord kind.bit ≠ 0 := by
  cases kind <;> decide

theorem and_ofWord_bit (flags : Int32) (kind : MemberKind) :
    flags &&& ofWord kind.bit = if hasBit (wordOf flags) kind.bit then ofWord kind.bit else 0 := by
  obtain ⟨i, hi⟩ := bit_eq_two_pow kind
  rw [hi]
  exact and_ofWord_two_pow flags i

theorem hasBit_bit (flags : Int32) (kind : MemberKind) :
    hasBit (wordOf flags) kind.bit = (flags &&& ofWord kind.bit != 0) := by
  rw [and_ofWord_bit]
  cases hasBit (wordOf flags) kind.bit with
  | true => simp [ofWord_bit_ne_zero kind]
  | false => rfl

/-- The kind of a word is the first one whose bit is set. -/
theorem decode_kind (flags : Int32) : (decode flags).kind = (kindsIn flags).head? := by
  unfold kindsIn
  rw [List.head?_filter]
  simp only [← hasBit_bit]
  rfl

theorem kindBits_cons (kind : MemberKind) (kinds : List MemberKind) :
    kindBits (kind :: kinds) = ofWord kind.bit ||| kindBits kinds := rfl

/-- Of the bits of several kinds, a word has those of its own kinds. -/
theorem and_kindBits (flags : Int32) (kinds : List MemberKind) :
    flags &&& kindBits kinds =
      kindBits (kinds.filter (fun kind => flags &&& ofWord kind.bit != 0)) := by
  induction kinds with
  | nil => exact Int32.and_zero
  | cons kind kinds ih =>
    -- The bit of the first kind and the kind itself stay together or go together.
    rw [kindBits_cons, and_or_distrib, ih, List.filter_cons, ← hasBit_bit, and_ofWord_bit]
    cases hasBit (wordOf flags) kind.bit with
    | true => rfl
    | false => exact Int32.zero_or

theorem and_kindBits_of_subset {flags : Int32} {kinds : List MemberKind}
    (h : kinds ⊆ kindsIn flags) : flags &&& kindBits kinds = kindBits kinds := by
  rw [and_kindBits, List.filter_eq_self.mpr]
  intro kind hkind
  exact (List.mem_filter.mp (h hkind)).2

theorem kindsIn_encode (f : MemberFlags) : kindsIn f.encode = f.kind.toList := by
  unfold kindsIn
  simp only [← hasBit_bit, wordOf_encode, word_hasBit]
  cases f.kind with
  | none => rfl
  | some kind => cases kind <;> rfl

theorem kindsIn_and_definedBits (flags : Int32) :
    kindsIn (flags &&& definedBits) = kindsIn flags := by
  unfold kindsIn
  congr 1
  funext kind
  have hdefined : definedBits &&& ofWord kind.bit = ofWord kind.bit := by
    cases kind <;> decide
  rw [Int32.and_assoc, hdefined]

/-! ## Reference kinds -/

theorem toBitVec_referenceNumber (flags : Int32) :
    (referenceNumber flags).toBitVec =
      flags.toBitVec.sshiftRight 24 &&& BitVec.ofNat 32 (2 ^ 4 - 1) := by
  rw [referenceNumber, Int32.toBitVec_and, Int32.toBitVec_shiftRight]
  rfl

/-- For negative words too, the number is the one in the four places of the reference kind. -/
theorem referenceNumber_eq_ofWord (flags : Int32) :
    referenceNumber flags = ofWord (wordOf flags / 2 ^ 24 % 2 ^ 4) := by
  apply Int32.toBitVec_inj.mp
  apply BitVec.eq_of_getLsbD_eq
  intro i hi
  have hword : (ofWord (wordOf flags / 2 ^ 24 % 2 ^ 4)).toBitVec =
      BitVec.ofNat 32 (flags.toBitVec.toNat / 2 ^ 24 % 2 ^ 4) := rfl
  rw [toBitVec_referenceNumber, hword, BitVec.getLsbD_and, BitVec.getLsbD_sshiftRight,
    BitVec.getLsbD_ofNat, BitVec.getLsbD_ofNat, Nat.testBit_two_pow_sub_one,
    Nat.testBit_mod_two_pow, Nat.testBit_div_two_pow, BitVec.testBit_toNat, Nat.add_comm i 24]
  by_cases h : i < 4
  -- The four bits come from within the word; the copies of the sign begin above them.
  · have hplace : 24 + i < 32 := by omega
    simp [h, hplace, hi]
  · simp [h]

theorem referenceNumber_le_iff (flags : Int32) :
    referenceNumber flags ≤ 9 ↔ wordOf flags / referenceKindUnit % 16 ≤ 9 := by
  have hsmall : ∀ n < 16, ofWord n ≤ 9 ↔ n ≤ 9 := by decide
  rw [referenceNumber_eq_ofWord]
  exact hsmall _ (Nat.mod_lt _ (by decide))

theorem referenceNumber_encode_le (f : MemberFlags) : referenceNumber f.encode ≤ 9 := by
  rw [referenceNumber_le_iff, wordOf_encode, word_referenceKind]
  exact referencePart_le f.referenceKind

theorem referenceNumber_and_definedBits (flags : Int32) :
    referenceNumber (flags &&& definedBits) = referenceNumber flags := by
  have hdefined : definedBits.toBitVec.sshiftRight 24 = BitVec.ofNat 32 (2 ^ 4 - 1) := by decide
  apply Int32.toBitVec_inj.mp
  rw [toBitVec_referenceNumber, toBitVec_referenceNumber, Int32.toBitVec_and,
    BitVec.sshiftRight_and_distrib, hdefined, BitVec.and_assoc, BitVec.and_self]

/-- Numbers above those of the reference kinds stand for none. -/
theorem referencePart_ofNumber? (n : Nat) :
    referencePart (ReferenceKind.ofNumber? n) = if n ≤ 9 then n else 0 := by
  by_cases h : n ≤ 9
  · have hall : ∀ n ≤ 9, referencePart (ReferenceKind.ofNumber? n) = n := by decide
    rw [if_pos h, hall n h]
  · have hnone : ReferenceKind.ofNumber? n = none := by
      apply List.find?_eq_none.mpr
      intro kind _ hn
      have heq : kind.number = n := beq_iff_eq.mp hn
      exact h (heq ▸ referencePart_le (some kind))
    rw [if_neg h, hnone]
    rfl

/-! ## Repacking -/

variable (flags : Int32)

theorem repacked_modifiers :
    ofWord (decode flags).modifiers.toNat = flags &&& modifierBits := by
  have hmask : modifierBits = ofWord (2 ^ 16 - 1) := rfl
  have hmodifiers : (decode flags).modifiers.toNat = wordOf flags % 2 ^ 16 :=
    UInt16.toNat_ofNat_of_lt' (Nat.mod_lt _ (by decide))
  rw [hmodifiers, hmask, and_ofWord, Nat.and_two_pow_sub_one_eq_mod]

theorem repacked_kind :
    kindBits (decode flags).kind.toList = flags &&& kindBits ((kindsIn flags).take 1) := by
  rw [and_kindBits_of_subset (List.take_subset 1 _), decode_kind, List.take_one]

theorem repacked_mark :
    ofWord (sensitivePart (decode flags).callerSensitive) = flags &&& markBits := by
  have hmark : flags &&& markBits =
      if (decode flags).callerSensitive then ofWord callerSensitiveBit else 0 :=
    and_ofWord_two_pow flags 20
  rw [hmark]
  cases (decode flags).callerSensitive <;> rfl

theorem repacked_reference :
    ofWord (referencePart (decode flags).referenceKind * referenceKindUnit) =
      flags &&& if referenceNumber flags ≤ 9 then referenceBits else 0 := by
  have hmask : referenceBits = ofWord ((2 ^ 4 - 1) * 2 ^ 24) := rfl
  have hreference : referencePart (decode flags).referenceKind =
      if referenceNumber flags ≤ 9 then wordOf flags / 2 ^ 24 % 2 ^ 4 else 0 := by
    simp only [referenceNumber_le_iff]
    exact referencePart_ofNumber? _
  rw [hreference]
  split
  · rw [hmask, and_ofWord, and_places]
    rfl
  · rw [Nat.zero_mul, Int32.and_zero]
    rfl

/-- A word that is unpacked and packed again keeps the bits that unpacking reads. -/
theorem encode_decode : (decode flags).encode = flags &&& readBits flags := by
  rw [encode_eq_or, repacked_modifiers, repacked_kind, repacked_mark, repacked_reference, readBits,
    and_or_distrib, and_or_distrib, and_or_distrib]

-- Two kinds and a number without a reference kind: the first kind stays.
example : (decode (ofWord 0x1C0C0001)).encode = ofWord 0x00040001 := by decide

theorem encode_decode_and_not : (decode flags).encode &&& ~~~flags = 0 := by
  rw [encode_decode, Int32.and_comm flags, Int32.and_assoc, Int32.and_not_self, Int32.and_zero]

/-- With at most one kind, the first kind is all that a word has of the bits of kinds. -/
theorem and_readBits {flags : Int32} (hkinds : (kindsIn flags).length ≤ 1)
    (hreference : referenceNumber flags ≤ 9) : flags &&& readBits flags = flags &&& definedBits := by
  have hall : flags &&& kindBits (kindsIn flags) = flags &&& kindBits MemberKind.all := by
    rw [and_kindBits_of_subset (List.Subset.refl _), and_kindBits]
    rfl
  unfold readBits definedBits
  rw [List.take_of_length_le hkinds, if_pos hreference]
  simp only [and_or_distrib, hall]

/-- Repacking loses no bit with a meaning exactly if there is at most one kind and no number that is
    too large for a reference kind. -/
theorem encode_decode_eq_and_definedBits_iff :
    (decode flags).encode = flags &&& definedBits ↔
      (kindsIn flags).length ≤ 1 ∧ referenceNumber flags ≤ 9 := by
  constructor
  · intro h
    -- The kinds and the number of the word are those of a packed record.
    rw [← kindsIn_and_definedBits, ← referenceNumber_and_definedBits, ← h, kindsIn_encode]
    exact ⟨Option.length_toList_le, referenceNumber_encode_le _⟩
  · rintro ⟨hkinds, hreference⟩
    rw [encode_decode, and_readBits hkinds hreference]

/-- Packing loses nothing of a record. Repacking a word adds no bit to it and does not change what
    is unpacked from it, and it keeps every bit with a meaning exactly if the word has at most one
    kind and a number for the reference kind of at most 9. -/
theorem flags_round_trip :
    (∀ f : MemberFlags, decode f.encode = f) ∧
    ∀ flags : Int32,
      (decode flags).encode &&& ~~~flags = 0 ∧
      decode (decode flags).encode = decode flags ∧
      ((decode flags).encode = flags &&& definedBits ↔
        (kindsIn flags).length ≤ 1 ∧ referenceNumber flags ≤ 9) := by
  refine ⟨decode_encode, fun flags => ⟨encode_decode_and_not flags, ?_, ?_⟩⟩
  · exact decode_encode (decode flags)
  · exact encode_decode_eq_and_definedBits_iff flags

/-- A negative word with bits that have no meaning. -/
theorem negative_flags_repacked :
    ofWord 0x95F40011 < 0 ∧ (kindsIn (ofWord 0x95F40011)).length ≤ 1 ∧
      referenceNumber (ofWord 0x95F40011) ≤ 9 ∧
      (decode (ofWord 0x95F40011)).encode = ofWord 0x95F40011 &&& definedBits := by
  have hkinds : (kindsIn (ofWord 0x95F40011)).length ≤ 1 := by decide
  have hreference : referenceNumber (ofWord 0x95F40011) ≤ 9 := by decide
  have hlaws := flags_round_trip.2 (ofWord 0x95F40011)
  exact ⟨by decide, hkinds, hreference, hlaws.2.2.mpr ⟨hkinds, hreference⟩⟩

end MemberFlags

end Linkage
