import Linkage.MemberFlags

/-! # The word of a member name's flags

    The parts of `MemberFlags` lie in different bits of the word, so each of them is
    read back as it was written. -/

namespace Linkage

theorem wordOf_ofWord {word : Nat} (h : word < 0x100000000) : wordOf (ofWord word) = word := by
  unfold wordOf ofWord
  rw [UInt32.toUInt32_toInt32]
  exact UInt32.toNat_ofNat_of_lt' h

namespace MemberFlags

/-- The bit of an optional kind. -/
def kindPart (kind : Option MemberKind) : Nat :=
  match kind with
  | some k => k.bit
  | none => 0

/-- The number of an optional reference kind. -/
def referencePart (kind : Option ReferenceKind) : Nat :=
  match kind with
  | some k => k.number
  | none => 0

/-- The bit of the mark for caller-sensitive methods. -/
def sensitivePart (callerSensitive : Bool) : Nat :=
  if callerSensitive then callerSensitiveBit else 0

/-- The word before it is made a signed number. -/
def word (f : MemberFlags) : Nat :=
  f.modifiers.toNat + kindPart f.kind + referencePart f.referenceKind * referenceKindUnit
    + sensitivePart f.callerSensitive

theorem encode_eq_ofWord (f : MemberFlags) : f.encode = ofWord f.word := by
  unfold encode word kindPart referencePart sensitivePart
  cases f.kind <;> cases f.referenceKind <;> simp

/-! ## Bounds of the parts -/

theorem kindPart_le (kind : Option MemberKind) : kindPart kind ≤ 0x00080000 := by
  cases kind with
  | none => decide
  | some k => cases k <;> decide

theorem dvd_kindPart (kind : Option MemberKind) : 0x10000 ∣ kindPart kind := by
  cases kind with
  | none => decide
  | some k => cases k <;> decide

theorem referencePart_le (kind : Option ReferenceKind) : referencePart kind ≤ 9 := by
  cases kind with
  | none => decide
  | some k => cases k <;> decide

theorem ofNumber?_referencePart (kind : Option ReferenceKind) :
    ReferenceKind.ofNumber? (referencePart kind) = kind := by
  cases kind with
  | none => rfl
  | some k => cases k <;> rfl

/-! ## Reading the parts -/

variable (f : MemberFlags)

theorem wordOf_encode : wordOf f.encode = f.word := by
  rw [encode_eq_ofWord]
  apply wordOf_ofWord
  have hm := f.modifiers.toNat_lt
  have hk := kindPart_le f.kind
  have hr := referencePart_le f.referenceKind
  unfold word referenceKindUnit sensitivePart callerSensitiveBit
  split <;> omega

theorem word_mod : f.word % 0x10000 = f.modifiers.toNat := by
  have hm := f.modifiers.toNat_lt
  obtain ⟨k, hk⟩ := dvd_kindPart f.kind
  unfold word referenceKindUnit sensitivePart callerSensitiveBit
  split <;> omega

theorem word_referenceKind : f.word / referenceKindUnit % 16 = referencePart f.referenceKind := by
  have hm := f.modifiers.toNat_lt
  have hk := kindPart_le f.kind
  have hr := referencePart_le f.referenceKind
  unfold word referenceKindUnit sensitivePart callerSensitiveBit
  split <;> omega

theorem word_callerSensitive : hasBit f.word callerSensitiveBit = f.callerSensitive := by
  have hm := f.modifiers.toNat_lt
  have hk := kindPart_le f.kind
  unfold hasBit word referenceKindUnit sensitivePart callerSensitiveBit
  cases hc : f.callerSensitive with
  | true => rw [beq_iff_eq, if_pos rfl]; omega
  | false => rw [beq_eq_false_iff_ne, if_neg (by decide)]; omega

theorem dvd_sensitivePart (callerSensitive : Bool) : 0x100000 ∣ sensitivePart callerSensitive := by
  cases callerSensitive <;> decide

/-- The bit of a kind is set for that kind only. -/
theorem word_hasBit (kind : MemberKind) :
    hasBit f.word kind.bit = (f.kind == some kind) := by
  have hm := f.modifiers.toNat_lt
  obtain ⟨s, hs⟩ := dvd_sensitivePart f.callerSensitive
  -- Modifiers are below the bit, the other parts are multiples of twice the bit.
  have hbit : f.word / kind.bit % 2 = if f.kind = some kind then 1 else 0 := by
    unfold word referenceKindUnit
    rw [hs]
    cases f.kind with
    | none =>
      cases kind <;> simp only [kindPart, MemberKind.bit, reduceCtorEq, if_false] <;> omega
    | some k =>
      cases k <;> cases kind <;>
        simp only [kindPart, MemberKind.bit, Option.some.injEq, reduceCtorEq, if_false, if_true] <;>
        omega
  unfold hasBit
  rw [hbit]
  by_cases hk : f.kind = some kind
  · rw [if_pos hk, hk, beq_self_eq_true, beq_self_eq_true]
  · rw [if_neg hk, beq_eq_false_iff_ne.mpr hk]
    rfl

theorem find_kind :
    MemberKind.all.find? (fun k => hasBit f.word k.bit) = f.kind := by
  simp only [word_hasBit]
  cases f.kind with
  | none => rfl
  | some k => cases k <;> rfl

/-- What is packed into a word is read from it. -/
theorem decode_encode : decode f.encode = f := by
  unfold decode
  simp only [wordOf_encode, find_kind, word_mod, word_referenceKind, word_callerSensitive,
    ofNumber?_referencePart]
  cases f
  simp

end MemberFlags

end Linkage
