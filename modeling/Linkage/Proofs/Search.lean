import Linkage.Lookup

/-! # What searches find

    A search that is directed by a reference kind finds a declared member, and the
    member is static exactly if the kind asks for a static one. -/

namespace Linkage

variable {t : ClassTable} {c : Class} {caller : Option Class} {name : String}

/-! ## Methods -/

theorem LookupOptions.missing_ne_some {α : Type} (options : LookupOptions) (e : LinkError)
    (a : α) : options.missing e ≠ .ok (some a) := by
  unfold LookupOptions.missing
  split <;> simp

theorem ClassTable.checkMethod_found {options : LookupOptions} {r r' : MethodRef}
    (h : t.checkMethod name caller options r' = .ok (some r)) :
    r' = r ∧ ∃ m, t.method? r = some m ∧ m.isStatic = options.static := by
  unfold ClassTable.checkMethod at h
  split at h
  · rename_i declaring m hc hm
    split at h
    · cases h
    · rename_i hstatic
      -- What is left is the access check, which passes the reference on or refuses it.
      have hr : r' = r := by
        split at h
        · split at h
          · simpa using h
          · exact absurd h (options.missing_ne_some _ r)
        · simpa using h
      subst hr
      exact ⟨rfl, m, hm, by simpa using Eq.symm (by simpa using hstatic)⟩
  · cases h

theorem ClassTable.lookupMethod_found {signature : Option String} {options : LookupOptions}
    {r : MethodRef} (h : t.lookupMethod c name signature caller options = .ok (some r)) :
    ∃ m, t.method? r = some m ∧ m.isStatic = options.static := by
  unfold ClassTable.lookupMethod at h
  split at h
  · cases h
  split at h
  · cases h
  split at h
  · cases h
  · exact absurd h (options.missing_ne_some _ r)
  · exact (ClassTable.checkMethod_found h).2

/-- Only a reference for a static call asks for a static method. -/
theorem LookupOptions.ofReference_static (c : Class) (kind : ReferenceKind) (speculative : Bool) :
    (LookupOptions.ofReference c kind speculative).static = true ↔ kind = .invokeStatic := by
  cases kind <;> simp [LookupOptions.ofReference]

/-- The method of a reference is static exactly if the reference is for a static
    call. -/
theorem ClassTable.linkMethod_found {signature : String} {kind : ReferenceKind}
    {speculative : Bool} {r : MethodRef}
    (h : t.linkMethod c name signature kind caller speculative = .ok (some r)) :
    ∃ m, t.method? r = some m ∧ (kind = .invokeStatic ↔ m.isStatic = true) := by
  unfold ClassTable.linkMethod at h
  have hstatic := LookupOptions.ofReference_static c kind speculative
  split at h
  · obtain ⟨m, hm, hs⟩ := ClassTable.lookupMethod_found h
    exact ⟨m, hm, by rw [hs]; exact hstatic.symm⟩
  · obtain ⟨m, hm, hs⟩ := ClassTable.lookupMethod_found h
    exact ⟨m, hm, by rw [hs]; exact hstatic.symm⟩

/-! ## Fields -/

theorem ClassTable.checkField_found {options : LookupOptions} {wantStatic : Bool}
    {r r' : FieldRef} (h : t.checkField name caller options wantStatic r' = .ok (some r)) :
    r' = r ∧ ∃ f, t.field? r = some f ∧ f.isStatic = wantStatic := by
  unfold ClassTable.checkField at h
  split at h
  · rename_i declaring f hc hf
    split at h
    · exact absurd h (options.missing_ne_some _ r)
    · rename_i hstatic
      -- What is left is the access check, which passes the reference on or refuses it.
      have hr : r' = r := by
        split at h
        · split at h
          · simpa using h
          · exact absurd h (options.missing_ne_some _ r)
        · simpa using h
      subst hr
      exact ⟨rfl, f, hf, by simpa using hstatic⟩
  · cases h

theorem ClassTable.lookupField_found {signature : Option String} {options : LookupOptions}
    {wantStatic : Bool} {r : FieldRef}
    (h : t.lookupField c name signature caller options wantStatic = .ok (some r)) :
    ∃ f, t.field? r = some f ∧ f.isStatic = wantStatic := by
  unfold ClassTable.lookupField at h
  split at h
  · exact absurd h (options.missing_ne_some _ r)
  · exact (ClassTable.checkField_found h).2

theorem ReferenceKind.forField_isStaticField (kind : ReferenceKind) (isStatic : Bool) :
    (kind.forField isStatic).isStaticField = isStatic := by
  cases kind <;> cases isStatic <;> rfl

theorem ReferenceKind.forField_isField (kind : ReferenceKind) (isStatic : Bool) :
    (kind.forField isStatic).isField = true := by
  cases kind <;> cases isStatic <;> rfl

/-- The kind that a field reference gets fits the field that is found. -/
theorem ClassTable.linkField_found {signature : String} {kind kind' : ReferenceKind}
    {speculative : Bool} {r : FieldRef}
    (h : t.linkField c name signature kind caller speculative = .ok (some (r, kind'))) :
    ∃ f, t.field? r = some f ∧ kind' = kind.forField f.isStatic := by
  unfold ClassTable.linkField at h
  dsimp only at h
  -- Whichever of the two searches succeeds, the field is as it asked for.
  split at h
  · rename_i f hfound
    simp only [Except.ok.injEq, Option.some.injEq, Prod.mk.injEq] at h
    obtain ⟨rfl, rfl⟩ := h
    obtain ⟨field, hf, hs⟩ := ClassTable.lookupField_found hfound
    exact ⟨field, hf, by rw [hs]⟩
  · split at h
    · rename_i f hfound
      simp only [Except.ok.injEq, Option.some.injEq, Prod.mk.injEq] at h
      obtain ⟨rfl, rfl⟩ := h
      obtain ⟨field, hf, hs⟩ := ClassTable.lookupField_found hfound
      exact ⟨field, hf, by rw [hs]⟩
    · cases h
    · cases h

end Linkage
