import Linkage.Proofs.ClassTables

/-! # Interned strings

    The pool of strings gets an entry only when a text is interned that has none, and
    an entry is never changed. If outside code leaves the interned strings alone, then
    behind each handle of the pool there is the string with its text
    (`Machine.TextsInPlace`). -/

namespace Linkage

open Link

variable {rule : Discipline} {m m' : Machine} {text : String} {handle : Handle}

/-! ## The pool -/

/-- Interning finds the text, or there is no room for it, or it is stored and gets an
    entry. -/
theorem intern_run_cases (text : String) (m : Machine) :
    (∃ handle, m.strings.find? text = some handle ∧ intern text m = (.ok handle, m)) ∨
      (m.strings.find? text = none ∧ ∃ heap, m.heap.allocate (.string text) = (none, heap) ∧
        intern text m = (.error (.thrown .outOfMemory), { m with heap })) ∨
      (m.strings.find? text = none ∧ ∃ handle heap,
        m.heap.allocate (.string text) = (some handle, heap) ∧
        intern text m =
          (.ok handle, { m with strings := m.strings.insert text handle, heap })) := by
  unfold Link.intern StringPool.intern
  cases hfind : m.strings.find? text with
  | some handle => exact Or.inl ⟨handle, rfl, rfl⟩
  | none =>
    cases hheap : m.heap.allocate (.string text) with
    | mk stored heap =>
      cases stored with
      | none => exact Or.inr (Or.inl ⟨rfl, heap, rfl, rfl⟩)
      | some handle => exact Or.inr (Or.inr ⟨rfl, handle, heap, rfl, rfl⟩)

theorem StringPool.find?_insert (p : StringPool) (text other : String) (handle : Handle) :
    (p.insert text handle).find? other =
      if other = text then some handle else p.find? other := by
  unfold StringPool.insert StringPool.find?
  rw [List.lookup_cons]
  by_cases hother : other = text
  · simp [hother]
  · simp [hother, beq_eq_false_iff_ne.mpr hother]

/-- A text that has been interned has an entry from then on. -/
theorem find?_of_intern (h : intern text m = (.ok handle, m')) :
    m'.strings.find? text = some handle := by
  rcases intern_run_cases text m with ⟨_, hfind, hrun⟩ | ⟨_, _, _, hrun⟩ | ⟨_, _, _, _, hrun⟩
  · rw [h] at hrun
    cases hrun
    exact hfind
  · rw [h] at hrun
    cases hrun
  · rw [h] at hrun
    cases hrun
    simp [StringPool.find?_insert]

theorem intern_of_find? (h : m.strings.find? text = some handle) :
    intern text m = (.ok handle, m) := by
  rcases intern_run_cases text m with ⟨_, hfind, hrun⟩ | ⟨hnone, _⟩ | ⟨hnone, _⟩
  · rw [h, Option.some.injEq] at hfind
    rw [hrun, hfind]
  · rw [h] at hnone
    cases hnone
  · rw [h] at hnone
    cases hnone

/-- Only interning changes the pool. -/
theorem Change.strings_cases (h : Change rule m m') :
    m'.strings = m.strings ∨ ∃ text, m' = (Link.intern text m).2 := by
  cases h with
  | allocate object _ => exact Or.inl (by rw [allocate_run])
  | update handle f _ => exact Or.inl (by rw [update_machine])
  | release handle _ => exact Or.inl (by rw [release_run])
  | intern text => exact Or.inr ⟨text, rfl⟩
  | fill _ _ => exact Or.inl (by rw [update_machine])
  | setElements handle g _ => exact Or.inl (by rw [update_machine])
  | setDescriptor handle text => exact Or.inl (by rw [update_machine])
  | setTarget target _ => exact Or.inl (by rw [update_machine])
  | _ => exact Or.inl rfl

/-- An entry of the pool remains. -/
theorem Change.find?_strings (h : Change rule m m') (hfind : m.strings.find? text = some handle) :
    m'.strings.find? text = some handle := by
  rcases h.strings_cases with he | ⟨other, rfl⟩
  · rw [he]
    exact hfind
  · rcases intern_run_cases other m with ⟨_, _, hrun⟩ | ⟨_, _, _, hrun⟩ | ⟨hnone, _, _, _, hrun⟩
    · rw [hrun]
      exact hfind
    · rw [hrun]
      exact hfind
    · rw [hrun]
      -- A text is only entered if it was missing.
      have hne : text ≠ other := by
        intro he
        rw [he, hnone] at hfind
        cases hfind
      simpa [StringPool.find?_insert, hne] using hfind

theorem Changes.find?_strings (h : Changes rule m m')
    (hfind : m.strings.find? text = some handle) : m'.strings.find? text = some handle :=
  h.keeps (P := fun m => m.strings.find? text = some handle)
    (fun hchange hm => hchange.find?_strings hm) hfind

/-! ## The strings -/

/-- Outside code neither writes to interned strings nor gives them up. -/
def InternedKept : Discipline := fun m {_} op =>
  match op with
  | .update handle _ => ∀ text, m.strings.find? text ≠ some handle
  | .release handle => ∀ text, m.strings.find? text ≠ some handle
  | _ => True

/-- Behind the handles of the pool are the strings. -/
def Machine.TextsInPlace (m : Machine) : Prop :=
  ∀ text handle, m.strings.find? text = some handle → m.object? handle = some (.string text)

/-- A change that leaves interned strings alone does not touch them. -/
theorem Change.string_stays (h : Change InternedKept m m') (hw : m.heap.WellFormed)
    (hfind : m.strings.find? text = some handle)
    (hobject : m.object? handle = some (.string text)) :
    m'.object? handle = some (.string text) := by
  -- No change of another object matters, so it has to be shown that each one is another.
  have hother : ∀ {other : Handle} {object : Option Object}, other ≠ handle →
      m'.object? = Function.update m.object? other object →
      m'.object? handle = some (.string text) := by
    intro other object hne hobjects
    rw [hobjects, Function.update_of_ne (Ne.symm hne)]
    exact hobject
  cases h.effect hw with
  | kept objects _ => rw [objects]; exact hobject
  | stored free objects _ _ => exact hother (fun he => by simp [he, hobject] at free) objects
  | defined _ free objects _ => exact hother (fun he => by simp [he, hobject] at free) objects
  | filled was _ objects _ => exact hother (fun he => by simp [he, hobject] at was) objects
  | amended was _ objects _ noString =>
    refine hother (fun he => ?_) objects
    rw [he, hobject, Option.some.injEq] at was
    rw [← was] at noString
    cases noString
  | changed _ allowed objects _ =>
    exact hother (fun he => allowed text (by rw [hfind, he])) objects
  | released allowed objects _ =>
    exact hother (fun he => allowed text (by rw [hfind, he])) objects

/-- A new entry of the pool is one for a new string. -/
theorem Change.textsInPlace (h : Change InternedKept m m') (hw : m.heap.WellFormed)
    (hm : m.TextsInPlace) : m'.TextsInPlace := by
  intro text handle hfind
  rcases h.strings_cases with he | ⟨other, rfl⟩
  · rw [he] at hfind
    exact h.string_stays hw hfind (hm text handle hfind)
  · rcases intern_run_cases other m with ⟨_, _, hrun⟩ | ⟨_, _, _, hrun⟩ |
      ⟨_, stored, heap, hheap, hrun⟩
    · rw [hrun] at hfind ⊢
      exact hm text handle hfind
    · have hold : m.strings.find? text = some handle := by simpa [hrun] using hfind
      exact h.string_stays hw hold (hm text handle hold)
    · -- A new entry is for the text that was asked for; the other entries were there before.
      by_cases htext : text = other
      · subst htext
        rw [hrun] at hfind ⊢
        simp only [StringPool.find?_insert, if_true, Option.some.injEq] at hfind
        subst hfind
        show heap.view.objects stored = some (.string text)
        rw [(Heap.allocate_eq_some hw hheap).2, Function.update_self]
      · have hold : m.strings.find? text = some handle := by
          simpa [hrun, StringPool.find?_insert, htext] using hfind
        exact h.string_stays hw hold (hm text handle hold)

theorem Changes.textsInPlace (h : Changes InternedKept m m') (hw : m.heap.WellFormed)
    (hm : m.TextsInPlace) : m'.TextsInPlace := by
  have hboth := h.keeps (P := fun m => m.heap.WellFormed ∧ m.TextsInPlace)
    (fun hchange hm => ⟨hchange.wellFormed hm.1, hchange.textsInPlace hm.1 hm.2⟩) ⟨hw, hm⟩
  exact hboth.2

theorem Machine.Reachable.textsInPlace (h : m.Reachable InternedKept) : m.TextsInPlace := by
  obtain ⟨config, hchanges⟩ := h.changes
  refine hchanges.textsInPlace (Heap.wellFormed_empty config) ?_
  intro text handle hfind
  cases hfind

end Linkage
