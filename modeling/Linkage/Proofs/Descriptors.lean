import Mathlib.Data.List.TakeWhile
import Linkage.Descriptor

/-! # Reading descriptors

    A reader of types takes the characters of one type from the front and leaves the
    rest. Which types it takes depends on where it stands: inside an array there is no
    `void`, and arrays are not nested too deeply (`TypeDescriptor.Readable`).

    * `TypeDescriptor.read?_eq_some_iff`: reading undoes writing, and gives nothing else.
    * `TypeDescriptor.chars_injective`: a whole word is written for one type only.
    * `MethodDescriptor.render_of_parse?`: a method descriptor that is read is the one
      that its types spell. -/

namespace Linkage

/-! ## Types -/

theorem Primitive.ofLetter?_letter (p : Primitive) : Primitive.ofLetter? p.letter = some p := by
  cases p <;> rfl

theorem Primitive.letter_of_ofLetter? {c : Char} {p : Primitive}
    (h : Primitive.ofLetter? c = some p) : p.letter = c := by
  have hletter := List.find?_some h
  exact beq_iff_eq.mp hletter

theorem Primitive.letter_ne (p : Primitive) : p.letter ≠ '[' ∧ p.letter ≠ 'L' := by
  cases p <;> decide

namespace TypeDescriptor

/-- The type may be read inside `depth` array dimensions, where `void` is accepted or
    not. -/
def Readable (allowVoid : Bool) (depth : Nat) : TypeDescriptor → Prop
  | .primitive p => p = .void → allowVoid = true
  | .object name => name.toList ≠ [] ∧ ∀ c ∈ name.toList, endsName c = false
  | .array component => depth ≠ maxDimensions ∧ component.Readable false (depth + 1)

variable {allowVoid : Bool} {depth : Nat} {text rest : List Char} {t t' : TypeDescriptor}

/-- A parameter type may stand as a result. -/
theorem Readable.allow_void (h : t.Readable false depth) : t.Readable true depth := by
  cases t with
  | primitive p => exact fun _ => rfl
  | object name => exact h
  | array component => exact h

/-- What has been read was written in front of the rest. -/
theorem eq_append_of_read? (h : read? allowVoid depth text = some (t, rest)) :
    text = t.chars ++ rest ∧ t.Readable allowVoid depth := by
  induction text generalizing allowVoid depth t with
  | nil => cases h
  | cons c text ih =>
    unfold read? at h
    by_cases harray : c = '['
    · subst harray
      rw [if_pos rfl] at h
      by_cases hdepth : depth = maxDimensions
      · rw [if_pos hdepth] at h
        cases h
      · rw [if_neg hdepth] at h
        obtain ⟨⟨component, rest'⟩, hread, he⟩ := Option.map_eq_some_iff.mp h
        cases he
        obtain ⟨htext, hreadable⟩ := ih hread
        exact ⟨congrArg ('[' :: ·) htext, hdepth, hreadable⟩
    · rw [if_neg harray] at h
      by_cases hobject : c = 'L'
      · subst hobject
        rw [if_pos rfl] at h
        split at h
        · -- The name goes up to the semicolon.
          rename_i n name rest' htake hdrop
          cases h
          have hsplit := List.takeWhile_append_dropWhile (p := fun c => !endsName c) (l := text)
          rw [htake, hdrop] at hsplit
          refine ⟨?_, ?_, ?_⟩
          · simp [chars, ← hsplit]
          · simp
          · intro c hc
            rw [String.toList_ofList, ← htake] at hc
            simpa using List.mem_takeWhile_imp hc
        · cases h
      · rw [if_neg hobject] at h
        cases hletter : Primitive.ofLetter? c with
        | none =>
          rw [hletter] at h
          cases h
        | some p =>
          rw [hletter] at h
          have hc := Primitive.letter_of_ofLetter? hletter
          have hread : t = .primitive p ∧ text = rest ∧ (p = .void → allowVoid = true) := by
            cases p with
            | void => cases allowVoid <;> simp_all
            | _ => simp_all
          obtain ⟨rfl, rfl, hvoid⟩ := hread
          exact ⟨by simp [chars, hc], hvoid⟩

/-- What has been written is read. -/
theorem read?_append (h : t.Readable allowVoid depth) (rest : List Char) :
    read? allowVoid depth (t.chars ++ rest) = some (t, rest) := by
  induction t generalizing allowVoid depth with
  | primitive p =>
    have hshape := Primitive.letter_ne p
    show read? allowVoid depth (p.letter :: rest) = _
    unfold read?
    rw [if_neg hshape.1, if_neg hshape.2, Primitive.ofLetter?_letter]
    cases p with
    | void => simp [h rfl]
    | _ => rfl
  | object name =>
    obtain ⟨hne, hplain⟩ := h
    -- No character of the name ends it, so that reading stops right behind it.
    have hstop : ∀ c ∈ name.toList, (!endsName c) = true := fun c hc => by simp [hplain c hc]
    have htext : (object name).chars ++ rest = 'L' :: (name.toList ++ ';' :: rest) := by
      simp [chars]
    rw [htext]
    unfold read?
    rw [if_neg (by decide), if_pos rfl, List.takeWhile_append_of_pos hstop,
      List.dropWhile_append_of_pos hstop, List.takeWhile_cons_of_neg (by decide),
      List.dropWhile_cons_of_neg (by decide), List.append_nil]
    cases hname : name.toList with
    | nil => exact absurd hname hne
    | cons n tail =>
      have hback : String.ofList (n :: tail) = name := by rw [← hname, String.ofList_toList]
      simp [hback]
  | array component ih =>
    obtain ⟨hdepth, hcomponent⟩ := h
    show read? allowVoid depth ('[' :: (component.chars ++ rest)) = _
    unfold read?
    -- One dimension more, which the depth allows.
    rw [if_pos rfl, if_neg hdepth, ih hcomponent]
    rfl

/-- Reading undoes writing. -/
theorem read?_eq_some_iff : read? allowVoid depth text = some (t, rest) ↔
    text = t.chars ++ rest ∧ t.Readable allowVoid depth := by
  constructor
  · exact eq_append_of_read?
  · rintro ⟨rfl, hreadable⟩
    exact read?_append hreadable rest

theorem complete?_eq_some_iff {α : Type} {r : Option (α × List Char)} {a : α} :
    complete? r = some a ↔ r = some (a, []) := by
  unfold complete?
  split
  · simp
  · rename_i hne
    constructor
    · intro h
      cases h
    · intro h
      exact absurd h (hne a)

theorem render_eq_iff {s : String} : t.render = s ↔ s.toList = t.chars := by
  constructor
  · rintro rfl
    exact String.toList_ofList
  · intro h
    rw [render, ← h, String.ofList_toList]

theorem parse?_eq_some_iff {s : String} :
    parse? s = some t ↔ t.render = s ∧ t.Readable false 0 := by
  unfold parse?
  rw [complete?_eq_some_iff, read?_eq_some_iff, List.append_nil, render_eq_iff]

theorem parseReturn?_eq_some_iff {s : String} :
    parseReturn? s = some t ↔ t.render = s ∧ t.Readable true 0 := by
  unfold parseReturn?
  rw [complete?_eq_some_iff, read?_eq_some_iff, List.append_nil, render_eq_iff]

/-- The first character tells the kind of type, and the others what it is made of. -/
theorem chars_injective (h : t.chars = t'.chars) : t = t' := by
  induction t generalizing t' with
  | primitive p =>
    have hshape := Primitive.letter_ne p
    cases t' with
    | primitive q =>
      have hletter : p.letter = q.letter := by simpa [chars] using h
      -- Letters tell the primitive types apart.
      have hp := Primitive.ofLetter?_letter p
      rw [hletter, Primitive.ofLetter?_letter, Option.some.injEq] at hp
      rw [hp]
    | object name => exact absurd (List.cons.inj h).1 hshape.2
    | array component => exact absurd (List.cons.inj h).1 hshape.1
  | object name =>
    cases t' with
    | primitive q => exact absurd (List.cons.inj h).1.symm (Primitive.letter_ne q).2
    | object name' =>
      have hname : name.toList = name'.toList := by simpa [chars] using h
      rw [String.toList_injective hname]
    | array component => exact absurd (List.cons.inj h).1 (by decide)
  | array component ih =>
    cases t' with
    | primitive q => exact absurd (List.cons.inj h).1.symm (Primitive.letter_ne q).1
    | object name => exact absurd (List.cons.inj h).1 (by decide)
    | array component' => rw [ih (List.cons.inj h).2]

theorem render_injective (h : t.render = t'.render) : t = t' := by
  rw [render_eq_iff, render, String.toList_ofList] at h
  exact (chars_injective h).symm

end TypeDescriptor

/-! ## Methods -/

namespace MethodDescriptor

/-- Parameters that have been read were written in front of the rest. -/
theorem eq_append_of_readParameters {limit : Nat} {text rest : List Char}
    {ts : List TypeDescriptor} (h : readParameters limit text = (ts, rest)) :
    text = ts.flatMap TypeDescriptor.chars ++ rest ∧ ∀ t ∈ ts, t.Readable false 0 := by
  induction limit generalizing text ts with
  | zero =>
    cases h
    exact ⟨rfl, by simp⟩
  | succ limit ih =>
    unfold readParameters at h
    -- Reading goes on until no type can be read.
    cases hread : TypeDescriptor.read? false 0 text with
    | none =>
      rw [hread] at h
      cases h
      exact ⟨rfl, by simp⟩
    | some first =>
      obtain ⟨t, text'⟩ := first
      rw [hread] at h
      dsimp only at h
      cases hrest : readParameters limit text' with
      | mk ts' rest' =>
        rw [hrest] at h
        cases h
        obtain ⟨htext, hreadable⟩ := TypeDescriptor.read?_eq_some_iff.mp hread
        obtain ⟨htext', hreadable'⟩ := ih hrest
        refine ⟨?_, ?_⟩
        · rw [htext, htext', List.flatMap_cons, List.append_assoc]
        · intro t' ht'
          rcases List.mem_cons.mp ht' with rfl | ht'
          · exact hreadable
          · exact hreadable' t' ht'

/-- A method descriptor that is read is the one that its types spell. -/
theorem render_of_parse? {s : String} {d : MethodDescriptor} (h : parse? s = some d) :
    d.render = s ∧ (∀ t ∈ d.parameters, t.Readable false 0) ∧ d.result.Readable true 0 := by
  unfold parse? at h
  split at h
  · rename_i rest hs
    split at h
    · rename_i parameters rest' hparameters
      obtain ⟨result, hresult, rfl⟩ := Option.map_eq_some_iff.mp h
      rw [TypeDescriptor.complete?_eq_some_iff, TypeDescriptor.read?_eq_some_iff] at hresult
      obtain ⟨htext, hreadable⟩ := hresult
      obtain ⟨hrest, hall⟩ := eq_append_of_readParameters hparameters
      refine ⟨?_, hall, hreadable⟩
      -- The text is put together again from its parts.
      have hchars : s.toList = chars { parameters, result } := by
        rw [hs, hrest, htext]
        simp [chars]
      rw [render, ← hchars, String.ofList_toList]
    · cases h
  · cases h

end MethodDescriptor

end Linkage
