import Linkage.Proofs.Descriptors
import Linkage.Proofs.LoadingEnds

/-! # The grammar of descriptors

    Which types a descriptor can name is said without a reader: by the number of array
    dimensions and by the type at the bottom of the array. The readers accept exactly the
    words that such types spell, so a descriptor and its text determine each other.

    * `TypeDescriptor.IsFieldType`, `TypeDescriptor.IsReturnType`,
      `MethodDescriptor.IsMethodType`: the grammar.
    * `MethodDescriptor.readParameters_append`: a parameter list is read back in front of
      anything that is no type. -/

namespace Linkage

namespace TypeDescriptor

/-- The types of fields and parameters. -/
structure IsFieldType (t : TypeDescriptor) : Prop where
  dimensions : t.dimensions ≤ 255
  notVoid : t.element ≠ .primitive .void
  named : ∀ name, t.element = .object name →
    name ≠ "" ∧ ∀ c ∈ name.toList, c ≠ ';' ∧ c ≠ ')'

/-- The types of results: there may be none. -/
def IsReturnType (t : TypeDescriptor) : Prop :=
  t = .primitive .void ∨ t.IsFieldType

variable {t : TypeDescriptor} {depth : Nat}

theorem endsName_eq_false_iff {c : Char} : endsName c = false ↔ c ≠ ';' ∧ c ≠ ')' := by
  simp [endsName]

/-- The reader counts the dimensions on the way to the element, and looks at the element
    as it would outside an array. -/
theorem readable_iff (hdepth : depth ≤ 255) :
    t.Readable false depth ↔ depth + t.dimensions ≤ 255 ∧ t.element.Readable false 0 := by
  induction t generalizing depth with
  | primitive p => simp [Readable, TypeDescriptor.dimensions, element, hdepth]
  | object name => simp [Readable, TypeDescriptor.dimensions, element, hdepth]
  | array component ih =>
    have hcount : (array component).dimensions = component.dimensions + 1 := rfl
    have helement : (array component).element = component.element := rfl
    have hreadable : (array component).Readable false depth ↔
        depth ≠ 255 ∧ component.Readable false (depth + 1) := Iff.rfl
    rw [hreadable, hcount, helement]
    constructor
    · -- One dimension is counted here and the others inside.
      rintro ⟨hne, hcomponent⟩
      obtain ⟨hle, hrest⟩ := (ih (by omega)).mp hcomponent
      exact ⟨by omega, hrest⟩
    · rintro ⟨hle, hrest⟩
      exact ⟨by omega, (ih (by omega)).mpr ⟨by omega, hrest⟩⟩

theorem readable_element_iff :
    t.element.Readable false 0 ↔ t.element ≠ .primitive .void ∧
      ∀ name, t.element = .object name → name ≠ "" ∧ ∀ c ∈ name.toList, c ≠ ';' ∧ c ≠ ')' := by
  induction t with
  | primitive p => simp [Readable, element]
  | object name => simp [Readable, element, endsName_eq_false_iff]
  | array component ih => exact ih

theorem readable_false_iff : t.Readable false 0 ↔ t.IsFieldType := by
  rw [readable_iff (Nat.zero_le _), Nat.zero_add, readable_element_iff]
  constructor
  · rintro ⟨hdimensions, hvoid, hnamed⟩
    exact ⟨hdimensions, hvoid, hnamed⟩
  · rintro ⟨hdimensions, hvoid, hnamed⟩
    exact ⟨hdimensions, hvoid, hnamed⟩

/-- Only the reader of a whole result accepts `void`, since the components of an array are
    read as fields are. -/
theorem readable_true_iff : t.Readable true 0 ↔ t.IsReturnType := by
  rw [IsReturnType, ← readable_false_iff]
  constructor
  · intro h
    cases t with
    | primitive p =>
      by_cases hp : p = .void
      · exact Or.inl (by rw [hp])
      · exact Or.inr (fun hvoid => absurd hvoid hp)
    | object name => exact Or.inr h
    | array component => exact Or.inr h
  · rintro (rfl | h)
    · exact fun _ => rfl
    · exact h.allow_void

theorem chars_ne_nil (t : TypeDescriptor) : t.chars ≠ [] := by
  cases t <;> simp [chars]

end TypeDescriptor

namespace MethodDescriptor

open TypeDescriptor (read?)

/-- The parameters are types of fields, and the result is the type of a result. -/
structure IsMethodType (d : MethodDescriptor) : Prop where
  parameters : ∀ t ∈ d.parameters, t.IsFieldType
  result : d.result.IsReturnType

/-- Parameters that have been written are read, if what follows them is no type. -/
theorem readParameters_append {ts : List TypeDescriptor} {limit : Nat} {rest : List Char}
    (hts : ∀ t ∈ ts, t.Readable false 0) (hrest : read? false 0 rest = none)
    (hlimit : ts.length ≤ limit) :
    readParameters limit (ts.flatMap TypeDescriptor.chars ++ rest) = (ts, rest) := by
  induction ts generalizing limit with
  | nil =>
    cases limit with
    | zero => rfl
    -- The reader stops at the first text that is no type.
    | succ limit => simp [readParameters, hrest]
  | cons t ts ih =>
    cases limit with
    | zero => simp at hlimit
    | succ limit =>
      have hfirst := TypeDescriptor.read?_append (hts t List.mem_cons_self)
        (ts.flatMap TypeDescriptor.chars ++ rest)
      have hothers := ih (fun t' ht' => hts t' (List.mem_cons_of_mem t ht'))
        (Nat.le_of_succ_le_succ hlimit)
      rw [List.flatMap_cons, List.append_assoc, readParameters, hfirst]
      simp [hothers]

/-- Each type is written with one character at least. -/
theorem length_le_flatMap_chars (ts : List TypeDescriptor) :
    ts.length ≤ (ts.flatMap TypeDescriptor.chars).length := by
  induction ts with
  | nil => exact Nat.le_refl _
  | cons t ts ih =>
    have hchars := List.length_pos_iff.mpr t.chars_ne_nil
    rw [List.flatMap_cons, List.length_append, List.length_cons]
    omega

/-- What has been written is read. -/
theorem parse?_render {d : MethodDescriptor} (hparameters : ∀ t ∈ d.parameters, t.Readable false 0)
    (hresult : d.result.Readable true 0) : parse? d.render = some d := by
  have htext : d.render.toList =
      '(' :: (d.parameters.flatMap TypeDescriptor.chars ++ ')' :: d.result.chars) := by
    simp [render, chars]
  have hlimit : d.parameters.length ≤
      (d.parameters.flatMap TypeDescriptor.chars ++ ')' :: d.result.chars).length := by
    rw [List.length_append]
    exact (length_le_flatMap_chars d.parameters).trans (Nat.le_add_right _ _)
  -- The closing bracket is no type, so the parameters end there.
  have hbracket : TypeDescriptor.read? false 0 (')' :: d.result.chars) = none := rfl
  have hparse := readParameters_append hparameters hbracket hlimit
  have hback := TypeDescriptor.read?_append hresult []
  rw [List.append_nil] at hback
  unfold parse?
  rw [htext]
  simp only [hparse, hback, TypeDescriptor.complete?, Option.map_some]

theorem parse?_eq_some_iff {s : String} {d : MethodDescriptor} :
    parse? s = some d ↔ d.render = s ∧ d.IsMethodType := by
  constructor
  · intro h
    obtain ⟨hrender, hparameters, hresult⟩ := render_of_parse? h
    exact ⟨hrender, fun t ht => TypeDescriptor.readable_false_iff.mp (hparameters t ht),
      TypeDescriptor.readable_true_iff.mp hresult⟩
  · rintro ⟨rfl, hparameters, hresult⟩
    exact parse?_render (fun t ht => TypeDescriptor.readable_false_iff.mpr (hparameters t ht))
      (TypeDescriptor.readable_true_iff.mpr hresult)

end MethodDescriptor

/-- The readers of descriptors accept exactly the words of the grammar, and give the type
    that is written so. Two types have one text only if they are equal; two method
    descriptors that have been read were read from one text only if they are equal. -/
theorem descriptors_read_iff_written :
    (∀ (s : String) (t : TypeDescriptor),
      TypeDescriptor.parse? s = some t ↔ t.render = s ∧ t.IsFieldType) ∧
    (∀ (s : String) (t : TypeDescriptor),
      TypeDescriptor.parseReturn? s = some t ↔ t.render = s ∧ t.IsReturnType) ∧
    (∀ (s : String) (d : MethodDescriptor),
      MethodDescriptor.parse? s = some d ↔ d.render = s ∧ d.IsMethodType) ∧
    (∀ t t' : TypeDescriptor, t.render = t'.render ↔ t = t') ∧
    ∀ (s s' : String) (d d' : MethodDescriptor), MethodDescriptor.parse? s = some d →
      MethodDescriptor.parse? s' = some d' →
        (d.render = d'.render ↔ d = d') ∧ (s = s' ↔ d = d') := by
  refine ⟨?_, ?_, ?_, ?_, ?_⟩
  · intro s t
    rw [TypeDescriptor.parse?_eq_some_iff, TypeDescriptor.readable_false_iff]
  · intro s t
    rw [TypeDescriptor.parseReturn?_eq_some_iff, TypeDescriptor.readable_true_iff]
  · intro s d
    exact MethodDescriptor.parse?_eq_some_iff
  · intro t t'
    exact ⟨TypeDescriptor.render_injective, fun h => by rw [h]⟩
  · intro s s' d d' hd hd'
    have hrender := (MethodDescriptor.parse?_eq_some_iff.mp hd).1
    have hrender' := (MethodDescriptor.parse?_eq_some_iff.mp hd').1
    -- A text has one reading, and a descriptor one text.
    have htext : s = s' ↔ d = d' := by
      constructor
      · rintro rfl
        exact Option.some.inj (hd.symm.trans hd')
      · rintro rfl
        exact hrender.symm.trans hrender'
    exact ⟨by rw [hrender, hrender', htext], htext⟩

/-- Two method descriptors that are read, and differ in the result. -/
theorem descriptors_read_iff_written_sample :
    ∃ d d' : MethodDescriptor,
      MethodDescriptor.parse? "(I[[Ljava/lang/String;)V" = some d ∧
      MethodDescriptor.parse? "(I[[Ljava/lang/String;)[J" = some d' ∧
      (d.render = d'.render ↔ d = d') ∧
      ("(I[[Ljava/lang/String;)V" = "(I[[Ljava/lang/String;)[J" ↔ d = d') := by
  have hd : MethodDescriptor.parse? "(I[[Ljava/lang/String;)V" =
      some ⟨[.primitive .int, .array (.array (.object "java/lang/String"))], .primitive .void⟩ := by
    decide +kernel
  have hd' : MethodDescriptor.parse? "(I[[Ljava/lang/String;)[J" =
      some ⟨[.primitive .int, .array (.array (.object "java/lang/String"))],
        .array (.primitive .long)⟩ := by
    decide +kernel
  exact ⟨_, _, hd, hd', descriptors_read_iff_written.2.2.2.2 _ _ _ _ hd hd'⟩

/-- Without the condition on names, one text may stand for several method descriptors. -/
example :
    MethodDescriptor.render ⟨[.object "a;Lb"], .primitive .void⟩ =
      MethodDescriptor.render ⟨[.object "a", .object "b"], .primitive .void⟩ := by
  decide +kernel

end Linkage
