import Linkage.Proofs.Startup

/-! # Speculative resolution

    The resolution of a member name that is asked for speculatively looks up the same
    members as the ordinary one, but where that one throws an error, a speculative
    lookup may find nothing. `Quieted` relates the outcomes of the two lookups, and
    `Link.Quieter` the runs of two actions built on them: they end in the same
    machine. What remains of the difference is the answer, and a resolution that does
    not find its member leaves the member name readable for the error message. -/

namespace Linkage

open Link

/-! ## Lookups -/

/-- The second outcome is the first one, unless that is an error: then it may be
    nothing. -/
def Quieted {α : Type} (x y : Except LinkError (Option α)) : Prop :=
  y = x ∨ (∃ e, x = .error e) ∧ y = .ok none

namespace Quieted

variable {α : Type}

theorem refl (x : Except LinkError (Option α)) : Quieted x x := Or.inl rfl

theorem missing (options : LookupOptions) (e : LinkError) :
    Quieted (LookupOptions.missing { options with quiet := false } e : Except _ (Option α))
      (LookupOptions.missing { options with quiet := true } e) :=
  Or.inr ⟨⟨e, rfl⟩, rfl⟩

theorem ite {p : Prop} [Decidable p] {x y x' y' : Except LinkError (Option α)}
    (h : Quieted x y) (h' : Quieted x' y') :
    Quieted (if p then x else x') (if p then y else y') := by
  by_cases hp : p
  · rw [if_pos hp, if_pos hp]
    exact h
  · rw [if_neg hp, if_neg hp]
    exact h'

end Quieted

/-- Quiet searches differ in nothing else. -/
theorem LookupOptions.ofReference_quiet (c : Class) (kind : ReferenceKind) (quiet : Bool) :
    LookupOptions.ofReference c kind quiet =
      { LookupOptions.ofReference c kind false with quiet } := by
  cases kind <;> rfl

namespace ClassTable

variable (t : ClassTable)

theorem quieted_checkMethod (name : String) (caller : Option Class) (options : LookupOptions)
    (r : MethodRef) :
    Quieted (t.checkMethod name caller { options with quiet := false } r)
      (t.checkMethod name caller { options with quiet := true } r) := by
  unfold checkMethod
  split
  · refine .ite (.refl _) ?_
    cases caller with
    | none => exact .refl _
    | some caller => exact .ite (.refl _) (.missing options _)
  · exact .refl _

theorem quieted_lookupMethod (c : Class) (name : String) (signature : Option String)
    (caller : Option Class) (options : LookupOptions) :
    Quieted (t.lookupMethod c name signature caller { options with quiet := false })
      (t.lookupMethod c name signature caller { options with quiet := true }) := by
  unfold lookupMethod
  refine .ite (.refl _) (.ite (.refl _) ?_)
  -- The search itself does not look at the option.
  have hsearch : ∀ quiet, t.searchMethod c name signature { options with quiet } =
      t.searchMethod c name signature options := fun _ => rfl
  rw [hsearch false, hsearch true]
  cases t.searchMethod c name signature options with
  | error e => exact .refl _
  | ok found =>
    cases found with
    | none => exact .missing options _
    | some r => exact t.quieted_checkMethod name caller options r

theorem quieted_linkMethod (c : Class) (name signature : String) (kind : ReferenceKind)
    (caller : Option Class) :
    Quieted (t.linkMethod c name signature kind caller false)
      (t.linkMethod c name signature kind caller true) := by
  unfold linkMethod
  rw [LookupOptions.ofReference_quiet c kind true, LookupOptions.ofReference_quiet c kind false]
  generalize LookupOptions.ofReference c kind false = options
  refine .ite ?_ ?_
  · exact t.quieted_lookupMethod c name none caller { options with partialSignature := true }
  · exact t.quieted_lookupMethod c name (some signature) caller options

theorem quieted_lookupField (c : Class) (name : String) (signature : Option String)
    (caller : Option Class) (options : LookupOptions) (wantStatic : Bool) :
    Quieted (t.lookupField c name signature caller { options with quiet := false } wantStatic)
      (t.lookupField c name signature caller { options with quiet := true } wantStatic) := by
  unfold lookupField
  cases t.searchField c name signature with
  | none => exact .missing options _
  | some r =>
    show Quieted (t.checkField name caller { options with quiet := false } wantStatic r)
      (t.checkField name caller { options with quiet := true } wantStatic r)
    unfold checkField
    split
    · -- Being quiet matters where the field is refused: as static or not, and for want of access.
      refine .ite (.missing options _) ?_
      cases caller with
      | none => exact .refl _
      | some caller => exact .ite (.refl _) (.missing options _)
    · exact .refl _

theorem quieted_linkField (c : Class) (name signature : String) (kind : ReferenceKind)
    (caller : Option Class) :
    Quieted (t.linkField c name signature kind caller false)
      (t.linkField c name signature kind caller true) := by
  have hinstance := t.quieted_lookupField c name (some signature) caller {} false
  have hstatic := t.quieted_lookupField c name (some signature) caller {} true
  unfold linkField
  dsimp only at hinstance hstatic ⊢
  -- Both look for a static field unless there is an instance field.
  rcases hinstance with hsame | ⟨⟨e, herror⟩, hnone⟩
  · rw [hsame]
    split
    · exact .refl _
    · rcases hstatic with hsame | ⟨⟨e, herror⟩, hnone⟩
      · rw [hsame]
        exact .refl _
      · rw [herror, hnone]
        exact Or.inr ⟨⟨e, rfl⟩, rfl⟩
  · rw [herror, hnone]
    dsimp only
    rcases hstatic with hsame | ⟨⟨e, herror⟩, hnone⟩
    · rw [hsame]
      exact .refl _
    · rw [herror, hnone]
      exact Or.inr ⟨⟨e, rfl⟩, rfl⟩

end ClassTable

/-! ## Actions -/

namespace Link

variable {α : Type} {x y : Link Bool} {m m' : Machine}

/-- From the machine `m`, both actions end in the same machine and with the same
    outcome, unless the first one throws an error: then the second one may deny. -/
def Quieter (x y : Link Bool) (m : Machine) : Prop :=
  (y m).2 = (x m).2 ∧
    ((y m).1 = (x m).1 ∨ (∃ e, (x m).1 = .error (.thrown e)) ∧ (y m).1 = .ok false)

theorem Quieter.refl (x : Link Bool) (m : Machine) : Quieter x x m := ⟨rfl, Or.inl rfl⟩

/-- Two actions that begin alike. -/
theorem Quieter.bind {z : Link α} {f g : α → Link Bool}
    (h : ∀ a m', z m = (.ok a, m') → Quieter (f a) (g a) m') :
    Quieter (z >>= f) (z >>= g) m := by
  unfold Quieter
  rw [bind_run z f, bind_run z g]
  cases hz : z m with
  | mk result m' =>
    cases result with
    | error e => exact ⟨rfl, Or.inl rfl⟩
    | ok a => exact h a m' hz

/-- Two actions that begin with two lookups, go on alike with what is found and deny
    when nothing is. -/
theorem Quieter.ofExcept {r s : Except LinkError (Option α)} (h : Quieted r s)
    {f : Option α → Link Bool} (hf : f none = pure false) :
    Quieter (ofExcept r >>= f) (ofExcept s >>= f) m := by
  rcases h with rfl | ⟨⟨e, rfl⟩, rfl⟩
  · exact .refl _ _
  · have hdeny : (Link.ofExcept (.ok none) >>= f) m = (.ok false, m) := by
      rw [ofExcept_ok, bind_of_ok (pure_run none m), hf]
      rfl
    have hthrow : (Link.ofExcept (.error e) >>= f) m = (.error (.thrown e), m) := rfl
    unfold Quieter
    rw [hdeny, hthrow]
    exact ⟨rfl, Or.inr ⟨⟨e, rfl⟩, rfl⟩⟩

theorem quieter_resolveMethod (mn : Handle) (c : Class) (kind : MemberKind)
    (name signature : String) (referenceKind : ReferenceKind) (caller : Option Class) :
    Quieter (resolveMethod mn c kind name signature referenceKind caller false)
      (resolveMethod mn c kind name signature referenceKind caller true) m := by
  unfold resolveMethod
  by_cases hfits : kind.fits name = true
  · simp only [hfits, Bool.not_true, Bool.false_eq_true, if_false]
    refine .bind fun t _ _ => .ofExcept ?_ rfl
    exact t.quieted_linkMethod c name signature referenceKind caller
  · rw [Bool.not_eq_true] at hfits
    simp only [hfits, Bool.not_false, if_true]
    exact .refl _ _

theorem quieter_resolveField (mn : Handle) (c : Class) (name signature : String)
    (referenceKind : ReferenceKind) (caller : Option Class) :
    Quieter (resolveField mn c name signature referenceKind caller false)
      (resolveField mn c name signature referenceKind caller true) m := by
  unfold resolveField
  refine .bind fun t _ _ => .ofExcept ?_ rfl
  exact t.quieted_linkField c name signature referenceKind caller

theorem quieter_resolveMember (mn : Handle) (caller : Option Handle) :
    Quieter (resolveMember mn caller false) (resolveMember mn caller true) m := by
  unfold resolveMember
  refine .bind fun n m₁ _ => ?_
  by_cases htarget : (n.vmtarget != 0) = true
  · simp only [htarget, if_true]
    exact .refl _ _
  · simp only [htarget, Bool.false_eq_true, if_false]
    refine .bind fun referenceKind m₂ _ => ?_
    split
    · refine .bind fun found m₃ _ => ?_
      cases found with
      | none => exact .refl _ _
      | some c =>
        -- Everything read before the search is the same for both.
        refine .bind fun caller m₄ _ => .bind fun name m₅ _ => .bind fun signature m₆ _ => ?_
        split
        · exact quieter_resolveMethod mn c .method name signature referenceKind caller
        · exact quieter_resolveMethod mn c .constructor name signature referenceKind caller
        · exact quieter_resolveField mn c name signature referenceKind caller
        · exact .refl _ _
    · exact .refl _ _

end Link

/-! ## Member names that stay -/

variable {m m' : Machine} {mn : Handle}

/-- What linkage does by itself, without outside code, takes no member name away. -/
theorem Changes.memberName_stays (h : Changes (fun _ {_} _ => False) m m')
    (hw : m.heap.WellFormed) {n : MemberName} (hmn : m.heap.read mn = .ok (.memberName n)) :
    ∃ n', m'.heap.read mn = .ok (.memberName n') := by
  have hboth : m'.heap.WellFormed ∧ ∃ n', m'.object? mn = some (.memberName n') := by
    refine h.keeps (P := fun m => m.heap.WellFormed ∧
      ∃ n', m.object? mn = some (.memberName n')) ?_ ⟨hw, n, (read_eq_ok_iff hw).mp hmn⟩
    rintro m₁ m₂ hchange ⟨hw₁, n₁, hn₁⟩
    refine ⟨hchange.wellFormed hw₁, ?_⟩
    -- An effect at another handle leaves the member name alone.
    have hother : ∀ {handle object}, handle ≠ mn →
        m₂.object? = Function.update m₁.object? handle object →
        ∃ n', m₂.object? mn = some (.memberName n') := by
      intro handle object hne hobjects
      rw [hobjects, Function.update_of_ne (Ne.symm hne)]
      exact ⟨n₁, hn₁⟩
    cases hchange.effect hw₁ with
    | kept objects _ => exact ⟨n₁, by rw [objects]; exact hn₁⟩
    | stored free objects _ _ => exact hother (fun he => by simp [he, hn₁] at free) objects
    | defined _ free objects _ => exact hother (fun he => by simp [he, hn₁] at free) objects
    | @filled handle old new was _ objects _ =>
      by_cases he : handle = mn
      · exact ⟨new, by rw [objects, he, Function.update_self]⟩
      · exact hother he objects
    | @amended handle old new was ordinary objects _ =>
      refine hother (fun he => ?_) objects
      rw [he, hn₁, Option.some.injEq] at was
      rw [← was] at ordinary
      cases ordinary.1.2
    | changed _ allowed _ _ => exact allowed.elim
    | released allowed _ _ => exact allowed.elim
  obtain ⟨hw', n', hn'⟩ := hboth
  exact ⟨n', (read_eq_ok_iff hw').mpr hn'⟩

/-- After a resolution that denies, the member name can still be read. -/
theorem readMemberName_of_denied (hw : m.heap.WellFormed) {caller : Option Handle}
    {speculative : Bool} (h : resolveMember mn caller speculative m = (.ok false, m')) :
    ∃ n, readMemberName mn m' = (.ok n, m') := by
  have hchanges : Changes (fun _ {_} _ => False) m m' := by
    have hgoes : Goes (fun _ {_} _ => False) (resolveMember mn caller speculative) m
        (fun _ _ => True) := goes_resolveMember mn caller speculative
    have hmachine := hgoes.1
    rw [h] at hmachine
    exact hmachine
  -- The member name was read before anything else was done.
  unfold resolveMember at h
  obtain ⟨n, m₁, hn, -⟩ := bind_eq_ok_iff.mp h
  have hmn := (readMemberName_eq_ok_iff.mp hn).1
  obtain ⟨n', hn'⟩ := hchanges.memberName_stays hw hmn
  exact ⟨n', readMemberName_of_read hn'⟩

/-! ## Resolution -/

/-- What a speculative resolution answers, next to an ordinary one from the same
    machine. -/
inductive SpeculativeAnswer (mn : Handle) :
    Except Failure (Option Handle) → Except Failure (Option Handle) → Prop where
  | resolved : SpeculativeAnswer mn (.ok (some mn)) (.ok (some mn))
  | thrown (e : LinkError) : SpeculativeAnswer mn (.error (.thrown e)) (.ok none)
  /-- Failures that no error stands for are not turned into absence. -/
  | failed {failure : Failure} (notThrown : ∀ e, failure ≠ .thrown e) :
      SpeculativeAnswer mn (.error failure) (.error failure)

/-- From every reachable machine, speculative and ordinary resolution of a member name end
    in the same machine. The ordinary one answers with the member name or fails; the
    speculative one answers with the member name too, or with nothing where an error is
    thrown. -/
theorem speculative_agrees {rule : Discipline} (h : m.Reachable rule) (mn : Handle)
    (caller : Option Handle) :
    (resolveMemberName mn caller true m).2 = (resolveMemberName mn caller false m).2 ∧
      SpeculativeAnswer mn (resolveMemberName mn caller false m).1
        (resolveMemberName mn caller true m).1 := by
  have hquieter := quieter_resolveMember (m := m) mn caller
  unfold Quieter at hquieter
  cases hordinary : resolveMember mn caller false m with
  | mk outcome m₁ =>
    cases hspeculative : resolveMember mn caller true m with
    | mk outcome' m₂ =>
      rw [hordinary, hspeculative] at hquieter
      dsimp only at hquieter
      obtain ⟨rfl, hanswer⟩ := hquieter
      unfold resolveMemberName
      rw [bind_run, bind_run, attempt_run, attempt_run, hordinary, hspeculative]
      rcases hanswer with rfl | ⟨⟨e, rfl⟩, rfl⟩
      · cases outcome' with
        | error failure =>
          cases failure with
          | thrown e => exact ⟨rfl, .thrown e⟩
          | fault fault => exact ⟨rfl, .failed (fun _ he => by cases he)⟩
          | unknownClass id => exact ⟨rfl, .failed (fun _ he => by cases he)⟩
          | boundReached => exact ⟨rfl, .failed (fun _ he => by cases he)⟩
        | ok found =>
          cases found with
          | true => exact ⟨rfl, .resolved⟩
          | false =>
            -- The ordinary resolution reads the member name again, for its error.
            obtain ⟨n, hn⟩ := readMemberName_of_denied h.sound.heap hordinary
            simp only [Bool.false_eq_true, if_false, if_true]
            rw [bind_of_ok hn]
            exact ⟨rfl, .thrown _⟩
      · exact ⟨rfl, .thrown e⟩

theorem scale_speculative_agrees :
    ∃ m : Machine, m.Reachable (fun _ {_} _ => True) ∧
      (resolveMemberName ⟨38⟩ none true m).2 = (resolveMemberName ⟨38⟩ none false m).2 ∧
      SpeculativeAnswer ⟨38⟩ (resolveMemberName ⟨38⟩ none false m).1
        (resolveMemberName ⟨38⟩ none true m).1 := by
  have hafter : ∃ m, Machine.start Sample.env {} = .ok m ∧
      (Sample.after m).Reachable (fun _ {_} _ => True) ∧ Sample.Facts m :=
    Sample.reachable_after (fun _ => trivial) (fun _ _ _ => trivial)
  obtain ⟨m, _, hreachable, _⟩ := hafter
  exact ⟨_, hreachable, speculative_agrees hreachable ⟨38⟩ none⟩

end Linkage
