import Linkage.ClassFile.Encoding
import Linkage.Proofs.MemberQuestions

/-! # Access checks

    A search on behalf of a caller finds what a search without one finds, if that is
    accessible to the caller, and nothing otherwise. So the access check only filters:
    a resolution for a caller succeeds exactly where one without a caller resolves the
    member name to an accessible member, and then both end in the same machine. -/

namespace Linkage

open Link

/-! ## Searches -/

/-- The access flags of a declared member. -/
def ClassTable.access? (t : ClassTable) : MemberRef → Option Access
  | .field r => (t.field? r).map Field.access
  | .method r => (t.method? r).map Method.access

/-- Whether a declared member is static. -/
def ClassTable.isStatic? (t : ClassTable) : MemberRef → Option Bool
  | .field r => (t.field? r).map Field.isStatic
  | .method r => (t.method? r).map Method.isStatic

/-- The member is declared, and if there is a caller, then code of it has access to the
    member. -/
def ClassTable.Grants (t : ClassTable) (caller : Option Class) (member : MemberRef) : Prop :=
  ∃ declaring access, t.get? member.owner = some declaring ∧ t.access? member = some access ∧
    ∀ k, caller = some k → isAccessible declaring access k = true

namespace ClassTable

variable {t : ClassTable} {c k : Class} {caller : Option Class} {name signature : String}
  {options : LookupOptions}

theorem grants_iff {member : MemberRef} {declaring : Class} {access : Access}
    (hdeclaring : t.get? member.owner = some declaring) (haccess : t.access? member = some access) :
    t.Grants caller member ↔ ∀ k, caller = some k → isAccessible declaring access k = true := by
  simp [Grants, hdeclaring, haccess]

/-- What a check with a caller comes to. -/
theorem checked_eq_some_iff {α : Type} {r r' : α} (declaring : Class) (access : Access)
    (e : Class → LinkError) :
    (match caller with
      | some k => if isAccessible declaring access k then .ok (some r') else options.missing (e k)
      | none => .ok (some r')) = (.ok (some r) : Except LinkError (Option α)) ↔
      r' = r ∧ ∀ k, caller = some k → isAccessible declaring access k = true := by
  cases caller with
  | none => simp
  | some k =>
    dsimp only
    by_cases haccess : isAccessible declaring access k = true
    · simp [haccess]
    · simp [haccess, options.missing_ne_some]

theorem checkMethod_eq_some_iff {r r' : MethodRef} :
    t.checkMethod name caller options r' = .ok (some r) ↔
      r' = r ∧ (∃ method, t.method? r = some method ∧ method.isStatic = options.static) ∧
        t.Grants caller (.method r) := by
  unfold checkMethod
  split
  · rename_i declaring method hdeclaring hmethod
    -- The check of staticness comes first, and access is asked for only after it.
    by_cases hstatic : options.static = method.isStatic
    · simp only [hstatic, bne_self_eq_false, Bool.false_eq_true, if_false]
      refine (checked_eq_some_iff declaring method.access
        (fun k => .inaccessible k.name declaring.name name)).trans ?_
      constructor
      · rintro ⟨rfl, hallows⟩
        refine ⟨rfl, ⟨method, hmethod, rfl⟩, ?_⟩
        exact (grants_iff hdeclaring (by simp [access?, hmethod])).mpr hallows
      · rintro ⟨rfl, -, hgrants⟩
        exact ⟨rfl, (grants_iff hdeclaring (by simp [access?, hmethod])).mp hgrants⟩
    · have hmismatch : (options.static != method.isStatic) = true := by simpa using hstatic
      simp only [hmismatch, if_true, reduceCtorEq, false_iff]
      rintro ⟨rfl, ⟨method', hmethod', hstatic'⟩, -⟩
      rw [hmethod, Option.some.injEq] at hmethod'
      exact hstatic (hmethod' ▸ hstatic'.symm)
  · rename_i hmissing
    simp only [Except.ok.injEq, reduceCtorEq, false_iff]
    rintro ⟨rfl, ⟨method, hmethod, -⟩, ⟨declaring, _, hdeclaring, -⟩⟩
    exact hmissing declaring method hdeclaring hmethod

theorem checkField_eq_some_iff {wantStatic : Bool} {r r' : FieldRef} :
    t.checkField name caller options wantStatic r' = .ok (some r) ↔
      r' = r ∧ (∃ f, t.field? r = some f ∧ f.isStatic = wantStatic) ∧
        t.Grants caller (.field r) := by
  unfold checkField
  split
  · rename_i declaring f hdeclaring hf
    -- The check of staticness comes first, and access is asked for only after it.
    by_cases hstatic : f.isStatic = wantStatic
    · simp only [hstatic, bne_self_eq_false, Bool.false_eq_true, if_false]
      refine (checked_eq_some_iff declaring f.access
        (fun k => .inaccessible k.name declaring.name name)).trans ?_
      constructor
      · rintro ⟨rfl, hallows⟩
        refine ⟨rfl, ⟨f, hf, hstatic⟩, ?_⟩
        exact (grants_iff hdeclaring (by simp [access?, hf])).mpr hallows
      · rintro ⟨rfl, -, hgrants⟩
        exact ⟨rfl, (grants_iff hdeclaring (by simp [access?, hf])).mp hgrants⟩
    · have hmismatch : (f.isStatic != wantStatic) = true := by simpa using hstatic
      simp only [hmismatch, if_true, options.missing_ne_some, false_iff]
      rintro ⟨rfl, ⟨f', hf', hstatic'⟩, -⟩
      rw [hf, Option.some.injEq] at hf'
      exact hstatic (hf' ▸ hstatic')
  · rename_i hmissing
    simp only [Except.ok.injEq, reduceCtorEq, false_iff]
    rintro ⟨rfl, ⟨f, hf, -⟩, ⟨declaring, _, hdeclaring, -⟩⟩
    exact hmissing declaring f hdeclaring hf

/-- Without a caller, every declared member is granted. -/
theorem Grants.none {member : MemberRef} (h : t.Grants caller member) : t.Grants none member := by
  obtain ⟨declaring, access, hdeclaring, haccess, -⟩ := h
  exact ⟨declaring, access, hdeclaring, haccess, fun _ h => by cases h⟩

theorem lookupMethod_caller {signature : Option String} {r : MethodRef} :
    t.lookupMethod c name signature caller options = .ok (some r) ↔
      t.lookupMethod c name signature none options = .ok (some r) ∧
        t.Grants caller (.method r) := by
  unfold lookupMethod
  -- Up to the last check the caller plays no part.
  split
  · simp
  split
  · simp
  split
  · simp
  · simp [options.missing_ne_some]
  · rw [checkMethod_eq_some_iff, checkMethod_eq_some_iff]
    constructor
    · rintro ⟨hr, hstatic, hgrants⟩
      exact ⟨⟨hr, hstatic, hgrants.none⟩, hgrants⟩
    · rintro ⟨⟨hr, hstatic, -⟩, hgrants⟩
      exact ⟨hr, hstatic, hgrants⟩

theorem linkMethod_caller {kind : ReferenceKind} {speculative : Bool} {r : MethodRef} :
    t.linkMethod c name signature kind caller speculative = .ok (some r) ↔
      t.linkMethod c name signature kind none speculative = .ok (some r) ∧
        t.Grants caller (.method r) := by
  unfold linkMethod
  dsimp only
  split
  · exact lookupMethod_caller
  · exact lookupMethod_caller

theorem lookupField_eq_some_iff {signature : Option String} {wantStatic : Bool} {r : FieldRef} :
    t.lookupField c name signature caller options wantStatic = .ok (some r) ↔
      t.searchField c name signature = some r ∧
        (∃ f, t.field? r = some f ∧ f.isStatic = wantStatic) ∧ t.Grants caller (.field r) := by
  unfold lookupField
  split
  · rename_i hnone
    simp [hnone, options.missing_ne_some]
  · rename_i r' hsearch
    rw [checkField_eq_some_iff, hsearch, Option.some.injEq]

/-- A field reference leads where the search leads, whether the field is static or not. -/
theorem linkField_eq_some_iff {kind kind' : ReferenceKind} {speculative : Bool} {r : FieldRef} :
    t.linkField c name signature kind caller speculative = .ok (some (r, kind')) ↔
      t.searchField c name (some signature) = some r ∧
        (∃ f, t.field? r = some f ∧ kind' = kind.forField f.isStatic) ∧
        t.Grants caller (.field r) := by
  unfold linkField
  dsimp only
  split
  · rename_i r' hfound
    obtain ⟨hsearch, ⟨f, hf, hstatic⟩, hgrants⟩ := lookupField_eq_some_iff.mp hfound
    simp only [Except.ok.injEq, Option.some.injEq, Prod.mk.injEq, hsearch]
    constructor
    · rintro ⟨rfl, rfl⟩
      exact ⟨rfl, ⟨f, hf, by rw [hstatic]⟩, hgrants⟩
    · rintro ⟨rfl, ⟨f', hf', rfl⟩, -⟩
      rw [hf, Option.some.injEq] at hf'
      exact ⟨rfl, by rw [← hf', hstatic]⟩
  · rename_i hinstance
    -- The first search did not succeed, so the field is not an instance field.
    have hstatic : ∀ {f}, t.searchField c name (some signature) = some r → t.field? r = some f →
        t.Grants caller (.field r) → f.isStatic = true := by
      intro f hsearch hf hgrants
      by_contra hnot
      rw [Bool.not_eq_true] at hnot
      exact hinstance r (lookupField_eq_some_iff.mpr ⟨hsearch, ⟨f, hf, hnot⟩, hgrants⟩)
    constructor
    · intro h
      split at h
      · rename_i r' hfound
        simp only [Except.ok.injEq, Option.some.injEq, Prod.mk.injEq] at h
        obtain ⟨rfl, rfl⟩ := h
        obtain ⟨hsearch, ⟨f, hf, hstatic⟩, hgrants⟩ := lookupField_eq_some_iff.mp hfound
        exact ⟨hsearch, ⟨f, hf, by rw [hstatic]⟩, hgrants⟩
      · cases h
      · cases h
    · rintro ⟨hsearch, ⟨f, hf, rfl⟩, hgrants⟩
      have hfound : t.lookupField c name (some signature) caller { quiet := speculative } true =
          .ok (some r) :=
        lookupField_eq_some_iff.mpr ⟨hsearch, ⟨f, hf, hstatic hsearch hf hgrants⟩, hgrants⟩
      rw [hfound, hstatic hsearch hf hgrants]

theorem linkField_caller {kind : ReferenceKind} {speculative : Bool}
    {found : FieldRef × ReferenceKind} :
    t.linkField c name signature kind caller speculative = .ok (some found) ↔
      t.linkField c name signature kind none speculative = .ok (some found) ∧
        t.Grants caller (.field found.1) := by
  obtain ⟨r, kind'⟩ := found
  rw [linkField_eq_some_iff, linkField_eq_some_iff]
  constructor
  · rintro ⟨hsearch, hkind, hgrants⟩
    exact ⟨⟨hsearch, hkind, hgrants.none⟩, hgrants⟩
  · rintro ⟨⟨hsearch, hkind, -⟩, hgrants⟩
    exact ⟨hsearch, hkind, hgrants⟩

end ClassTable

/-! ## Actions -/

namespace Link

variable {α : Type} {P : Machine → Prop} {m : Machine}

/-- From the machine `m`, the second action confirms exactly if the first one does and
    `P` holds of the machine after it, and then it does the same. -/
def Filters (P : Machine → Prop) (x y : Link Bool) (m : Machine) : Prop :=
  ((y m).1 = .ok true ↔ (x m).1 = .ok true ∧ P (x m).2) ∧ ((y m).1 = .ok true → y m = x m)

theorem Filters.of_denied {x : Link Bool} (h : (x m).1 ≠ .ok true) : Filters P x x m := by
  simp [Filters, h]

/-- Two actions that begin alike. -/
theorem Filters.bind {z : Link α} {f g : α → Link Bool}
    (h : ∀ a m', z m = (.ok a, m') → Filters P (f a) (g a) m') :
    Filters P (z >>= f) (z >>= g) m := by
  unfold Filters
  rw [bind_run z f, bind_run z g]
  cases hz : z m with
  | mk result m' =>
    cases result with
    | error e => simp
    | ok a => exact h a m' hz

/-- Two actions that begin with a lookup, the second time restricted by `p`, go on alike
    with what is found and deny when nothing is. -/
theorem Filters.ofExcept {r s : Except LinkError (Option α)} {p : α → Prop}
    (hfilter : ∀ a, s = .ok (some a) ↔ r = .ok (some a) ∧ p a) {f : Option α → Link Bool}
    (hnone : f none = pure false)
    (hfound : ∀ a, r = .ok (some a) → (f (some a) m).1 = .ok true →
      (P (f (some a) m).2 ↔ p a)) :
    Filters P (ofExcept r >>= f) (ofExcept s >>= f) m := by
  -- What is not found is denied.
  have hdenied : ∀ s : Except LinkError (Option α), (∀ a, s ≠ .ok (some a)) →
      ((Link.ofExcept s >>= f) m).1 ≠ .ok true := by
    intro s hs
    match s with
    | .error e => exact fun h => by cases h
    | .ok none =>
      rw [ofExcept_ok, bind_of_ok (pure_run none m), hnone]
      simp
    | .ok (some a) => exact absurd rfl (hs a)
  have hrun : ∀ a, (Link.ofExcept (.ok (some a)) >>= f) m = f (some a) m := fun a =>
    bind_of_ok (pure_run (some a) m) f
  by_cases hs : ∃ a, s = .ok (some a)
  · obtain ⟨a, rfl⟩ := hs
    obtain ⟨rfl, hp⟩ := (hfilter a).mp rfl
    refine ⟨?_, fun _ => rfl⟩
    rw [hrun]
    exact ⟨fun h => ⟨h, (hfound a rfl h).mpr hp⟩, fun h => h.1⟩
  · rw [not_exists] at hs
    have hnot := hdenied s hs
    refine ⟨⟨fun h => absurd h hnot, ?_⟩, fun h => absurd h hnot⟩
    rintro ⟨hr, hP⟩
    -- Whatever the unrestricted lookup finds does not satisfy `p`.
    by_cases hr' : ∃ a, r = .ok (some a)
    · obtain ⟨a, rfl⟩ := hr'
      rw [hrun] at hr hP
      exact absurd ((hfilter a).mpr ⟨rfl, (hfound a rfl hr).mp hP⟩) (hs a)
    · exact absurd hr (hdenied r (not_exists.mp hr'))

end Link

/-! ## Resolution -/

/-- The member name is resolved to a member that the caller has access to. -/
def Machine.Grants (m : Machine) (caller : Class) (mn : Handle) : Prop :=
  ∃ n member, m.heap.read mn = .ok (.memberName n) ∧ m.members.get? n.vmindex = some member ∧
    m.classes.Grants (some caller) member

variable {m : Machine} {mn : Handle} {n : MemberName} {k : Class} {speculative : Bool}

/-- A member name that has been committed to a member stands for that member. -/
theorem grants_of_commitMember (hw : m.heap.WellFormed)
    (hmn : m.heap.read mn = .ok (.memberName n)) (flags : MemberFlags) (clazz : Handle)
    (member : MemberRef) (target : Nat) :
    ((commitMember mn flags clazz member target >>= fun _ => pure true) m).2.Grants k mn ↔
      m.classes.Grants (some k) member := by
  obtain ⟨heap, hrun, hread⟩ := commitMember_run hw hmn flags clazz member target
  rw [bind_of_ok hrun]
  have hidentity := MemberRegistry.get?_identify m.members member
  constructor
  · rintro ⟨n', member', hread', hmember', hgrants⟩
    have hsame := hread.symm.trans hread'
    simp only [Except.ok.injEq, Object.memberName.injEq] at hsame
    subst hsame
    have hmember := hidentity.symm.trans hmember'
    rw [Option.some.injEq] at hmember
    exact hmember ▸ hgrants
  · intro hgrants
    exact ⟨_, member, hread, hidentity, hgrants⟩

/-- The same after the class of the member and its declaration have been looked up. -/
theorem grants_of_found {δ : Type} (hw : m.heap.WellFormed)
    (hmn : m.heap.read mn = .ok (.memberName n)) {owner : ClassId} {declared : Class → Option δ}
    {e : LinkError} {flags : Class → δ → MemberFlags} {member : MemberRef} {target : δ → Nat}
    (h : ((do
      let declaring ← classAt owner
      let d ← orFail (declared declaring) e
      commitMember mn (flags declaring d) declaring.classObject member (target d)
      pure true : Link Bool) m).1 = .ok true) :
    ((do
      let declaring ← classAt owner
      let d ← orFail (declared declaring) e
      commitMember mn (flags declaring d) declaring.classObject member (target d)
      pure true : Link Bool) m).2.Grants k mn ↔ m.classes.Grants (some k) member := by
  obtain ⟨declaring, m₁, hdeclaring, h⟩ := bind_eq_ok_iff.mp (Prod.ext h rfl)
  have hgoes : Goes (fun _ {_} _ => True) (classAt owner) m _ := goes_classAt owner
  obtain ⟨rfl, -⟩ := hgoes.2 _ _ hdeclaring
  obtain ⟨d, m₂, hd, -⟩ := bind_eq_ok_iff.mp h
  obtain ⟨-, rfl⟩ := orFail_eq_ok_iff.mp hd
  rw [bind_of_ok hdeclaring, bind_of_ok hd]
  exact grants_of_commitMember hw hmn _ _ _ _

theorem filters_resolveMethod (hw : m.heap.WellFormed)
    (hmn : m.heap.read mn = .ok (.memberName n)) (c : Class) (kind : MemberKind)
    (name signature : String) (referenceKind : ReferenceKind) :
    Filters (Machine.Grants · k mn)
      (resolveMethod mn c kind name signature referenceKind none speculative)
      (resolveMethod mn c kind name signature referenceKind (some k) speculative) m := by
  unfold resolveMethod
  by_cases hfits : kind.fits name = true
  · simp only [hfits, Bool.not_true, Bool.false_eq_true, if_false]
    refine .bind fun t m₁ ht => ?_
    cases ht
    refine .ofExcept (fun r => ClassTable.linkMethod_caller) rfl ?_
    intro r _ hrun
    exact grants_of_found hw hmn hrun
  · rw [Bool.not_eq_true] at hfits
    simp only [hfits, Bool.not_false, if_true]
    exact .of_denied (by simp)

theorem filters_resolveField (hw : m.heap.WellFormed)
    (hmn : m.heap.read mn = .ok (.memberName n)) (c : Class) (name signature : String)
    (referenceKind : ReferenceKind) :
    Filters (Machine.Grants · k mn)
      (resolveField mn c name signature referenceKind none speculative)
      (resolveField mn c name signature referenceKind (some k) speculative) m := by
  unfold resolveField
  refine .bind fun t m₁ ht => ?_
  cases ht
  refine .ofExcept (fun found => ClassTable.linkField_caller) rfl ?_
  rintro ⟨r, kind⟩ _ hrun
  exact grants_of_found hw hmn hrun

theorem filters_answer (hw : m.heap.WellFormed) (hmn : m.heap.read mn = .ok (.memberName n))
    (q : MemberQuestion) :
    Filters (Machine.Grants · k mn) (q.answer mn none speculative)
      (q.answer mn (some k) speculative) m := by
  unfold MemberQuestion.answer
  split
  · exact filters_resolveMethod hw hmn _ _ _ _ _
  · exact filters_resolveMethod hw hmn _ _ _ _ _
  · exact filters_resolveField hw hmn _ _ _ _
  · exact .of_denied (by simp)

/-- A caller only filters what a resolution of an unresolved member name does. -/
theorem filters_resolveMember {caller : Handle} {id : ClassId} (hm : m.Sound)
    (hmn : m.heap.read mn = .ok (.memberName n)) (hunresolved : n.vmtarget = 0)
    (hcaller : m.heap.read caller = .ok (.classObject id)) (hk : m.classes.get? id = some k)
    (speculative : Bool) :
    Filters (Machine.Grants · k mn) (resolveMember mn none speculative)
      (resolveMember mn (some caller) speculative) m := by
  have hanswers : Filters (Machine.Grants · k mn) (n.ask mn none speculative)
      (n.ask mn (some k) speculative) m := by
    unfold MemberName.ask
    refine .bind fun found m₁ hquestion => ?_
    -- Reading the question leaves the member name where it is.
    have hchanges : Changes (fun _ {_} _ => False) m m₁ := (changing_question n).of_run hquestion
    obtain ⟨n₁, hn₁⟩ := hchanges.memberName_stays hm.heap hmn
    cases found with
    | none => exact .of_denied (by simp)
    | some q => exact filters_answer (hchanges.sound hm).heap hn₁ q
  have hnone : callerClass none m = (.ok none, m) := rfl
  unfold Filters at hanswers ⊢
  rw [resolveMember_eq hmn hunresolved (callerClass_of_read hcaller hk),
    resolveMember_eq hmn hunresolved hnone]
  exact hanswers

/-- A resolution ends with the member name exactly if it confirms that there is a member. -/
theorem resolveMemberName_eq_some_iff {caller : Option Handle} {answer : Handle} {m' : Machine} :
    resolveMemberName mn caller speculative m = (.ok (some answer), m') ↔
      answer = mn ∧ resolveMember mn caller speculative m = (.ok true, m') := by
  constructor
  · intro h
    obtain ⟨outcome, m₁, hattempt, h⟩ := bind_eq_ok_iff.mp h
    rw [attempt_run] at hattempt
    match outcome with
    -- Only a confirmed member is answered with the member name.
    | .ok true =>
      cases h
      refine ⟨rfl, ?_⟩
      split at hattempt
      · rename_i confirmed m₂ hrun
        rw [hrun]
        simpa using hattempt
      · simp at hattempt
      · simp at hattempt
    | .ok false =>
      cases speculative with
      | true => cases h
      | false =>
        obtain ⟨_, _, _, h⟩ := bind_eq_ok_iff.mp h
        cases h
    | .error e => cases speculative <;> cases h
  · rintro ⟨rfl, h⟩
    have hattempt : attempt (resolveMember answer caller speculative) m = (.ok (.ok true), m') := by
      rw [attempt_run, h]
    unfold resolveMemberName
    rw [bind_of_ok hattempt]
    rfl

/-- The access check is a filter. From every reachable machine, the resolution of an
    unresolved member name on behalf of a class succeeds exactly if the resolution without a
    caller succeeds and finds a member that the class has access to. If it succeeds, then it
    ends in the same machine, with the same member name. -/
theorem caller_only_filters {rule : Discipline} {caller : Handle} {id : ClassId}
    (h : m.Reachable rule) (hmn : m.heap.read mn = .ok (.memberName n))
    (hunresolved : n.vmtarget = 0) (hcaller : m.heap.read caller = .ok (.classObject id))
    (hk : m.classes.get? id = some k) (speculative : Bool) (m' : Machine) :
    resolveMemberName mn (some caller) speculative m = (.ok (some mn), m') ↔
      resolveMemberName mn none speculative m = (.ok (some mn), m') ∧ m'.Grants k mn := by
  simp only [resolveMemberName_eq_some_iff, true_and]
  obtain ⟨hiff, hsame⟩ := filters_resolveMember h.sound hmn hunresolved hcaller hk speculative
  constructor
  · intro hrun
    have hconfirmed : (resolveMember mn (some caller) speculative m).1 = .ok true := by rw [hrun]
    have hrun' := (hsame hconfirmed).symm.trans hrun
    have hgrants := (hiff.mp hconfirmed).2
    rw [hrun'] at hgrants
    exact ⟨hrun', hgrants⟩
  · rintro ⟨hrun, hgrants⟩
    have hconfirmed := hiff.mpr (by rw [hrun]; exact ⟨rfl, hgrants⟩)
    rw [hsame hconfirmed, hrun]

namespace Sample

/-- A class with a private field, a private static field and a method. Of its method handle
    constants only the first one has a kind that fits its member. There are wide constants
    in the middle and at the end. -/
def vaultFile : ClassFile :=
  { minor := 0
    major := 61
    pool := #[.utf8 "bank/Vault", .classRef 1, .utf8 "java/lang/Object", .classRef 3,
      .utf8 "gold", .utf8 "I", .nameAndType 5 6, .fieldref 2 7, .long 1 0xFFFFFFFF, .hole,
      .utf8 "count", .nameAndType 11 6, .fieldref 2 12, .utf8 "open", .utf8 "()V",
      .nameAndType 14 15, .methodref 2 16, .methodHandle 2 13, .methodHandle 5 8,
      .methodHandle 1 13, .methodHandle 2 17, .moduleName 5, .double 0x40080000 0, .hole]
    access := 0x21
    thisClass := 2
    superClass := 4
    interfaces := []
    fields := [⟨0x2, 5, 6, []⟩, ⟨0xA, 11, 6, []⟩]
    methods := [⟨0x1, 14, 15, []⟩]
    attributes := []
    bootstrapMethods := [] }

/-- A name for the field of the vault with the given name. -/
def fieldOfVault (name : Handle) : MemberName :=
  { flags := (MemberFlags.make .field .getField 0).encode
    name := some name
    type := some ⟨37⟩
    clazz := some ⟨33⟩ }

/-- Define the class, and one of another package that is after its fields. -/
def robbery : List ((α : Type) × Operation α) :=
  [⟨_, .deriveClass vaultFile.encode⟩,
   ⟨_, .defineClass (ClassDeclaration.plain "street/Thief")⟩,
   ⟨_, .intern "gold"⟩,
   ⟨_, .intern "count"⟩,
   ⟨_, .intern "I"⟩,
   ⟨_, .allocate (.memberName (fieldOfVault ⟨35⟩))⟩,
   ⟨_, .allocate (.memberName (fieldOfVault ⟨36⟩))⟩]

/-- The machine after that. -/
def robbed (m : Machine) : Machine :=
  m.perform env robbery

/-- Kind and member of the method handle that a constant of the vault is resolved to, and
    whether the member is static. -/
def handleOfVault (m : Machine) (index : UInt16) : Option (ReferenceKind × MemberRef × Bool) :=
  match m.classes.get? 33 with
  | none => none
  | some c =>
      match resolveMethodHandleConstant env c index m with
      | (.error _, _) => none
      | (.ok handle, m') =>
          match m'.heap.read handle with
          | .ok (.methodHandle stored) =>
              match m'.heap.read stored.member with
              | .ok (.memberName n) => do
                  let member ← m'.members.get? n.vmindex
                  let isStatic ← m'.classes.isStatic? member
                  pure (stored.kind, member, isStatic)
              | _ => none
          | _ => none

/-- The objects that the operations have left, in the order of their handles. -/
def loot : List (Handle × Object) :=
  [(⟨33⟩, .classObject 33), (⟨34⟩, .classObject 34), (⟨35⟩, .string "gold"),
   (⟨36⟩, .string "count"), (⟨37⟩, .string "I"), (⟨38⟩, .memberName (fieldOfVault ⟨35⟩)),
   (⟨39⟩, .memberName (fieldOfVault ⟨36⟩))]

/-- What the run comes to, from a machine with the core classes. -/
abbrev VaultFacts (m : Machine) : Prop :=
  (Succeeds (deriveClass env vaultFile.encode m).1 (fun c => c.id = 33) ∧
    (m.classes.find? "bank/Vault").isNone = true ∧
    (m.classes.find? ClassDeclaration.objectName).isSome = true) ∧
  (((robbed m).classes.get? 33).map (fun c => (c.id, c.kind, c.fields.toList.map Field.access)) =
      some (33, .object, [0x2, 0xA]) ∧
    ((robbed m).classes.get? 33).map (fun c => ["gold", "count"].map
      (fun name => (robbed m).classes.searchField c name (some "I"))) =
      some [some ⟨33, 0⟩, some ⟨33, 1⟩] ∧
    ((robbed m).classes.get? 34).map (fun c => c.id) = some 34) ∧
  (∀ pair ∈ loot, Succeeds ((robbed m).heap.read pair.1) (· = pair.2)) ∧
  (Succeeds (resolveMemberName ⟨38⟩ (some ⟨33⟩) false (robbed m)).1 (· = some ⟨38⟩) ∧
    ¬ Succeeds (resolveMemberName ⟨38⟩ (some ⟨34⟩) false (robbed m)).1 (fun _ => True)) ∧
  [18, 19, 20, 21].map (handleOfVault (robbed m)) =
    [some (.getStatic, .field ⟨33, 1⟩, true), some (.invokeVirtual, .field ⟨33, 0⟩, false),
     some (.getField, .field ⟨33, 1⟩, true), some (.getStatic, .method ⟨33, 0⟩, false)]

set_option maxRecDepth 100000 in
set_option synthInstance.maxSize 1000 in
theorem robbery_succeeds : Succeeds (Machine.start env {}) VaultFacts := by
  decide +kernel

/-- A machine after the operations, with the two classes. -/
structure Robbed (m : Machine) (vault thief : Class) : Prop where
  reachable : m.Reachable (fun _ {_} _ => True)
  read : ∀ pair ∈ loot, m.heap.read pair.1 = .ok pair.2
  get_vault : m.classes.get? 33 = some vault
  shape : (vault.id, vault.kind, vault.fields.toList.map Field.access) =
    (33, .object, [0x2, 0xA])
  fields : ["gold", "count"].map (fun name => m.classes.searchField vault name (some "I")) =
    [some ⟨33, 0⟩, some ⟨33, 1⟩]
  get_thief : m.classes.get? 34 = some thief
  thief_id : thief.id = 34
  own : (resolveMemberName ⟨38⟩ (some ⟨33⟩) false m).1 = .ok (some ⟨38⟩)
  denied : ¬ Succeeds (resolveMemberName ⟨38⟩ (some ⟨34⟩) false m).1 (fun _ => True)
  handles : [18, 19, 20, 21].map (handleOfVault m) =
    [some (.getStatic, .field ⟨33, 1⟩, true), some (.invokeVirtual, .field ⟨33, 0⟩, false),
     some (.getField, .field ⟨33, 1⟩, true), some (.getStatic, .method ⟨33, 0⟩, false)]

theorem exists_robbed : ∃ m vault thief, Robbed m vault thief := by
  obtain ⟨m, hstart, _, ⟨hvault, hfields, hthief⟩, hloot, ⟨hown, hdenied⟩, hhandles⟩ :=
    robbery_succeeds
  obtain ⟨vault, hget, hshape⟩ := Option.map_eq_some_iff.mp hvault
  obtain ⟨thief, hthief, hid⟩ := Option.map_eq_some_iff.mp hthief
  rw [hget, Option.map_some, Option.some.injEq] at hfields
  have hrun : Run (fun _ {_} _ => True) m (robbed m) :=
    Run.perform (invoker_runs (fun _ => trivial)) (fun _ _ _ => trivial) m
  exact ⟨robbed m, vault, thief, ⟨env, {}, m, hstart, hrun⟩,
    fun pair hpair => (hloot pair hpair).eq_ok, hget, hshape, hfields, hthief, hid, hown.eq_ok,
    hdenied, hhandles⟩

end Sample

theorem vault_caller_only_filters :
    ∃ (m m' : Machine) (vault thief : Class), m.Reachable (fun _ {_} _ => True) ∧
      m.heap.read ⟨38⟩ = .ok (.memberName (Sample.fieldOfVault ⟨35⟩)) ∧
      m.heap.read ⟨33⟩ = .ok (.classObject 33) ∧ m.classes.get? 33 = some vault ∧
      m.heap.read ⟨34⟩ = .ok (.classObject 34) ∧ m.classes.get? 34 = some thief ∧
      resolveMemberName ⟨38⟩ none false m = (.ok (some ⟨38⟩), m') ∧
      resolveMemberName ⟨38⟩ (some ⟨33⟩) false m = (.ok (some ⟨38⟩), m') ∧
      m'.Grants vault ⟨38⟩ ∧ ¬ m'.Grants thief ⟨38⟩ := by
  obtain ⟨m, vault, thief, hm⟩ := Sample.exists_robbed
  have hmn : m.heap.read ⟨38⟩ = .ok (.memberName (Sample.fieldOfVault ⟨35⟩)) :=
    hm.read (⟨38⟩, _) (by simp [Sample.loot])
  have hvault : m.heap.read ⟨33⟩ = .ok (.classObject 33) :=
    hm.read (⟨33⟩, _) (by simp [Sample.loot])
  have hthief : m.heap.read ⟨34⟩ = .ok (.classObject 34) :=
    hm.read (⟨34⟩, _) (by simp [Sample.loot])
  have hresolved : resolveMemberName ⟨38⟩ (some ⟨33⟩) false m =
      (.ok (some ⟨38⟩), (resolveMemberName ⟨38⟩ (some ⟨33⟩) false m).2) := Prod.ext hm.own rfl
  obtain ⟨hnone, hgrants⟩ :=
    (caller_only_filters hm.reachable hmn rfl hvault hm.get_vault false _).mp hresolved
  refine ⟨m, _, vault, thief, hm.reachable, hmn, hvault, hm.get_vault, hthief, hm.get_thief, hnone,
    hresolved, hgrants, fun hgrants' => hm.denied ?_⟩
  -- If the thief had access, then its resolution would have succeeded.
  have hrobbed :=
    (caller_only_filters hm.reachable hmn rfl hthief hm.get_thief false _).mpr ⟨hnone, hgrants'⟩
  exact ⟨_, by rw [hrobbed], trivial⟩

end Linkage
