import Linkage.Proofs.Agreement
import Linkage.Proofs.Speculation

/-! # What a member name asks for

    The resolution of a member name has three parts. First the member name is read as
    a question: which kind of member is looked for, in which class, under which name
    and signature (`MemberName.question`). Then the class table is searched, on behalf
    of a caller if one is given. At last the member that was found is written to the
    member name (`commitMember_run`). Only the search looks at the caller. -/

namespace Linkage

open Link

/-- The member that a member name asks for. -/
structure MemberQuestion where
  kind : MemberKind
  referenceKind : ReferenceKind
  searched : Class
  name : String
  signature : String

/-- Read the question of an unresolved member name. There is none if a part is missing
    or the class has no members. -/
def MemberName.question (n : MemberName) : Link (Option MemberQuestion) := do
  let referenceKind ← orFail n.decoded.referenceKind .memberWithoutReferenceKind
  match n.name, n.type, n.clazz with
  | some name, some type, some clazz =>
      match ← searchedClass clazz with
      | none => pure none
      | some searched => do
          let name ← stringValue name
          let signature ← typeSignature type
          pure (n.decoded.kind.map fun kind =>
            { kind, referenceKind, searched, name, signature })
  | _, _, _ => pure none

/-- Search for the member on behalf of a caller, and store it in the member name. -/
def MemberQuestion.answer (q : MemberQuestion) (mn : Handle) (caller : Option Class)
    (speculative : Bool) : Link Bool :=
  match q.kind with
  | .method =>
      resolveMethod mn q.searched .method q.name q.signature q.referenceKind caller speculative
  | .constructor =>
      resolveMethod mn q.searched .constructor q.name q.signature q.referenceKind caller speculative
  | .field => resolveField mn q.searched q.name q.signature q.referenceKind caller speculative
  | .type => pure false

/-- Read the question of an unresolved member name, and answer it on behalf of a caller. -/
def MemberName.ask (n : MemberName) (mn : Handle) (caller : Option Class) (speculative : Bool) :
    Link Bool := do
  match ← n.question with
  | none => pure false
  | some q => q.answer mn caller speculative

variable {m m' : Machine} {mn : Handle} {n : MemberName} {caller : Option Handle}
  {k : Option Class} {speculative : Bool}

/-- Looking for the class to search changes nothing. -/
theorem goes_searchedClass {rule : Discipline} (clazz : Handle) :
    Goes rule (searchedClass clazz) m (fun _ m' => m' = m) := by
  unfold searchedClass
  refine goes_bind (goes_classOfObject clazz) ?_
  rintro found m₁ _ ⟨rfl, -⟩
  cases found with
  | none => exact goes_pure rfl
  | some c =>
    dsimp only
    split
    · exact goes_pure rfl
    · -- The class of an array is searched as the root.
      split
      · refine goes_bind (goes_coreClass ClassDeclaration.objectName) ?_
        rintro object m₂ _ ⟨rfl, -⟩
        exact goes_pure rfl
      · exact goes_pure rfl

/-- Going on after a sequence of two actions. -/
theorem Link.bind_bind_run {α β γ : Type} (x : Link α) (f : α → Link β) (g : β → Link γ)
    (m : Machine) : ((x >>= f) >>= g) m = (x >>= fun a => f a >>= g) m := by
  rcases bind_cases x f m with ⟨e, m', hx, hbind⟩ | ⟨a, m', hx, hbind⟩
  · rw [bind_of_error hbind, bind_of_error hx]
  · rw [bind_of_ok hx, bind_run (x >>= f), hbind, ← bind_run]

/-- Two sequences that begin alike, and go on alike after each value of the first action. -/
theorem Link.bind_congr_run {α β : Type} {x : Link α} {f g : α → Link β}
    (h : ∀ a m', x m = (.ok a, m') → f a m' = g a m') : (x >>= f) m = (x >>= g) m := by
  rcases bind_cases x f m with ⟨e, m', hx, hbind⟩ | ⟨a, m', hx, hbind⟩
  · rw [hbind, bind_of_error hx]
  · rw [hbind, bind_of_ok hx, h a m' hx]

/-- Resolution of an unresolved member name for a caller that is a class, or for none:
    the question is read, then it is answered. -/
theorem resolveMember_eq (hmn : m.heap.read mn = .ok (.memberName n)) (hunresolved : n.vmtarget = 0)
    (hcaller : callerClass caller m = (.ok k, m)) :
    resolveMember mn caller speculative m = n.ask mn k speculative m := by
  unfold resolveMember MemberName.ask MemberName.question
  rw [bind_of_ok (readMemberName_of_read hmn), bind_bind_run]
  simp only [hunresolved, bne_self_eq_false, Bool.false_eq_true, if_false]
  refine bind_congr_run fun referenceKind m₁ hreference => ?_
  obtain ⟨-, rfl⟩ := orFail_eq_ok_iff.mp hreference
  rcases n.name with _ | name
  · rfl
  rcases n.type with _ | type
  · rfl
  rcases n.clazz with _ | clazz
  · rfl
  dsimp only
  rw [bind_bind_run]
  refine bind_congr_run fun found m₂ hfound => ?_
  -- The caller is looked at here, on the machine as it was at the beginning.
  have hgoes : Goes (fun _ {_} _ => True) (searchedClass clazz) m₁ _ := goes_searchedClass clazz
  obtain rfl := hgoes.2 _ _ hfound
  cases found with
  | none => rfl
  | some c =>
    dsimp only
    rw [bind_of_ok hcaller, bind_bind_run]
    refine bind_congr_run fun name m₃ _ => ?_
    rw [bind_bind_run]
    refine bind_congr_run fun signature m₄ _ => ?_
    unfold MemberName.decoded
    rw [bind_of_ok (pure_run _ m₄)]
    rcases (MemberFlags.decode n.flags).kind with _ | kind
    · rfl
    · cases kind <;> rfl

/-- The caller of a resolution that is given one. -/
theorem callerClass_of_read {handle : Handle} {id : ClassId} {c : Class}
    (hread : m.heap.read handle = .ok (.classObject id)) (hget : m.classes.get? id = some c) :
    callerClass (some handle) m = (.ok (some c), m) := by
  show (classOfObject handle >>= fun found => some <$> orFail found .callerNotAClass) m = _
  rw [bind_of_ok (classOfObject_of_read hread hget)]
  rfl

/-- The question of a member name is about the kinds in its flags. -/
theorem MemberName.question_kinds {q : MemberQuestion}
    (h : n.question m = (.ok (some q), m')) :
    n.decoded.kind = some q.kind ∧ n.decoded.referenceKind = some q.referenceKind := by
  unfold question at h
  obtain ⟨referenceKind, m₁, hreference, hparts⟩ := bind_eq_ok_iff.mp h
  obtain ⟨hreference, -⟩ := orFail_eq_ok_iff.mp hreference
  -- A question needs all three symbolic parts.
  revert hparts
  rcases n.name with _ | name
  · intro hnone
    cases hnone
  rcases n.type with _ | type
  · intro hnone
    cases hnone
  rcases n.clazz with _ | clazz
  · intro hnone
    cases hnone
  intro hparts
  obtain ⟨found, m₂, -, hfound⟩ := bind_eq_ok_iff.mp hparts
  cases found with
  | none => cases hfound
  | some searched =>
    obtain ⟨name, m₃, -, hname⟩ := bind_eq_ok_iff.mp hfound
    obtain ⟨signature, m₄, -, hsignature⟩ := bind_eq_ok_iff.mp hname
    cases hkind : n.decoded.kind with
    | none => simp [hkind] at hsignature
    | some kind =>
      simp only [hkind, Option.map_some, pure_run, Prod.mk.injEq, Except.ok.injEq,
        Option.some.injEq] at hsignature
      obtain ⟨rfl, -⟩ := hsignature
      exact ⟨rfl, hreference⟩

theorem goes_callerClass {rule : Discipline} (caller : Option Handle) :
    Goes rule (callerClass caller) m (fun _ m' => m' = m) := by
  cases caller with
  | none => exact goes_pure rfl
  | some handle =>
    refine goes_bind (goes_classOfObject handle) ?_
    rintro found m₁ _ ⟨rfl, -⟩
    refine goes_bind (goes_orFail (Q := fun _ m' => m' = m₁) (fun _ _ => rfl)) ?_
    rintro k m₂ _ rfl
    exact goes_pure rfl

/-- A resolution that is confirmed has looked up its caller. -/
theorem callerClass_of_confirmed {caller : Option Handle}
    (hmn : m.heap.read mn = .ok (.memberName n)) (hunresolved : n.vmtarget = 0)
    (h : resolveMember mn caller speculative m = (.ok true, m')) :
    ∃ k, callerClass caller m = (.ok k, m) := by
  unfold resolveMember at h
  rw [bind_of_ok (readMemberName_of_read hmn)] at h
  simp only [hunresolved, bne_self_eq_false, Bool.false_eq_true, if_false] at h
  obtain ⟨referenceKind, m₁, hreference, hclass⟩ := bind_eq_ok_iff.mp h
  obtain ⟨-, rfl⟩ := orFail_eq_ok_iff.mp hreference
  -- Without one of the symbolic parts nothing is confirmed.
  revert hclass
  rcases n.name with _ | name
  · intro hnone
    cases hnone
  rcases n.type with _ | type
  · intro hnone
    cases hnone
  rcases n.clazz with _ | clazz
  · intro hnone
    cases hnone
  intro hclass
  obtain ⟨found, m₂, hfound, hcaller⟩ := bind_eq_ok_iff.mp hclass
  have hsearched : Goes (fun _ {_} _ => True) (searchedClass clazz) m₁ _ :=
    goes_searchedClass clazz
  obtain rfl := hsearched.2 _ _ hfound
  cases found with
  | none => cases hcaller
  | some searched =>
    obtain ⟨k, m₃, hk, -⟩ := bind_eq_ok_iff.mp hcaller
    have hstill : Goes (fun _ {_} _ => True) (callerClass caller) m₂ _ := goes_callerClass caller
    obtain rfl := hstill.2 _ _ hk
    exact ⟨k, hk⟩

theorem changing_question {rule : Discipline} (n : MemberName) : Changing rule n.question := by
  intro m
  suffices h : Goes rule n.question m (fun _ _ => True) from h.1
  unfold MemberName.question
  refine goes_bind (goes_orFail (Q := fun _ _ => True) (fun _ _ => trivial)) ?_
  intro referenceKind m₁ _ _
  split
  · rename_i name type clazz _ _ _
    refine goes_bind (goes_searchedClass clazz) ?_
    intro found m₂ _ _
    cases found with
    | none => exact goes_pure trivial
    | some c =>
      -- Only the signature of a method type may change the machine, as its text is interned.
      refine goes_bind ((changing_of_madeOf (madeOf_stringValue name)).goes m₂) ?_
      intro name m₃ _ _
      refine goes_bind ((changing_of_madeOf (madeOf_typeSignature type)).goes m₃) ?_
      intro signature m₄ _ _
      exact goes_pure trivial
  · exact goes_pure trivial

/-! ## Storing the answer -/

/-- A member name is committed to a member: the member gets an identity, and the class
    table stays as it is. -/
theorem commitMember_run (hw : m.heap.WellFormed) (hmn : m.heap.read mn = .ok (.memberName n))
    (flags : MemberFlags) (clazz : Handle) (member : MemberRef) (target : Nat) :
    ∃ heap, commitMember mn flags clazz member target m =
        (.ok (), { m with heap, members := (m.members.identify member).2 }) ∧
      heap.read mn = .ok (.memberName { n with
        flags := flags.encode
        clazz := some clazz
        vmindex := (m.members.identify member).1
        vmtarget := target }) := by
  unfold commitMember
  rw [bind_of_ok (identify_run member m)]
  exact updateMemberName_of_read (m := { m with members := (m.members.identify member).2 })
    hw hmn _

end Linkage
