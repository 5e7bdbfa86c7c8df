import Linkage.Proofs.Framing
import Linkage.Proofs.Interning
import Linkage.Proofs.MemberQuestions

/-! # Failed resolutions

    Resolution writes to the member name only when nothing can go wrong any more. A
    resolution that fails has at most asked the type of the member name for its descriptor.

    * `Machine.Trace m mn m'`: what may be left of it. A method type that had no descriptor
      has the interned one, and nothing else is changed.
    * `Link.Arrives x m Q`: the action ends with an outcome and a machine that satisfy `Q`, be it
      a value or a failure. Looking around does not change the machine
      (`Link.arrives_bind_still`).
    * `arrives_typeSignature`: asking the type leaves a trace.
    * `arrives_resolveMember`: what follows confirms the member if it changes anything. -/

namespace Linkage

open Link

variable {m m' : Machine} {mn type : Handle} {n : MemberName}

/-! ## Traces -/

/-- The type of the member name is a method type without a descriptor, which would be
    `signature`. -/
structure Machine.Undescribed (m : Machine) (mn type : Handle) (t : MethodType)
    (signature : String) : Prop where
  typed : ∃ n, m.object? mn = some (.memberName n) ∧ n.type = some type
  was : m.object? type = some (.methodType t)
  missing : t.descriptor = none
  spelled : methodDescriptor t.result t.parameters m = (.ok signature, m)

/-- What a failed resolution of a member name may leave behind. -/
inductive Machine.Trace (m : Machine) (mn : Handle) : Machine → Prop where
  /-- Objects have been moved at most. -/
  | none {heap : Heap Object} (view : heap.view = m.heap.view) : Trace m mn { m with heap }
  /-- The type has a descriptor that was interned before. -/
  | found {t : MethodType} {type text : Handle} {signature : String} {heap : Heap Object}
      (lacking : m.Undescribed mn type t signature)
      (entry : m.strings.find? signature = some text)
      (objects : heap.view.objects = Function.update m.object? type
        (some (.methodType { t with descriptor := some text }))) :
      Trace m mn { m with heap }
  /-- The type has a descriptor that is interned now, as a new string. -/
  | interned {t : MethodType} {type text : Handle} {signature : String} {heap : Heap Object}
      (lacking : m.Undescribed mn type t signature) (absent : m.strings.find? signature = none)
      (free : m.object? text = none)
      (objects : heap.view.objects =
        Function.update (Function.update m.object? text (some (.string signature))) type
          (some (.methodType { t with descriptor := some text }))) :
      Trace m mn { m with heap, strings := m.strings.insert signature text }

namespace Machine.Trace

theorem refl (m : Machine) (mn : Handle) : m.Trace mn m := .none rfl

/-- Member names stay as they are, and there are no new ones. -/
theorem memberName_iff (h : m.Trace mn m') (handle : Handle) (n : MemberName) :
    m'.object? handle = some (.memberName n) ↔ m.object? handle = some (.memberName n) := by
  cases h with
  | none view =>
    unfold object?
    rw [view]
  | @found t type text signature heap lacking entry objects =>
    show heap.view.objects handle = _ ↔ _
    rw [objects]
    -- The two objects that are written to are a method type and a new string.
    by_cases htype : handle = type
    · simp [htype, lacking.was]
    · rw [Function.update_of_ne htype]
  | @interned t type text signature heap lacking absent free objects =>
    show heap.view.objects handle = _ ↔ _
    rw [objects]
    by_cases htype : handle = type
    · simp [htype, lacking.was]
    · rw [Function.update_of_ne htype]
      by_cases htext : handle = text
      · simp [htext, free]
      · rw [Function.update_of_ne htext]

end Machine.Trace

/-! ## Outcomes -/

namespace Link

variable {α β : Type}

/-- The action ends with an outcome and a machine that satisfy `Q`. -/
def Arrives (x : Link α) (m : Machine) (Q : Except Failure α → Machine → Prop) : Prop :=
  Q (x m).1 (x m).2

variable {x : Link α} {f : α → Link β} {Q : Except Failure β → Machine → Prop}

theorem arrives_bind {R : Except Failure α → Machine → Prop} (hx : Arrives x m R)
    (herror : ∀ e m', R (.error e) m' → Q (.error e) m')
    (hf : ∀ a m', x m = (.ok a, m') → R (.ok a) m' → Arrives (f a) m' Q) :
    Arrives (x >>= f) m Q := by
  unfold Arrives at hx ⊢
  rcases bind_cases x f m with ⟨e, m', hrun, hbind⟩ | ⟨a, m', hrun, hbind⟩
  · rw [hrun] at hx
    rw [hbind]
    exact herror e m' hx
  · rw [hrun] at hx
    rw [hbind]
    exact hf a m' hrun hx

/-- An action that leaves the machine as it is comes first. -/
theorem arrives_bind_still (hx : Keeps (· = m) x) (herror : ∀ e, Q (.error e) m)
    (hf : ∀ a, x m = (.ok a, m) → Arrives (f a) m Q) : Arrives (x >>= f) m Q := by
  refine arrives_bind (R := fun _ m' => m' = m) (hx m rfl) ?_ ?_
  · rintro e m' rfl
    exact herror e
  · rintro a m' hrun rfl
    exact hf a hrun

theorem arrives_still {Q : Except Failure α → Machine → Prop} (hx : Keeps (· = m) x)
    (hm : ∀ outcome, Q outcome m) : Arrives x m Q := by
  unfold Arrives
  rw [hx m rfl]
  exact hm _

end Link

/-! ## Asking the type -/

/-- A method type remembers its descriptor, and is the only object that changes. -/
theorem setDescriptor_run (hw : m.heap.WellFormed) {t : MethodType}
    (hread : m.heap.read type = .ok (.methodType t)) (hmissing : t.descriptor = none)
    (text : Handle) :
    ∃ heap, update type (Object.setDescriptor text) m = (.ok (), { m with heap }) ∧
      heap.view.objects = Function.update m.object? type
        (some (.methodType { t with descriptor := some text })) := by
  obtain ⟨heap, hrun, -⟩ := update_of_read hw hread (Object.setDescriptor text)
  refine ⟨heap, hrun, ?_⟩
  have hobjects := (update_object?_of_read hw hread (Object.setDescriptor text)).2
  rw [hrun] at hobjects
  have hnew : Object.setDescriptor text (.methodType t) =
      .methodType { t with descriptor := some text } := by
    rw [Object.setDescriptor, hmissing]
    rfl
  rw [hnew] at hobjects
  exact hobjects

/-- A method type without a descriptor gets it, unless there is no room for the text. -/
theorem arrives_setDescriptor {t : MethodType} {signature : String} (hw : m.heap.WellFormed)
    (lacking : m.Undescribed mn type t signature) :
    Arrives (do
      let text ← intern signature
      update type (Object.setDescriptor text)
      pure signature) m (fun _ m' => m.Trace mn m') := by
  have hread := (read_eq_ok_iff hw).mpr lacking.was
  unfold Arrives
  rcases intern_run_cases signature m with ⟨text, hentry, hrun⟩ | ⟨habsent, heap, hfull, hrun⟩ |
    ⟨habsent, text, heap, hstored, hrun⟩
  · obtain ⟨heap, hupdate, hobjects⟩ := setDescriptor_run hw hread lacking.missing text
    rw [bind_of_ok hrun, bind_of_ok hupdate]
    exact .found lacking hentry hobjects
  · rw [bind_of_error hrun]
    exact .none (Heap.view_of_refused hw hfull)
  · have hw' : heap.WellFormed := by
      have hwell := Heap.wellFormed_allocate hw (.string signature)
      rwa [hstored] at hwell
    obtain ⟨hfree, hset⟩ := Heap.allocate_eq_some hw hstored
    -- The new string is not the type, which has been there before.
    have hne : type ≠ text := by
      rintro rfl
      have hsome := lacking.was.symm.trans hfree
      cases hsome
    have hread' : heap.read type = .ok (.methodType t) := by
      rw [Heap.read_eq_ok_iff hw', hset, Function.update_of_ne hne]
      exact lacking.was
    obtain ⟨heap', hupdate, hobjects⟩ :=
      setDescriptor_run (m := { m with strings := m.strings.insert signature text, heap })
        hw' hread' lacking.missing text
    rw [bind_of_ok hrun, bind_of_ok hupdate]
    refine .interned lacking habsent hfree ?_
    rw [hobjects]
    exact congrArg (Function.update · type _) hset

/-- Asking the type of a member name for its signature leaves a trace at most, also if it
    fails. -/
theorem arrives_typeSignature (hw : m.heap.WellFormed)
    (hmn : m.object? mn = some (.memberName n)) (htype : n.type = some type) :
    Arrives (typeSignature type) m (fun _ m' => m.Trace mn m') := by
  have hnone : ∀ _ : Except Failure String, m.Trace mn m := fun _ => .refl m mn
  refine arrives_bind_still (keeps_read type) (fun _ => .refl m mn) ?_
  intro object hobject
  have hread := (read_run_eq_ok_iff.mp hobject).1
  -- Only a method type without a descriptor is written to.
  cases object with
  | methodType t =>
    dsimp only
    cases hmissing : t.descriptor with
    | some text => exact arrives_still (keeps_stringValue text) hnone
    | none =>
      refine arrives_bind_still (keeps_methodDescriptor t.result t.parameters)
        (fun _ => .refl m mn) ?_
      intro signature hspelled
      exact arrives_setDescriptor hw
        ⟨⟨n, hmn, htype⟩, (read_eq_ok_iff hw).mp hread, hmissing, hspelled⟩
  | string text => exact arrives_still (keeps_pure text) hnone
  | classObject id => exact arrives_still (keeps_signatureOr _ type) hnone
  | _ => exact arrives_still (keeps_fail _) hnone

/-! ## Looking for the member -/

variable {P : Machine → Prop} {c : Class} {k : Option Class} {name signature : String}
  {referenceKind : ReferenceKind} {speculative : Bool}

/-- The last step of a resolution does not fail. -/
theorem arrives_commitMember (hw : m.heap.WellFormed) (hmn : m.heap.read mn = .ok (.memberName n))
    (flags : MemberFlags) (clazz : Handle) (member : MemberRef) (target : Nat) :
    Arrives (do commitMember mn flags clazz member target; pure true) m
      (fun outcome m' => outcome = .ok true ∨ P m') := by
  obtain ⟨heap, hrun, -⟩ := commitMember_run hw hmn flags clazz member target
  unfold Arrives
  rw [bind_of_ok hrun]
  exact .inl rfl

theorem arrives_resolveMethod (hw : m.heap.WellFormed) (hmn : m.heap.read mn = .ok (.memberName n))
    (kind : MemberKind) (hm : P m) :
    Arrives (resolveMethod mn c kind name signature referenceKind k speculative) m
      (fun outcome m' => outcome = .ok true ∨ P m') := by
  unfold resolveMethod
  split
  · exact .inr hm
  refine arrives_bind_still keeps_classes (fun _ => .inr hm) (fun table _ => ?_)
  refine arrives_bind_still (keeps_ofExcept _) (fun _ => .inr hm) (fun found _ => ?_)
  cases found with
  | none => exact .inr hm
  | some r =>
    refine arrives_bind_still (keeps_classAt _) (fun _ => .inr hm) (fun declaring _ => ?_)
    refine arrives_bind_still (keeps_orFail _ _) (fun _ => .inr hm) (fun method _ => ?_)
    exact arrives_commitMember hw hmn _ _ _ _

theorem arrives_resolveField (hw : m.heap.WellFormed) (hmn : m.heap.read mn = .ok (.memberName n))
    (hm : P m) :
    Arrives (resolveField mn c name signature referenceKind k speculative) m
      (fun outcome m' => outcome = .ok true ∨ P m') := by
  unfold resolveField
  refine arrives_bind_still keeps_classes (fun _ => .inr hm) (fun table _ => ?_)
  refine arrives_bind_still (keeps_ofExcept _) (fun _ => .inr hm) (fun found _ => ?_)
  cases found with
  | none => exact .inr hm
  | some found =>
    refine arrives_bind_still (keeps_classAt _) (fun _ => .inr hm) (fun declaring _ => ?_)
    refine arrives_bind_still (keeps_orFail _ _) (fun _ => .inr hm) (fun field _ => ?_)
    exact arrives_commitMember hw hmn _ _ _ _

/-- A resolution confirms the member or leaves a trace at most. -/
theorem arrives_resolveMember (hw : m.heap.WellFormed) (mn : Handle) (caller : Option Handle)
    (speculative : Bool) :
    Arrives (resolveMember mn caller speculative) m
      (fun outcome m' => outcome = .ok true ∨ m.Trace mn m') := by
  have hnone : ∀ e : Failure, (.error e : Except Failure Bool) = .ok true ∨ m.Trace mn m :=
    fun _ => .inr (.refl m mn)
  unfold resolveMember
  -- Up to the type, the machine is as it was, wherever the resolution fails.
  refine arrives_bind_still (keeps_readMemberName mn) hnone (fun n hn => ?_)
  have hmn := (read_eq_ok_iff hw).mp (readMemberName_eq_ok_iff.mp hn).1
  split
  · exact .inl rfl
  refine arrives_bind_still (keeps_orFail _ _) hnone (fun referenceKind _ => ?_)
  split
  · rename_i name type clazz _ htype _
    refine arrives_bind_still (keeps_searchedClass clazz) hnone (fun found _ => ?_)
    cases found with
    | none => exact .inr (.refl m mn)
    | some c =>
      refine arrives_bind_still (keeps_callerClass caller) hnone (fun k _ => ?_)
      refine arrives_bind_still (keeps_stringValue name) hnone (fun name _ => ?_)
      refine arrives_bind (arrives_typeSignature hw hmn htype) (fun _ _ h => .inr h) ?_
      intro signature m' hrun htrace
      -- The member name is still there, so that it can be written to.
      have hw' : m'.heap.WellFormed := by
        have hchanges : Changes (fun _ {_} _ => True) m m' :=
          (changing_of_madeOf (madeOf_typeSignature type)).of_run hrun
        exact hchanges.wellFormed hw
      have hmn' := (read_eq_ok_iff hw').mpr ((htrace.memberName_iff mn n).mpr hmn)
      split
      · exact arrives_resolveMethod hw' hmn' .method htrace
      · exact arrives_resolveMethod hw' hmn' .constructor htrace
      · exact arrives_resolveField hw' hmn' htrace
      · exact .inr htrace
  · exact .inr (.refl m mn)

/-! ## Main result -/

/-- The machine after a resolution is that of the search for the member. -/
theorem resolveMemberName_machine (mn : Handle) (caller : Option Handle) (speculative : Bool)
    (m : Machine) :
    (resolveMemberName mn caller speculative m).2 = (resolveMember mn caller speculative m).2 := by
  suffices harrives : Arrives (resolveMemberName mn caller speculative) m
      (fun _ m' => m' = (resolveMember mn caller speculative m).2) from harrives
  refine arrives_bind (R := fun _ m' => m' = _) (attempt_machine _ m) (fun _ _ hm => hm) ?_
  intro outcome m' _ hm'
  -- What remains is to report the outcome.
  refine arrives_still ?_ (fun _ => hm')
  split
  · exact keeps_pure _
  · split
    · exact keeps_pure _
    · exact keeps_bind (keeps_readMemberName mn) (fun _ => keeps_fail _)
  · split
    · exact keeps_pure _
    · exact keeps_fail _

theorem resolveMemberName_of_confirmed {caller : Option Handle}
    (h : (resolveMember mn caller speculative m).1 = .ok true) :
    (resolveMemberName mn caller speculative m).1 = .ok (some mn) := by
  have hattempt : attempt (resolveMember mn caller speculative) m =
      (.ok (.ok true), (resolveMember mn caller speculative m).2) := by
    rw [attempt_run, ← Prod.eta (resolveMember mn caller speculative m), h]
  unfold resolveMemberName
  rw [bind_of_ok hattempt]
  rfl

/-- A resolution that ends without the member name, with an error or with nothing, leaves the
    class table, the remembered constants, the identities of members and all member names as
    they were. What is left of it is a trace at most: if the type of the member name is a
    method type without a descriptor, then it may have one now, which is the interned text of
    its descriptor; this text is a string of its own behind a new handle unless it was interned
    before. All other objects are as they were. Behind the handles of the pool there are still
    the strings with the interned texts, if outside code has left them there. -/
theorem failed_resolution_trace {rule : Discipline} (h : m.Reachable rule)
    {caller : Option Handle} {answer : Except Failure (Option Handle)}
    (hrun : resolveMemberName mn caller speculative m = (answer, m'))
    (hfailed : ∀ found, answer ≠ .ok (some found)) :
    m'.classes = m.classes ∧ m'.memos = m.memos ∧ m'.members = m.members ∧
      (∀ handle n, m'.object? handle = some (.memberName n) ↔
        m.object? handle = some (.memberName n)) ∧
      m.Trace mn m' ∧ (m.TextsInPlace → m'.TextsInPlace) := by
  have harrives := arrives_resolveMember h.sound.heap mn caller speculative
  unfold Arrives at harrives
  rw [← resolveMemberName_machine, hrun] at harrives
  obtain hconfirmed | htrace := harrives
  · have hanswer := resolveMemberName_of_confirmed hconfirmed
    rw [hrun] at hanswer
    exact absurd hanswer (hfailed mn)
  · have hchanges : Changes InternedKept m m' :=
      (changing_resolveMemberName mn caller speculative).of_run hrun
    refine ⟨?_, ?_, ?_, htrace.memberName_iff, htrace, hchanges.textsInPlace h.sound.heap⟩
    · cases htrace <;> rfl
    · cases htrace <;> rfl
    · cases htrace <;> rfl

theorem Sample.internedKept : ∀ op ∈ Sample.operations, ∀ m, InternedKept m op.2 := by
  intro op hop m
  simp only [Sample.operations, List.mem_cons, List.not_mem_nil, or_false] at hop
  rcases hop with rfl | rfl | rfl | rfl | rfl | rfl | rfl <;> trivial

/-- A method that does not exist: the type of its name has a descriptor afterwards. -/
theorem misnamed_resolution_trace :
    ∃ m m' : Machine, m.Reachable InternedKept ∧
      resolveMemberName ⟨41⟩ none true m = (.ok none, m') ∧
      m'.heap.read ⟨40⟩ = .ok (.methodType { Sample.undescribed with descriptor := some ⟨42⟩ }) ∧
      m'.heap.read ⟨42⟩ = .ok (.string "(LSquare;)LSquare;") ∧
      m'.classes = m.classes ∧ m'.memos = m.memos ∧ m'.members = m.members ∧
      (∀ handle n, m'.object? handle = some (.memberName n) ↔
        m.object? handle = some (.memberName n)) ∧
      m.Trace ⟨41⟩ m' ∧ m'.TextsInPlace := by
  obtain ⟨m, hstart, -, hnone, htype, htext⟩ := Sample.all_succeeds
  -- The run up to the resolution, in two parts.
  have hinvoker : ∀ invoke, Sample.env.invoker = some invoke →
      ∀ c buffer m, Run InternedKept m (invoke c buffer m).2 :=
    Sample.invoker_runs (fun _ => trivial)
  have hafter : Run InternedKept m (Sample.after m) :=
    Run.perform hinvoker Sample.internedKept m
  have hmisnamed : Run InternedKept (Sample.after m) (Sample.misnamed m) := by
    refine Run.perform hinvoker ?_ (Sample.after m)
    intro op hop m
    simp only [List.mem_cons, List.not_mem_nil, or_false] at hop
    rcases hop with rfl | rfl <;> trivial
  have hreachable : (Sample.misnamed m).Reachable InternedKept :=
    ⟨Sample.env, {}, m, hstart, hafter.trans hmisnamed⟩
  -- The resolution is the one that the sample has evaluated.
  have hrun : resolveMemberName ⟨41⟩ none true (Sample.misnamed m) = Sample.declined m := rfl
  generalize Sample.declined m = ended at *
  generalize Sample.misnamed m = m₁ at *
  obtain ⟨answer, m'⟩ := ended
  obtain rfl : answer = .ok none := hnone.eq_ok
  obtain ⟨hclasses, hmemos, hmembers, hnames, htrace, htexts⟩ :=
    failed_resolution_trace hreachable hrun (fun _ he => by cases he)
  exact ⟨m₁, m', hreachable, hrun, htype.eq_ok, htext.eq_ok, hclasses, hmemos, hmembers, hnames,
    htrace, htexts hreachable.textsInPlace⟩

end Linkage
