import Linkage.Proofs.LoadingEnds
import Linkage.Proofs.MethodHandles

/-! # Making a method handle returns

    Whether an action ends is one question, and how is another one. Looking up a member asks
    for nothing that has a bound on its depth but the loading of classes, whose bound is
    never reached. If class objects and interned strings are in place, then it also finds
    every object that it reads, so it gives a value or throws.

    * `Link.Completes x`: the action does not reach a bound, on any machine.
    * `Link.Returns x m`: on the machine, the action gives a value or throws.
    * `completes_newMethodHandle`, `returns_newMethodHandle`: so it is for method handles. -/

namespace Linkage

open Link

variable {α β : Type} {rule : Discipline} {env : Environment} {m m' : Machine} {c : Class}

/-- No restriction on outside code. -/
def Discipline.free : Discipline := fun _ {_} _ => True

/-! ## Actions that end -/

namespace Link

/-- What is remembered has not failed. -/
theorem fails_memoize {slot : ConstantSlot} {compute : Link Handle} {e : Failure}
    (h : (memoize slot compute m).1 = .error e) : (compute m).1 = .error e := by
  unfold memoize at h
  rw [bind_of_ok (memo?_run slot m)] at h
  cases hmemo : m.memos.lookup slot with
  | some value => rw [hmemo] at h; cases h
  | none =>
    rw [hmemo] at h
    dsimp only at h
    rcases bind_cases compute _ m with ⟨e', m₁, hrun, hbind⟩ | ⟨value, m₁, hrun, hbind⟩
    · rw [hbind] at h
      cases h
      rw [hrun]
    · rw [hbind, bind_of_ok (memo?_run slot m₁)] at h
      -- The slot may have been filled meanwhile, which is no failure either.
      cases hlate : m₁.memos.lookup slot with
      | some first => rw [hlate] at h; cases h
      | none => rw [hlate] at h; cases h

end Link

section Ends

variable {names : List String}

theorem ends_intern (text : String) : Ends names (intern text) := by
  intro m hm
  rcases intern_run_cases text m with
    ⟨handle, _, hrun⟩ | ⟨_, heap, _, hrun⟩ | ⟨_, handle, heap, _, hrun⟩ <;> rw [hrun]
  · exact ⟨Or.inl ⟨handle, rfl⟩, hm⟩
  · exact ⟨Or.inr ⟨_, rfl⟩, hm⟩
  · exact ⟨Or.inl ⟨handle, rfl⟩, hm⟩

theorem ends_newMethodType (env : Environment) (descriptor : String) :
    Ends names (newMethodType env descriptor) := by
  refine ends_bind (ends_orFail _ _) (fun d => ?_)
  refine ends_bind (ends_forEach (fun t _ => ends_loadClass env _ names)) (fun parameters => ?_)
  refine ends_bind (ends_loadClass env _ names) (fun result => ?_)
  exact ends_bind (ends_intern descriptor) (fun text => ends_allocate _)

theorem ends_dynamicType (env : Environment) (d : DynamicConstant) :
    Ends names (dynamicType env d) := by
  unfold dynamicType
  split
  · exact ends_newMethodType env d.descriptor
  · refine ends_bind (ends_bind (ends_orFail _ _) (fun t => ?_)) (fun k => ends_pure _)
    exact ends_loadClass env t.className names

end Ends

/-! ## Actions without a bound -/

/-- The action does not reach a bound. -/
def Link.Completes (x : Link α) : Prop :=
  ∀ m, (x m).1 ≠ .error .boundReached

namespace Link

variable {x : Link α} {f : α → Link β}

@[grind ←] theorem completes_of_ends (h : ∀ names, Ends names x) : Completes x := by
  intro m hm
  rcases (h m.loading m rfl).1 with ⟨a, ha⟩ | ⟨e, he⟩
  · rw [ha] at hm
    cases hm
  · rw [he] at hm
    cases hm

@[grind ←] theorem completes_bind (hx : Completes x) (hf : ∀ a, Completes (f a)) :
    Completes (x >>= f) := by
  intro m hm
  rcases bind_cases x f m with ⟨e, m', hrun, hbind⟩ | ⟨a, m', hrun, hbind⟩
  · rw [hbind] at hm
    cases hm
    exact hx m (by rw [hrun])
  · rw [hbind] at hm
    exact hf a m' hm

@[grind ←] theorem completes_pure (a : α) : Completes (pure a : Link α) :=
  completes_of_ends (fun _ => ends_pure a)

@[grind ←] theorem completes_map (g : α → β) (hx : Completes x) : Completes (g <$> x) :=
  completes_bind hx (fun a => completes_pure (g a))

@[grind ←] theorem completes_fail (e : LinkError) : Completes (fail e : Link α) :=
  completes_of_ends (fun _ => ends_fail e)

@[grind ←] theorem completes_orFail (o : Option α) (e : LinkError) : Completes (orFail o e) :=
  completes_of_ends (fun _ => ends_orFail o e)

@[grind ←] theorem completes_ofExcept (r : Except LinkError α) : Completes (ofExcept r) :=
  completes_of_ends (fun _ => ends_ofExcept r)

@[grind ←] theorem completes_classes : Completes classes :=
  completes_of_ends (fun _ => ends_view _)

@[grind ←] theorem completes_coreClass (name : String) : Completes (coreClass name) :=
  completes_of_ends (fun _ => ends_coreClass name)

@[grind ←] theorem completes_intern (text : String) : Completes (intern text) :=
  completes_of_ends (fun _ => ends_intern text)

@[grind ←] theorem completes_allocate (object : Object) : Completes (allocate object) :=
  completes_of_ends (fun _ => ends_allocate object)

@[grind ←] theorem completes_forEach {as : List α} (hf : ∀ a, Completes (f a)) :
    Completes (forEach f as) := by
  induction as with
  | nil => exact completes_pure []
  | cons a as ih =>
    exact completes_bind (hf a) (fun b => completes_bind ih (fun bs => completes_pure _))

@[grind ←] theorem completes_attempt (hx : Completes x) : Completes (attempt x) := by
  intro m hm
  have hbound := hx m
  unfold attempt at hm
  cases hrun : x m with
  | mk result m' =>
    rw [hrun] at hm hbound
    cases result with
    | ok a => cases hm
    | error e =>
      cases e with
      | boundReached => exact hbound rfl
      | _ => cases hm

@[grind ←] theorem completes_read (handle : Handle) : Completes (read handle) := by
  intro m hm
  rw [read_run] at hm
  cases hread : m.heap.read handle with
  | ok object => rw [hread] at hm; cases hm
  | error fault => rw [hread] at hm; cases hm

@[grind ←] theorem completes_update (handle : Handle) (f : Object → Object) :
    Completes (update handle f) := by
  intro m hm
  rw [update_run] at hm
  split at hm <;> cases hm

@[grind ←] theorem completes_classAt (id : ClassId) : Completes (classAt id) := by
  intro m hm
  rw [classAt_run] at hm
  split at hm <;> cases hm

@[grind ←] theorem completes_identify (member : MemberRef) : Completes (identify member) :=
  fun _ hm => by cases hm

@[grind ←] theorem completes_classOfObject (handle : Handle) :
    Completes (classOfObject handle) := by
  unfold classOfObject
  grind

@[grind ←] theorem completes_stringValue (handle : Handle) : Completes (stringValue handle) := by
  unfold stringValue
  grind

@[grind ←] theorem completes_readMemberName (handle : Handle) :
    Completes (readMemberName handle) := by
  unfold readMemberName
  grind

@[grind ←] theorem completes_updateMemberName (handle : Handle) (f : MemberName → MemberName) :
    Completes (updateMemberName handle f) := by
  unfold updateMemberName
  grind

end Link

theorem completes_typeSignature (type : Handle) : Completes (typeSignature type) := by
  have hsignature : ∀ e handle, Completes (signatureOr e handle) := by
    intro e handle
    unfold signatureOr
    grind
  have hmethod : ∀ result parameters, Completes (methodDescriptor result parameters) := by
    intro result parameters
    unfold methodDescriptor
    grind
  unfold typeSignature classObjectSignature
  grind

theorem completes_resolveMember (mn : Handle) (caller : Option Handle) (speculative : Bool) :
    Completes (resolveMember mn caller speculative) := by
  -- One fact for each helper, for `grind` to put together.
  have hsearched : ∀ clazz, Completes (searchedClass clazz) := by
    intro clazz
    unfold searchedClass
    grind
  have hcaller : Completes (callerClass caller) := by
    unfold callerClass
    grind
  have hcommit : ∀ flags clazz member target,
      Completes (commitMember mn flags clazz member target) := by
    intro flags clazz member target
    unfold commitMember
    grind
  have hmethod : ∀ k kind name signature referenceKind caller,
      Completes (resolveMethod mn k kind name signature referenceKind caller speculative) := by
    intro k kind name signature referenceKind caller
    unfold resolveMethod
    grind
  have hfield : ∀ k name signature referenceKind caller,
      Completes (resolveField mn k name signature referenceKind caller speculative) := by
    intro k name signature referenceKind caller
    unfold resolveField
    grind
  refine completes_bind (completes_readMemberName mn) (fun n => ?_)
  split
  · exact completes_pure _
  refine completes_bind (completes_orFail _ _) (fun referenceKind => ?_)
  split
  · refine completes_bind (hsearched _) (fun found => ?_)
    cases found with
    | none => exact completes_pure _
    | some k =>
      refine completes_bind hcaller (fun caller => ?_)
      refine completes_bind (completes_stringValue _) (fun name => ?_)
      refine completes_bind (completes_typeSignature _) (fun signature => ?_)
      grind
  · exact completes_pure _

theorem completes_newMethodHandle (env : Environment) (c : Class) (kind : ReferenceKind)
    (reference : UInt16) : Completes (newMethodHandle env c kind reference) := by
  -- From the parts of a constant to its member name, which is resolved last.
  have hreference : Completes (memberReferenceAt c reference) := by
    unfold memberReferenceAt constantAt
    grind
  have hclass : ∀ index, Completes (resolveClassConstant env c index) := by
    intro index
    refine completes_bind (completes_orFail _ _) (fun entry => ?_)
    cases entry with
    | classRef name =>
      refine fun m hm => absurd (fails_memoize hm) ?_
      exact completes_of_ends (fun names =>
        ends_bind (ends_loadClass env name names) (fun k => ends_pure _)) m
    | _ => exact completes_fail _
  have hresolve : ∀ mn, Completes (resolveMemberName mn (some c.classObject) false) := by
    intro mn
    have hmember := completes_resolveMember mn (some c.classObject) false
    unfold resolveMemberName
    grind
  refine completes_bind hreference (fun described => ?_)
  refine completes_bind (hclass _) (fun clazz => ?_)
  refine completes_bind (completes_intern _) (fun name => ?_)
  refine completes_bind (completes_intern _) (fun type => ?_)
  refine completes_bind (completes_allocate _) (fun mn => completes_bind (hresolve mn) ?_)
  grind

/-! ## Actions that return -/

/-- On the machine, the action gives a value or throws. -/
def Link.Returns (x : Link α) (m : Machine) : Prop :=
  (∃ a, (x m).1 = .ok a) ∨ ∃ e, (x m).1 = .error (.thrown e)

namespace Link

variable {x : Link α} {f : α → Link β}

/-- An action returns if it does not fail but by throwing. -/
theorem returns_iff : Returns x m ↔ ∀ e, (x m).1 = .error e → ∃ t, e = .thrown t := by
  unfold Returns
  cases (x m).1 with
  | ok a => simp
  | error e => simp

theorem returns_of_ends (h : ∀ names, Ends names x) : Returns x m := (h m.loading m rfl).1

theorem returns_pure (a : α) : Returns (pure a : Link α) m := Or.inl ⟨a, rfl⟩

theorem returns_fail (e : LinkError) : Returns (fail e : Link α) m := Or.inr ⟨e, rfl⟩

theorem returns_bind (hx : Returns x m) (hf : ∀ a m', x m = (.ok a, m') → Returns (f a) m') :
    Returns (x >>= f) m := by
  unfold Returns at hx ⊢
  rcases bind_cases x f m with ⟨e, m', hrun, hbind⟩ | ⟨a, m', hrun, hbind⟩
  · rw [hrun] at hx
    rw [hbind]
    rcases hx with ⟨a, ha⟩ | ⟨e', he⟩
    · cases ha
    · cases he
      exact Or.inr ⟨e', rfl⟩
  · rw [hbind]
    exact hf a m' hrun

theorem returns_bind_of_ok {a : α} (hx : x m = (.ok a, m')) (hf : Returns (f a) m') :
    Returns (x >>= f) m := by
  refine returns_bind (Or.inl ⟨a, by rw [hx]⟩) (fun a₁ m₁ hrun => ?_)
  rw [hx] at hrun
  cases hrun
  exact hf

theorem returns_attempt (hx : Returns x m) : Returns (attempt x) m := by
  unfold Returns attempt at *
  cases hrun : x m with
  | mk result m' =>
    rw [hrun] at hx
    rcases hx with ⟨a, rfl⟩ | ⟨e, rfl⟩
    · exact Or.inl ⟨_, rfl⟩
    · exact Or.inl ⟨_, rfl⟩

theorem returns_memoize {slot : ConstantSlot} {compute : Link Handle} (h : Returns compute m) :
    Returns (memoize slot compute) m := by
  cases hresult : (memoize slot compute m).1 with
  | ok value => exact Or.inl ⟨value, hresult⟩
  | error e =>
    rcases h with ⟨value, hvalue⟩ | ⟨t, ht⟩
    · rw [fails_memoize hresult] at hvalue
      cases hvalue
    · rw [fails_memoize hresult] at ht
      cases ht
      exact Or.inr ⟨t, hresult⟩

end Link

variable {mn : Handle} {n : MemberName} {speculative : Bool}

/-- The parts of a member name are there: name and type are strings, and the class object is
    that of a class. -/
structure Machine.Spells (m : Machine) (n : MemberName) : Prop where
  unresolved : n.vmtarget = 0
  name : ∃ handle text, n.name = some handle ∧ m.heap.read handle = .ok (.string text)
  type : ∃ handle text, n.type = some handle ∧ m.heap.read handle = .ok (.string text)
  clazz : ∃ k : Class, n.clazz = some k.classObject ∧ m.classes.get? k.id = some k

/-- Such a member name can be read as a question. -/
theorem MemberName.returns_question (hm : m.Steady) (h : m.Spells n) : Returns n.question m := by
  obtain ⟨name, text, hname, hread⟩ := h.name
  obtain ⟨type, signature, htype, hread'⟩ := h.type
  obtain ⟨k, hclazz, hk⟩ := h.clazz
  -- The class of an array type is searched as the root, which is a core class.
  have hsearched : Returns (searchedClass k.classObject) m := by
    refine returns_bind_of_ok (classOfObject_of_read (hm.read_classObject hk) hk) ?_
    dsimp only
    split
    · exact returns_pure _
    split
    · exact returns_of_ends (fun names => ends_bind (ends_coreClass _) (fun _ => ends_pure _))
    · exact returns_pure _
  have hstill : Goes Discipline.free (searchedClass k.classObject) m _ := goes_searchedClass _
  unfold MemberName.question
  rw [hname, htype, hclazz]
  refine returns_bind (returns_of_ends (fun _ => ends_orFail _ _)) (fun referenceKind m₁ hrun => ?_)
  obtain ⟨-, rfl⟩ := orFail_eq_ok_iff.mp hrun
  refine returns_bind hsearched (fun found m₂ hfound => ?_)
  obtain rfl := hstill.2 found m₂ hfound
  cases found with
  | none => exact returns_pure none
  | some searched =>
    refine returns_bind_of_ok (stringValue_of_read hread) ?_
    have hsignature : typeSignature type m₂ = (.ok signature, m₂) := by
      unfold typeSignature
      rw [bind_of_ok (read_of_ok hread')]
      rfl
    exact returns_bind_of_ok hsignature (returns_pure _)

/-- A member that has been found is stored. -/
theorem returns_found {δ : Type} {member : MemberRef} {owner : ClassId}
    {declared : Class → Option δ} {e : LinkError} {flags : Class → δ → MemberFlags}
    {target : δ → Nat} {k : Class} (hw : m.heap.WellFormed)
    (hmn : m.heap.read mn = .ok (.memberName n)) (hk : m.classes.get? owner = some k) :
    Returns (do
      let declaring ← classAt owner
      let d ← orFail (declared declaring) e
      commitMember mn (flags declaring d) declaring.classObject member (target d)
      pure true) m := by
  refine returns_bind_of_ok (classAt_of_get? hk) ?_
  refine returns_bind (returns_of_ends (fun _ => ends_orFail _ _)) (fun d m₁ hd => ?_)
  obtain ⟨-, rfl⟩ := orFail_eq_ok_iff.mp hd
  obtain ⟨heap, hrun, _⟩ := commitMember_run hw hmn (flags k d) k.classObject member (target d)
  exact returns_bind_of_ok hrun (returns_pure true)

theorem returns_resolveMethod {kind : MemberKind} {name signature : String}
    {referenceKind : ReferenceKind} {caller : Option Class} (hw : m.heap.WellFormed)
    (hmn : m.heap.read mn = .ok (.memberName n)) :
    Returns (resolveMethod mn c kind name signature referenceKind caller speculative) m := by
  unfold resolveMethod
  split
  · exact returns_pure false
  refine returns_bind_of_ok (classes_run m) ?_
  refine returns_bind (returns_of_ends (fun _ => ends_ofExcept _)) (fun found m₁ hfound => ?_)
  obtain ⟨hlink, rfl⟩ := ofExcept_eq_ok_iff.mp hfound
  cases found with
  | none => exact returns_pure false
  | some r =>
    obtain ⟨method, hmethod, _⟩ := ClassTable.linkMethod_found hlink
    obtain ⟨k, hk, _⟩ := Option.bind_eq_some_iff.mp hmethod
    exact returns_found hw hmn hk

theorem returns_resolveField {name signature : String} {referenceKind : ReferenceKind}
    {caller : Option Class} (hw : m.heap.WellFormed)
    (hmn : m.heap.read mn = .ok (.memberName n)) :
    Returns (resolveField mn c name signature referenceKind caller speculative) m := by
  refine returns_bind_of_ok (classes_run m) ?_
  refine returns_bind (returns_of_ends (fun _ => ends_ofExcept _)) (fun found m₁ hfound => ?_)
  obtain ⟨hlink, rfl⟩ := ofExcept_eq_ok_iff.mp hfound
  cases found with
  | none => exact returns_pure false
  | some result =>
    obtain ⟨f, hf, _⟩ := ClassTable.linkField_found hlink
    obtain ⟨k, hk, _⟩ := Option.bind_eq_some_iff.mp hf
    exact returns_found hw hmn hk

/-- The resolution of a member name whose parts are there returns. -/
theorem returns_resolveMemberName (hm : m.Steady) (hc : m.classes.get? c.id = some c)
    (hmn : m.heap.read mn = .ok (.memberName n)) (h : m.Spells n) :
    Returns (resolveMemberName mn (some c.classObject) speculative) m := by
  have hcaller := callerClass_of_read (hm.read_classObject hc) hc
  have hmember : Returns (resolveMember mn (some c.classObject) speculative) m := by
    unfold Returns
    rw [resolveMember_eq hmn h.unresolved hcaller]
    refine returns_bind (MemberName.returns_question hm h) (fun question m₁ hquestion => ?_)
    cases question with
    | none => exact returns_pure false
    | some q =>
      -- Reading the question may intern a text; the member name is still there after it.
      have hchanges : Changes (fun _ {_} _ => False) m m₁ := (changing_question n).of_run hquestion
      obtain ⟨n₁, hn₁⟩ := hchanges.memberName_stays hm.sound.heap hmn
      have hw₁ := (hchanges.sound hm.sound).heap
      show Returns (q.answer mn (some c) speculative) m₁
      unfold MemberQuestion.answer
      cases q.kind with
      | method => exact returns_resolveMethod hw₁ hn₁
      | constructor => exact returns_resolveMethod hw₁ hn₁
      | field => exact returns_resolveField hw₁ hn₁
      | type => exact returns_pure false
  refine returns_bind (returns_attempt hmember) (fun outcome m₁ hrun => ?_)
  have hchanges : Changes (fun _ {_} _ => False) m m₁ := by
    have hmachine : m₁ = (resolveMember mn (some c.classObject) speculative m).2 := by
      rw [← attempt_machine, hrun]
    rw [hmachine]
    exact (goes_resolveMember mn _ speculative).1
  obtain ⟨n₁, hn₁⟩ := hchanges.memberName_stays hm.sound.heap hmn
  -- A name that is not found is thrown only after its parts have been read again.
  match outcome with
  | .ok true => exact returns_pure _
  | .ok false =>
    dsimp only
    split
    · exact returns_pure none
    · exact returns_bind_of_ok (readMemberName_of_read hn₁) (returns_fail _)
  | .error e =>
    dsimp only
    split
    · exact returns_pure none
    · exact returns_fail e

/-! ## Method handles -/

/-- What is remembered for a class constant is the class object of a class. -/
theorem classObject_of_lookup {index : UInt16} {name : String} {value : Handle}
    (hm : m.Recorded rule) (hc : m.classes.get? c.id = some c)
    (hentry : c.pool.get? index = some (.classRef name))
    (hmemo : m.memos.lookup ⟨c.id, index⟩ = some value) :
    ∃ k : Class, value = k.classObject ∧ m.classes.get? k.id = some k := by
  obtain ⟨env, bound, compute, before, after, _, hcompute, hrun, hlater⟩ :=
    (hm.computed _ value hmemo).of_class hc hentry
  cases hcompute
  obtain ⟨k, m₁, hload, hpure⟩ := bind_eq_ok_iff.mp hrun
  cases hpure
  have hloads : Goes rule (loadClass env name) before (fun k m' => k ∈ m'.classes.classes) :=
    loads_loadClass env name before
  have hmem := hlater.mem_classes (hloads.2 k after hload)
  exact ⟨k, rfl, ClassTable.get?_id hm.sound.ids hmem⟩

theorem classObject_of_resolveClassConstant {index : UInt16} {clazz : Handle}
    (hm : m.Recorded rule) (hc : m.classes.get? c.id = some c)
    (h : resolveClassConstant env c index m = (.ok clazz, m')) :
    ∃ k : Class, clazz = k.classObject ∧ m'.classes.get? k.id = some k := by
  have hrecords := (records_resolveClassConstant env index m hm hc).2
  have hchanges := (records_resolveClassConstant env index m hm hc).1
  rw [h] at hrecords hchanges
  obtain ⟨entry, m₁, hfound, hresolve⟩ := bind_eq_ok_iff.mp h
  obtain ⟨hentry, rfl⟩ := orFail_eq_ok_iff.mp hfound
  cases entry with
  | classRef name =>
    -- Whatever has happened, the slot holds the class object now.
    refine classObject_of_lookup hrecords (hchanges.get?_classes hc) hentry ?_
    have hkept : ∀ Q, Preserves Q (do pure (← loadClass env name).classObject : Link Handle) :=
      fun _ => preserves_bind (preserves_loadClass env name) (fun _ => preserves_pure _)
    have hlookup := lookup_memoize (fun hempty : m₁.memos.lookup ⟨c.id, index⟩ = none =>
      (congrArg (List.lookup _) (memos_of_preserves hkept m₁)).trans hempty)
    rw [show memoize _ _ m₁ = _ from hresolve] at hlookup
    exact hlookup
  | _ => cases hresolve

theorem changes_of_allocate {object : Object} {handle : Handle}
    (h : allocate object m = (.ok handle, m')) (hplain : object.Plain) : Changes rule m m' := by
  have hchange : Changes rule m (allocate object m).2 :=
    Changes.single (.allocate object (Or.inl hplain))
  rw [h] at hchange
  exact hchange

theorem ends_memberReferenceAt (c : Class) (reference : UInt16) (names : List String) :
    Ends names (memberReferenceAt c reference) := by
  refine ends_bind (ends_orFail _ _) (fun entry => ?_)
  cases entry <;> first | exact ends_pure _ | exact ends_fail _

theorem returns_resolveClassConstant (c : Class) (index : UInt16) :
    Returns (resolveClassConstant env c index) m := by
  refine returns_bind (returns_of_ends (fun _ => ends_orFail _ _)) (fun entry m₁ _ => ?_)
  cases entry with
  | classRef name =>
    exact returns_memoize (returns_of_ends (fun names =>
      ends_bind (ends_loadClass env name names) (fun k => ends_pure _)))
  | _ => exact returns_fail _

/-- In a machine where class objects and interned strings are in place, a method handle is
    made or an error is thrown. -/
theorem returns_newMethodHandle (hm : m.Steady) (htexts : m.TextsInPlace)
    (hrecorded : m.Recorded Discipline.free) (hc : m.classes.get? c.id = some c)
    (kind : ReferenceKind) (reference : UInt16) :
    Returns (newMethodHandle env c kind reference) m := by
  refine returns_bind (returns_of_ends (ends_memberReferenceAt c reference))
    (fun described m₁ hdescribed => ?_)
  obtain ⟨memberKind, r⟩ := described
  obtain ⟨rfl, _⟩ := memberReferenceAt_eq_ok hdescribed
  refine returns_bind (returns_resolveClassConstant c r.owner) (fun clazz m₂ hclazz => ?_)
  obtain ⟨k, rfl, hk⟩ := classObject_of_resolveClassConstant hrecorded hc hclazz
  refine returns_bind (returns_of_ends (fun _ => ends_intern _)) (fun name m₃ hname => ?_)
  refine returns_bind (returns_of_ends (fun _ => ends_intern _)) (fun type m₄ htype => ?_)
  refine returns_bind (returns_of_ends (fun _ => ends_allocate _)) (fun mn m₅ hmn => ?_)
  -- What has been made so far is there when the member is looked up.
  have hlinks : Links env.mute (resolveClassConstant env c r.owner) := by
    rw [← resolveClassConstant_mute]
    exact links_resolveClassConstant c r.owner
  have hlater₃ : ∀ rule, Changes rule m₃ m₅ := fun rule =>
    ((changing_intern r.descriptor).of_run htype).trans
      (changes_of_allocate hmn ⟨rfl, rfl⟩)
  have hlater₂ : ∀ rule, Changes rule m₂ m₅ := fun rule =>
    ((changing_intern r.name).of_run hname).trans (hlater₃ rule)
  have hafter : ∀ rule, Changes rule m₁ m₅ := fun rule =>
    ((changing_of_links hlinks).of_run hclazz).trans (hlater₂ rule)
  -- Its name and type are interned strings, and its class is in the table.
  have hsteady : m₅.Steady := (hafter ClassObjectsKept).steady hm
  have hplaced : m₅.TextsInPlace := (hafter InternedKept).textsInPlace hm.sound.heap htexts
  have hstring : ∀ {text handle}, m₅.strings.find? text = some handle →
      m₅.heap.read handle = .ok (.string text) := fun hfind =>
    (read_eq_ok_iff hsteady.sound.heap).mpr (hplaced _ _ hfind)
  have hfound := (hlater₃ Discipline.free).find?_strings (find?_of_intern hname)
  have hstored : Changes Discipline.free m₄ m₅ := changes_of_allocate hmn ⟨rfl, rfl⟩
  have hfound' := hstored.find?_strings (find?_of_intern htype)
  have hsound₄ : m₄.Sound := by
    have hloaded : Changes Discipline.free m₁ m₂ := (changing_of_links hlinks).of_run hclazz
    have hbefore := hloaded.trans (((changing_intern r.name).of_run hname).trans
      ((changing_intern r.descriptor).of_run htype))
    exact hbefore.sound hm.sound
  have hread := (stored_of_allocate hsound₄ hmn ⟨rfl, rfl⟩).1
  have hspells : m₅.Spells
      { flags := (MemberFlags.make memberKind kind 0).encode
        name := some name
        type := some type
        clazz := some k.classObject } :=
    ⟨rfl, ⟨name, _, rfl, hstring hfound⟩, ⟨type, _, rfl, hstring hfound'⟩,
      ⟨k, rfl, (hlater₂ Discipline.free).get?_classes hk⟩⟩
  refine returns_bind (returns_resolveMemberName hsteady
    ((hafter Discipline.free).get?_classes hc) hread hspells) (fun resolved m₆ _ => ?_)
  cases resolved with
  | some member => exact returns_of_ends (fun _ => ends_allocate _)
  | none => exact returns_fail _

end Linkage
