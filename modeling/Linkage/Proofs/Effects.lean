import Mathlib.Logic.Function.Basic
import Linkage.Proofs.Changes

/-! # Effects of changes

    A change is one of fifteen; what it does to the objects and to the class table
    is one of seven `Effect`s, each with the reason for it. The invariants of the
    heap and of the class table are shown effect by effect. -/

namespace Linkage

open Link

/-- The object behind a handle. -/
def Machine.object? (m : Machine) : Handle → Option Object :=
  m.heap.view.objects

/-- No class object and no member name. -/
def Object.Ordinary (object : Object) : Prop :=
  object.classId? = none ∧ object.memberName? = none

/-- An array is replaced by one of the same length. -/
def Object.SameLength (old new : Object) : Prop :=
  ∀ a, old = .array a → ∃ a', new = .array a' ∧ a'.elements.size = a.elements.size

/-- What a change does to the objects and to the class table. -/
inductive Effect (rule : Discipline) (m m' : Machine) : Prop where
  | kept (objects : m'.object? = m.object?) (classes : m'.classes = m.classes)
  | stored {handle : Handle} {object : Object} (free : m.object? handle = none)
      (objects : m'.object? = Function.update m.object? handle (some object))
      (classes : m'.classes = m.classes) (allowed : object.Plain ∨ rule m (.allocate object))
  | defined {c : Class} (admits : m.classes.Admits c) (free : m.object? c.classObject = none)
      (objects : m'.object? =
        Function.update m.object? c.classObject (some (.classObject m.classes.size)))
      (classes : m'.classes = m.classes.push c)
  | filled {handle : Handle} {old new : MemberName}
      (was : m.object? handle = some (.memberName old)) (fills : m.Fills old new)
      (objects : m'.object? = Function.update m.object? handle (some (.memberName new)))
      (classes : m'.classes = m.classes)
  /-- An array, a method type or a call site is written to. -/
  | amended {handle : Handle} {old new : Object} (was : m.object? handle = some old)
      (ordinary : old.Ordinary ∧ new.Ordinary)
      (objects : m'.object? = Function.update m.object? handle (some new))
      (classes : m'.classes = m.classes) (noString : old.string? = none)
      (sized : old.SameLength new)
  | changed {handle : Handle} {old : Object} {f : Object → Object}
      (was : m.object? handle = some old) (allowed : rule m (.update handle f))
      (objects : m'.object? = Function.update m.object? handle (some (f old)))
      (classes : m'.classes = m.classes)
  | released {handle : Handle} (allowed : rule m (.release handle))
      (objects : m'.object? = Function.update m.object? handle none)
      (classes : m'.classes = m.classes)

variable {rule : Discipline} {m m' : Machine}

/-! ## Heap operations -/

theorem Store.set_objects {α : Type} (s : Store α) (handle : Handle) (object : Option α) :
    (s.set handle object).objects = Function.update s.objects handle object := by
  funext other
  simp [Store.set, Function.update_apply]

/-- Storing an object: there is no room, or it gets a handle that is free. -/
theorem Heap.allocate_cases {α : Type} {heap : Heap α} (hw : heap.WellFormed) (object : α) :
    ((heap.allocate object).1 = none ∧
        (heap.allocate object).2.view.objects = heap.view.objects) ∨
      ∃ handle, (heap.allocate object).1 = some handle ∧ heap.view.objects handle = none ∧
        (heap.allocate object).2.view.objects =
          Function.update heap.view.objects handle (some object) := by
  obtain ⟨h₁, h₂⟩ := Heap.allocate_view hw object
  rw [h₁, h₂]
  unfold Store.allocate
  split
  · exact Or.inl ⟨rfl, rfl⟩
  · exact Or.inr ⟨heap.view.next, rfl, hw.next_dead, Store.set_objects _ _ _⟩

/-- A heap that is full looks the same after it has been asked for room. -/
theorem Heap.view_of_refused {α : Type} {heap heap' : Heap α} (hw : heap.WellFormed) {object : α}
    (h : heap.allocate object = (none, heap')) : heap'.view = heap.view := by
  obtain ⟨hhandle, hview⟩ := Heap.allocate_view hw object
  rw [h] at hhandle hview
  unfold Store.allocate at hhandle hview
  split at hhandle
  · rename_i hfull
    rw [if_pos hfull] at hview
    exact hview
  · cases hhandle

/-- A stored object is behind a handle that was free, and the others are where they were. -/
theorem Heap.allocate_eq_some {α : Type} {heap heap' : Heap α} (hw : heap.WellFormed) {object : α}
    {handle : Handle} (h : heap.allocate object = (some handle, heap')) :
    heap.view.objects handle = none ∧
      heap'.view.objects = Function.update heap.view.objects handle (some object) := by
  rcases Heap.allocate_cases hw object with ⟨hnone, -⟩ | ⟨stored, hsome, hfree, hset⟩
  · rw [h] at hnone
    cases hnone
  · rw [h] at hsome hset
    cases hsome
    exact ⟨hfree, hset⟩

/-- Changing an object: the handle is free, or the object behind it is another one. -/
theorem update_object?_cases (hw : m.heap.WellFormed) (handle : Handle) (f : Object → Object) :
    m.object? handle = none ∧ (Link.update handle f m).2.object? = m.object? ∨
      ∃ old, m.object? handle = some old ∧ (Link.update handle f m).2.object? =
        Function.update m.object? handle (some (f old)) := by
  have hview : (Link.update handle f m).2.heap.view = (m.heap.view.update handle f).2 := by
    rw [update_machine]
    exact (Heap.update_view hw handle f).2
  unfold Machine.object?
  rw [hview]
  unfold Store.update
  cases hold : m.heap.view.objects handle with
  | none => exact Or.inl ⟨rfl, rfl⟩
  | some old => exact Or.inr ⟨old, rfl, Store.set_objects _ _ _⟩

theorem read_eq_ok_iff (hw : m.heap.WellFormed) {handle : Handle} {object : Object} :
    m.heap.read handle = .ok object ↔ m.object? handle = some object :=
  Heap.read_eq_ok_iff hw handle object

/-- The object that an update finds is the one that was read. -/
theorem update_object?_of_read (hw : m.heap.WellFormed) {handle : Handle} {old : Object}
    (hread : m.heap.read handle = .ok old) (f : Object → Object) :
    m.object? handle = some old ∧ (Link.update handle f m).2.object? =
      Function.update m.object? handle (some (f old)) := by
  have hold := (read_eq_ok_iff hw).mp hread
  refine ⟨hold, ?_⟩
  rcases update_object?_cases hw handle f with ⟨hfree, _⟩ | ⟨old', hold', hset⟩
  · rw [hold] at hfree
    cases hfree
  · rw [hold, Option.some.injEq] at hold'
    rw [hset, hold']

/-- Storing an object succeeds if the heap is not full. -/
theorem allocate_outcome (hw : m.heap.WellFormed) (object : Object) :
    (m.heap.config.capacity ≤ m.heap.live ∧
      ∃ m', Link.allocate object m = (.error (.thrown .outOfMemory), m')) ∨
    ∃ handle heap, Link.allocate object m = (.ok handle, { m with heap }) ∧ heap.WellFormed ∧
      heap.config.capacity = m.heap.config.capacity ∧ heap.live = m.heap.live + 1 ∧
      heap.read handle = .ok object := by
  have hw' := Heap.wellFormed_allocate hw object
  obtain ⟨hhandle, hview⟩ := Heap.allocate_view hw object
  unfold Link.allocate
  cases hheap : m.heap.allocate object with
  | mk stored heap =>
    rw [hheap] at hw' hhandle hview
    dsimp only at hw' hhandle hview
    unfold Store.allocate at hhandle hview
    -- The heap and its view agree on when it is full.
    by_cases hfull : m.heap.view.capacity ≤ m.heap.view.live
    · rw [if_pos hfull] at hhandle
      subst hhandle
      exact Or.inl ⟨hfull, _, rfl⟩
    · rw [if_neg hfull] at hhandle hview
      subst hhandle
      refine Or.inr ⟨_, heap, rfl, hw', congrArg Store.capacity hview,
        congrArg Store.live hview, ?_⟩
      rw [Heap.read_eq_ok_iff hw', hview]
      exact Store.set_objects_self _ _ _

/-- Changing an object leaves the other objects alone. -/
theorem update_of_read (hw : m.heap.WellFormed) {handle : Handle} {object : Object}
    (hread : m.heap.read handle = .ok object) (f : Object → Object) :
    ∃ heap, Link.update handle f m = (.ok (), { m with heap }) ∧
      heap.read handle = .ok (f object) ∧
      ∀ other o, other ≠ handle → m.heap.read other = .ok o → heap.read other = .ok o := by
  have hobject := (Heap.read_eq_ok_iff hw handle _).mp hread
  obtain ⟨hresult, hview⟩ := Heap.update_view hw handle f
  have hw' := Heap.wellFormed_update hw handle f
  unfold Store.update at hresult hview
  rw [hobject] at hresult hview
  rw [update_run]
  cases hupdate : m.heap.update handle f with
  | mk result heap =>
    rw [hupdate] at hresult hview hw'
    dsimp only at hresult hview
    subst hresult
    -- The update is one of the view, where objects other than that of the handle stay.
    refine ⟨heap, rfl, ?_, ?_⟩
    · rw [Heap.read_eq_ok_iff hw', hview]
      exact Store.set_objects_self _ _ _
    · intro other o hne hother
      rw [Heap.read_eq_ok_iff hw', hview, Store.set_objects, Function.update_of_ne hne]
      exact (Heap.read_eq_ok_iff hw other o).mp hother

/-! ## Ordinary objects -/

/-- Writing to arrays leaves other objects as they are. -/
theorem Object.mapElements_ordinary {g : Array (Option Handle) → Array (Option Handle)}
    (sized : ∀ elements, (g elements).size = elements.size) (object : Object) :
    Object.mapElements g object = object ∨
      (object.Ordinary ∧ (Object.mapElements g object).Ordinary) ∧ object.string? = none ∧
        object.SameLength (Object.mapElements g object) := by
  cases object with
  | array a =>
    refine Or.inr ⟨⟨⟨rfl, rfl⟩, rfl, rfl⟩, rfl, ?_⟩
    rintro _ ⟨rfl⟩
    exact ⟨_, rfl, sized _⟩
  | _ => exact Or.inl rfl

theorem Object.setDescriptor_ordinary (text : Handle) (object : Object) :
    Object.setDescriptor text object = object ∨
      (object.Ordinary ∧ (Object.setDescriptor text object).Ordinary) ∧ object.string? = none ∧
        object.SameLength (Object.setDescriptor text object) := by
  cases object with
  | methodType t => exact Or.inr ⟨⟨⟨rfl, rfl⟩, rfl, rfl⟩, rfl, fun _ h => by cases h⟩
  | _ => exact Or.inl rfl

/-- An update that leaves strings and all but ordinary objects as they are. -/
theorem effect_of_ordinary (hw : m.heap.WellFormed) (handle : Handle) {f : Object → Object}
    (hf : ∀ o, f o = o ∨
      (o.Ordinary ∧ (f o).Ordinary) ∧ o.string? = none ∧ o.SameLength (f o)) :
    Effect rule m (Link.update handle f m).2 := by
  have hclasses : (Link.update handle f m).2.classes = m.classes := by rw [update_machine]
  rcases update_object?_cases hw handle f with ⟨_, hkept⟩ | ⟨old, hold, hset⟩
  · exact .kept hkept hclasses
  · rcases hf old with hsame | ⟨hordinary, hstring, hsized⟩
    · refine .kept ?_ hclasses
      rw [hset, hsame, ← hold, Function.update_eq_self]
    · exact .amended hold hordinary hset hclasses hstring hsized

/-! ## The effect of a change -/

/-- Nothing but the heap was touched, and it looks as before. -/
theorem effect_of_view_eq (hview : m'.heap.view = m.heap.view) (hclasses : m'.classes = m.classes) :
    Effect rule m m' :=
  .kept (by unfold Machine.object?; rw [hview]) hclasses

theorem effect_allocate (hw : m.heap.WellFormed) {object : Object}
    (allowed : object.Plain ∨ rule m (.allocate object)) :
    Effect rule m (Link.allocate object m).2 := by
  rw [allocate_run]
  rcases Heap.allocate_cases hw object with ⟨_, hkept⟩ | ⟨handle, _, hfree, hset⟩
  · exact .kept hkept rfl
  · exact .stored hfree hset rfl allowed

theorem intern_cases (text : String) (m : Machine) :
    (Link.intern text m).2 = m ∨
      (Link.intern text m).2.heap = (m.heap.allocate (.string text)).2 ∧
        (Link.intern text m).2.classes = m.classes ∧
        (Link.intern text m).2.members = m.members := by
  unfold Link.intern StringPool.intern
  cases hfind : m.strings.find? text with
  | some handle => exact Or.inl rfl
  | none =>
    cases hheap : m.heap.allocate (.string text) with
    | mk stored heap =>
      cases stored <;> exact Or.inr ⟨rfl, rfl, rfl⟩

theorem effect_intern (hw : m.heap.WellFormed) (text : String) :
    Effect rule m (Link.intern text m).2 := by
  rcases intern_cases text m with hsame | ⟨hheap, hclasses, _⟩
  · rw [hsame]
    exact .kept rfl rfl
  · rcases Heap.allocate_cases hw (.string text) with ⟨_, hkept⟩ | ⟨handle, _, hfree, hset⟩
    · exact .kept (by unfold Machine.object?; rw [hheap]; exact hkept) hclasses
    · have hplain : (Object.string text).Plain := trivial
      exact .stored hfree (by unfold Machine.object?; rw [hheap]; exact hset) hclasses
        (Or.inl hplain)

/-- Every change of a machine with a well-formed heap has one of the effects. -/
theorem Change.effect (hw : m.heap.WellFormed) (h : Change rule m m') : Effect rule m m' := by
  cases h with
  | allocate object allowed => exact effect_allocate hw allowed
  | update handle f allowed =>
    have hclasses : (Link.update handle f m).2.classes = m.classes := by rw [update_machine]
    rcases update_object?_cases hw handle f with ⟨_, hkept⟩ | ⟨old, hold, hset⟩
    · exact .kept hkept hclasses
    · exact .changed hold allowed hset hclasses
  | release handle allowed =>
    rw [release_run]
    have hview := (Heap.release_view hw handle).2
    unfold Store.release at hview
    -- Releasing a handle without an object changes nothing.
    cases hold : m.heap.view.objects handle with
    | none =>
      rw [hold] at hview
      exact effect_of_view_eq hview rfl
    | some old =>
      rw [hold] at hview
      refine .released allowed ?_ rfl
      show (m.heap.release handle).2.view.objects = _
      rw [hview]
      exact Store.set_objects _ _ _
  | collectGarbage => exact effect_of_view_eq (Heap.view_relocate m.heap) rfl
  | intern text => exact effect_intern hw text
  | identify member => exact .kept rfl rfl
  | remember slot value _ => exact .kept rfl rfl
  | recordCall call => exact .kept rfl rfl
  | loading names => exact .kept rfl rfl
  | fill read fills =>
    obtain ⟨hold, hset⟩ := update_object?_of_read hw read (fun _ => .memberName _)
    exact .filled hold fills hset (by rw [update_machine])
  | setElements handle g sized =>
    exact effect_of_ordinary hw handle (Object.mapElements_ordinary sized)
  | setDescriptor handle text =>
    exact effect_of_ordinary hw handle (Object.setDescriptor_ordinary text)
  | setTarget target read =>
    obtain ⟨hold, hset⟩ := update_object?_of_read hw read (fun _ => .callSite target)
    exact .amended hold ⟨⟨rfl, rfl⟩, rfl, rfl⟩ hset (by rw [update_machine]) rfl
      (fun _ h => by cases h)
  | @define c heap admits stored =>
    obtain ⟨hfree, hset⟩ := Heap.allocate_eq_some hw stored
    exact .defined admits hfree hset rfl
  | refuse object full => exact effect_of_view_eq (Heap.view_of_refused hw full) rfl

/-! ## The heap stays well formed -/

theorem Change.wellFormed (h : Change rule m m') (hw : m.heap.WellFormed) :
    m'.heap.WellFormed := by
  cases h with
  | allocate object _ => rw [allocate_run]; exact Heap.wellFormed_allocate hw object
  | update handle f _ => rw [update_machine]; exact Heap.wellFormed_update hw handle f
  | release handle _ => rw [release_run]; exact Heap.wellFormed_release hw handle
  | collectGarbage => exact Heap.wellFormed_relocate hw
  | intern text =>
    rcases intern_cases text m with hsame | ⟨hheap, _, _⟩
    · rw [hsame]; exact hw
    · rw [hheap]; exact Heap.wellFormed_allocate hw _
  | identify member => exact hw
  | remember slot value _ => exact hw
  | recordCall call => exact hw
  | loading names => exact hw
  | fill _ _ => rw [update_machine]; exact Heap.wellFormed_update hw _ _
  | setElements handle g _ => rw [update_machine]; exact Heap.wellFormed_update hw _ _
  | setDescriptor handle text => rw [update_machine]; exact Heap.wellFormed_update hw _ _
  | setTarget target _ => rw [update_machine]; exact Heap.wellFormed_update hw _ _
  | define _ stored =>
    have hw' := Heap.wellFormed_allocate hw (.classObject m.classes.size)
    rw [stored] at hw'
    exact hw'
  | refuse object full =>
    have hw' := Heap.wellFormed_allocate hw object
    rw [full] at hw'
    exact hw'

/-! ## Identities stay -/

theorem MemberRegistry.get?_identify_of_get? {r : MemberRegistry} {id : Nat} {member : MemberRef}
    (h : r.get? id = some member) (other : MemberRef) :
    (r.identify other).2.get? id = some member := by
  rcases r.identify_cases other with ⟨_, _, he⟩ | ⟨_, he⟩
  · rw [he]
    exact h
  · rw [he]
    cases id with
    | zero => cases h
    | succ i =>
      simp only [MemberRegistry.get?, MemberRegistry.push] at h ⊢
      obtain ⟨hi, hmember⟩ := Array.getElem?_eq_some_iff.mp h
      rw [Array.getElem?_push_lt hi, hmember]

/-- A member has an identity exactly if asking for it changes nothing. -/
theorem MemberRegistry.identify_eq_self_iff {r : MemberRegistry} {id : Nat} {member : MemberRef} :
    r.identify member = (id, r) ↔ r.ids.lookup member = some id := by
  rcases r.identify_cases member with ⟨id', hid, he⟩ | ⟨hnew, he⟩
  · rw [he, hid, Prod.mk.injEq, Option.some.injEq]
    exact and_iff_left rfl
  · -- The member would be added, and the registry would not be the same.
    rw [hnew, he]
    constructor
    · intro h
      have hsize := congrArg (fun p => p.2.members.size) h
      simp [MemberRegistry.push] at hsize
    · intro h
      cases h

/-- A member that has an identity keeps it. -/
theorem MemberRegistry.identify_of_identify {r : MemberRegistry} {id : Nat} {member : MemberRef}
    (h : r.identify member = (id, r)) (other : MemberRef) :
    (r.identify other).2.identify member = (id, (r.identify other).2) := by
  rw [MemberRegistry.identify_eq_self_iff] at h ⊢
  rcases r.identify_cases other with ⟨_, _, he⟩ | ⟨hnew, he⟩
  · rw [he]
    exact h
  · -- The other member is new, so it is not this one.
    have hne : (member == other) = false := by
      rw [beq_eq_false_iff_ne]
      rintro rfl
      rw [h] at hnew
      cases hnew
    rw [he]
    simp only [MemberRegistry.push, List.lookup_cons, hne]
    exact h

theorem MemberRegistry.identify_identify (r : MemberRegistry) (member : MemberRef) :
    (r.identify member).2.identify member = ((r.identify member).1, (r.identify member).2) := by
  rw [MemberRegistry.identify_eq_self_iff]
  rcases r.identify_cases member with ⟨id, hid, he⟩ | ⟨_, he⟩
  · rw [he]
    exact hid
  · rw [he]
    simp [MemberRegistry.push]

/-- A change leaves the registry alone or asks it for the identity of a member. -/
theorem Change.members_cases (h : Change rule m m') :
    m'.members = m.members ∨ ∃ other, m'.members = (m.members.identify other).2 := by
  cases h with
  | identify other => exact Or.inr ⟨other, rfl⟩
  | allocate object _ => rw [allocate_run]; exact Or.inl rfl
  | release handle _ => rw [release_run]; exact Or.inl rfl
  | intern text =>
    rcases intern_cases text m with hsame | ⟨_, _, hmembers⟩
    · rw [hsame]; exact Or.inl rfl
    · exact Or.inl hmembers
  | update handle f _ => rw [update_machine]; exact Or.inl rfl
  | fill _ _ => rw [update_machine]; exact Or.inl rfl
  | setElements handle g _ => rw [update_machine]; exact Or.inl rfl
  | setDescriptor handle text => rw [update_machine]; exact Or.inl rfl
  | setTarget target _ => rw [update_machine]; exact Or.inl rfl
  | _ => exact Or.inl rfl

theorem Change.member_kept (h : Change rule m m') {id : Nat} {member : MemberRef}
    (hid : m.members.get? id = some member) : m'.members.get? id = some member := by
  rcases h.members_cases with he | ⟨other, he⟩
  · rw [he]
    exact hid
  · rw [he]
    exact MemberRegistry.get?_identify_of_get? hid other

theorem Changes.identify_kept (h : Changes rule m m') {id : Nat} {member : MemberRef}
    (hid : m.members.identify member = (id, m.members)) :
    m'.members.identify member = (id, m'.members) := by
  refine h.keeps (P := fun m => m.members.identify member = (id, m.members)) ?_ hid
  intro m₁ m₂ hchange hm₁
  rcases hchange.members_cases with he | ⟨other, he⟩
  · rw [he]
    exact hm₁
  · rw [he]
    exact MemberRegistry.identify_of_identify hm₁ other

end Linkage
