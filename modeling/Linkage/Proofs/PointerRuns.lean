import Linkage.Proofs.HeapRuns

/-! # Pointers into a moving heap

    A pointer is an address and a count of relocations that wraps around, and handles are
    given out again. Still a pointer never leads to another object than the one it was
    taken for.

    * `Heap.use` performs a call, by handle or by pointer, and says what has happened. A
      history is a list of such events, the latest one in front.
    * An object is known by its place in the history: `denoted` is the object that a handle
      stands for, `pointee` the one that a pointer was taken for, and `contents` what was
      last stored in an object. None of them looks at addresses.
    * `Heap.Step` is what one call does to the heap.
    * `Heap.Follows`: what a heap has in common with its history.
    * `Pursues`: until the next relocation, the address of a pointer is the one of its
      object, and an empty cell once the object has been released. -/

namespace Linkage

variable {α : Type}

/-! ## Calls and events -/

/-- What a client asks of a heap, through handles or pointers. -/
inductive PointerCall (α : Type) where
  | plain (call : HeapCall α)
  | resolve (handle : Handle)
  | readAt (p : Pointer)
  | updateAt (p : Pointer) (f : α → α)

/-- What has happened on a heap. -/
inductive PointerEvent (α : Type) where
  | stored (handle : Handle) (object : α)
  /-- The heap was full. -/
  | refused
  | released (handle : Handle)
  | relocated
  | took (handle : Handle) (p : Pointer)
  | changed (handle : Handle) (f : α → α)
  | changedAt (p : Pointer) (f : α → α)
  /-- A read, or a fault: the heap is as it was. -/
  | idle

/-- What the answer to a call says about the heap. -/
def PointerEvent.ofAnswer : HeapCall α → HeapAnswer α → PointerEvent α
  | .allocate object, .allocated handle => .stored handle object
  | .allocate _, _ => .refused
  | .release handle, .done => .released handle
  | .relocate, _ => .relocated
  | .write handle f, .done => .changed handle f
  | _, _ => .idle

/-- The heap after a call, with what has happened. -/
def Heap.use (h : Heap α) : PointerCall α → PointerEvent α × Heap α
  | .plain call => (.ofAnswer call (h.perform call).1, (h.perform call).2)
  | .resolve handle =>
      match h.resolve handle with
      | .ok p => (.took handle p, h)
      | .error _ => (.idle, h)
  | .readAt _ => (.idle, h)
  | .updateAt p f =>
      match h.updateAt p f with
      | (.ok (), h') => (.changedAt p f, h')
      | (.error _, h') => (.idle, h')

/-! ## Objects of a history -/

/-- The object that a handle stands for. Objects are numbered by the events before their
    allocation. -/
def denoted : List (PointerEvent α) → Handle → Option Nat
  | [], _ => none
  | .stored new _ :: earlier, handle =>
      if handle = new then some earlier.length else denoted earlier handle
  | .released old :: earlier, handle => if handle = old then none else denoted earlier handle
  | _ :: earlier, handle => denoted earlier handle

/-- The object that a pointer was last taken for. -/
def pointee : List (PointerEvent α) → Pointer → Option Nat
  | [], _ => none
  | .took handle q :: earlier, p => if p = q then denoted earlier handle else pointee earlier p
  | _ :: earlier, p => pointee earlier p

/-- What was last stored in an object. -/
def contents : List (PointerEvent α) → Nat → Option α
  | [], _ => none
  | .stored _ object :: earlier, id =>
      if id = earlier.length then some object else contents earlier id
  | .changed handle f :: earlier, id =>
      if denoted earlier handle = some id then (contents earlier id).map f
      else contents earlier id
  | .changedAt p f :: earlier, id =>
      if pointee earlier p = some id then (contents earlier id).map f else contents earlier id
  | _ :: earlier, id => contents earlier id

/-- The object has been released in the later part of a history. -/
def ReleasedSince (earlier : List (PointerEvent α)) (id : Nat) : List (PointerEvent α) → Prop
  | [] => False
  | .released handle :: later =>
      denoted (later ++ earlier) handle = some id ∨ ReleasedSince earlier id later
  | _ :: later => ReleasedSince earlier id later

/-- The allocations of a history, those refused included. -/
def attempts : List (PointerEvent α) → Nat
  | [] => 0
  | .stored _ _ :: earlier => attempts earlier + 1
  | .refused :: earlier => attempts earlier + 1
  | _ :: earlier => attempts earlier

/-- The relocations that come with the n-th allocation. -/
def HeapConfig.due (config : HeapConfig) (n : Nat) : Nat :=
  if config.relocateEvery ≠ 0 ∧ config.relocateEvery ∣ n then 1 else 0

/-- The relocations of a history, on request and on allocation. -/
def relocations (config : HeapConfig) : List (PointerEvent α) → Nat
  | [] => 0
  | .relocated :: earlier => relocations config earlier + 1
  | .stored _ _ :: earlier => relocations config earlier + config.due (attempts earlier + 1)
  | .refused :: earlier => relocations config earlier + config.due (attempts earlier + 1)
  | _ :: earlier => relocations config earlier

/-- The pointer through which an object was changed. -/
def PointerEvent.pointer? : PointerEvent α → Option Pointer
  | .changedAt p _ => some p
  | _ => none

/-- The runs of a client that changes objects only through pointers it has taken. -/
inductive PointerRun (config : HeapConfig) : List (PointerEvent α) → Heap α → Prop where
  | start : PointerRun config [] (Heap.empty config)
  | step {history : List (PointerEvent α)} {h : Heap α} (before : PointerRun config history h)
      (call : PointerCall α)
      (taken : ∀ p ∈ (h.use call).1.pointer?, (pointee history p).isSome) :
      PointerRun config ((h.use call).1 :: history) (h.use call).2

theorem relocations_le_cons (config : HeapConfig) (event : PointerEvent α)
    (history : List (PointerEvent α)) :
    relocations config history ≤ relocations config (event :: history) := by
  cases event <;> simp [relocations]

theorem relocations_le_append (config : HeapConfig) (later earlier : List (PointerEvent α)) :
    relocations config earlier ≤ relocations config (later ++ earlier) := by
  induction later with
  | nil => exact Nat.le_refl _
  | cons event later ih =>
    exact Nat.le_trans ih (relocations_le_cons config event (later ++ earlier))

/-- Objects come from the past. -/
theorem denoted_lt {history : List (PointerEvent α)} {handle : Handle} {id : Nat}
    (h : denoted history handle = some id) : id < history.length := by
  induction history with
  | nil => cases h
  | cons event history ih =>
    -- The newest object has the length of the history before it as its number.
    rw [List.length_cons]
    cases event with
    | stored new object =>
      rw [denoted] at h
      split at h
      · cases h
        exact Nat.lt_succ_self _
      · exact Nat.lt_succ_of_lt (ih h)
    | released old =>
      rw [denoted] at h
      split at h
      · cases h
      · exact Nat.lt_succ_of_lt (ih h)
    | _ => exact Nat.lt_succ_of_lt (ih h)

/-- Two handles stand for two objects. -/
theorem denoted_inj {history : List (PointerEvent α)} {i j : Handle} {id : Nat}
    (hi : denoted history i = some id) (hj : denoted history j = some id) : i = j := by
  induction history with
  | nil => cases hi
  | cons event history ih =>
    cases event with
    | stored new object =>
      -- The number of the new object is the length of the history, which no older one has.
      rw [denoted] at hi hj
      split at hi <;> split at hj
      · simp_all
      · have hlt := denoted_lt hj
        simp_all
      · have hlt := denoted_lt hi
        simp_all
      · exact ih hi hj
    | released old =>
      rw [denoted] at hi hj
      split at hi
      · cases hi
      · split at hj
        · cases hj
        · exact ih hi hj
    | _ => exact ih hi hj

/-- A pointer with an object has been taken for it at some time. -/
theorem took_of_pointee {history : List (PointerEvent α)} {p : Pointer} {id : Nat}
    (h : pointee history p = some id) :
    ∃ later earlier handle, history = later ++ .took handle p :: earlier ∧
      denoted earlier handle = some id := by
  induction history with
  | nil => cases h
  | cons event history ih =>
    -- Unless this event took the pointer, the object comes from the events before it.
    have hmore (hearlier : pointee history p = some id) :
        ∃ later earlier handle, event :: history = later ++ .took handle p :: earlier ∧
          denoted earlier handle = some id := by
      obtain ⟨later, earlier, handle, rfl, hdenoted⟩ := ih hearlier
      exact ⟨event :: later, earlier, handle, rfl, hdenoted⟩
    cases event with
    | took handle q =>
      rw [pointee] at h
      split at h
      · rename_i hsame
        subst hsame
        exact ⟨[], history, handle, rfl, h⟩
      · exact hmore h
    | _ => exact hmore h

namespace Heap

variable {h h' : Heap α} {event : PointerEvent α} {config : HeapConfig}
  {history later earlier : List (PointerEvent α)}

/-! ## Steps -/

/-- What a call does to a heap. -/
inductive Step (h : Heap α) : PointerEvent α → Heap α → Prop where
  | stored (object : α) : Step h (.stored h.tick.view.next object) (h.tick.store object).2
  | refused : Step h .refused h.tick
  | released {handle : Handle} {a : Nat} (place : h.table[handle.index]? = some (some a)) :
      Step h (.released handle) (h.release handle).2
  | relocated : Step h .relocated h.relocate
  | took {handle : Handle} {a : Nat} (place : h.table[handle.index]? = some (some a)) :
      Step h (.took handle { address := a, epoch := h.epoch }) h
  | changed {handle : Handle} {a : Nat} {object : α}
      (place : h.table[handle.index]? = some (some a)) (cell : h.cells[a]? = some (some object))
      (f : α → α) :
      Step h (.changed handle f) { h with cells := h.cells.modify a (Option.map f) }
  | changedAt {p : Pointer} {object : α} (current : p.epoch = h.epoch)
      (cell : h.cells[p.address]? = some (some object)) (f : α → α) :
      Step h (.changedAt p f) { h with cells := h.cells.modify p.address (Option.map f) }
  | idle : Step h .idle h

/-- A pointer is good for an object as long as the heap has not relocated and the cell is
    occupied. -/
theorem readAt_eq_ok_iff (h : Heap α) (p : Pointer) (object : α) :
    h.readAt p = .ok object ↔ p.epoch = h.epoch ∧ h.cells[p.address]? = some (some object) := by
  rw [← cell?_eq_some_iff]
  unfold readAt
  by_cases hepoch : p.epoch = h.epoch
  · cases hcell : h.cell? p.address <;> simp [hepoch]
  · simp [hepoch]

theorem updateAt_of_readAt {p : Pointer} {object : α} (hread : h.readAt p = .ok object)
    (f : α → α) :
    h.updateAt p f = (.ok (), { h with cells := h.cells.modify p.address (Option.map f) }) := by
  simp only [updateAt, hread]

theorem updateAt_of_fault {p : Pointer} {cause : Fault} (hread : h.readAt p = .error cause)
    (f : α → α) : h.updateAt p f = (.error cause, h) := by
  simp only [updateAt, hread]

theorem step_use (hw : h.WellFormed) (call : PointerCall α) :
    h.Step (h.use call).1 (h.use call).2 := by
  cases call with
  -- The calls of the heap itself, then those that go through pointers.
  | plain call =>
    cases call with
    | allocate object =>
      simp only [use, perform, allocate]
      by_cases hfull : h.tick.config.capacity ≤ h.tick.live
      · rw [if_pos hfull]
        exact .refused
      · rw [if_neg hfull]
        show h.Step (.stored (h.tick.store object).1 object) _
        rw [store_handle]
        exact .stored object
    | release handle =>
      simp only [use, perform]
      cases ha : h.address? handle with
      | none =>
        rw [release_dead ha]
        exact .idle
      | some a =>
        have place := (address?_eq_some_iff h handle a).mp ha
        have hok : (h.release handle).1 = .ok () := by rw [release_live place]
        rw [hok]
        exact .released place
    | relocate => exact .relocated
    | read handle =>
      simp only [use, perform]
      cases h.read handle <;> exact .idle
    | write handle f =>
      simp only [use, perform]
      obtain ⟨-, he⟩ | ⟨a, object, place, cell, he⟩ := update_cases hw handle f
      · rw [he]
        exact .idle
      · rw [he]
        exact .changed place cell f
  | resolve handle =>
    simp only [use]
    cases ha : h.address? handle with
    | none =>
      rw [resolve_eq_error ha]
      exact .idle
    | some a =>
      rw [resolve_eq_ok ha]
      exact .took ((address?_eq_some_iff h handle a).mp ha)
  | readAt p => exact .idle
  | updateAt p f =>
    simp only [use]
    cases hread : h.readAt p with
    | error cause =>
      rw [updateAt_of_fault hread]
      exact .idle
    | ok object =>
      obtain ⟨current, cell⟩ := (readAt_eq_ok_iff h p object).mp hread
      rw [updateAt_of_readAt hread]
      exact .changedAt current cell f

/-! ## The heap and its history -/

/-- An allocation relocates if it is one on which the heap does. -/
theorem tick_eq (h : Heap α) :
    h.tick =
      if h.config.due (h.allocations + 1) = 0 then { h with allocations := h.allocations + 1 }
      else { h with allocations := h.allocations + 1 }.relocate := by
  unfold tick HeapConfig.due
  by_cases hdue : h.config.relocateEvery ≠ 0 ∧ h.config.relocateEvery ∣ h.allocations + 1
  · rw [if_pos hdue, if_neg one_ne_zero]
    exact if_pos (by simpa [Nat.dvd_iff_mod_eq_zero] using hdue)
  · rw [if_neg hdue, if_pos rfl]
    exact if_neg (by simpa [Nat.dvd_iff_mod_eq_zero] using hdue)

theorem tick_allocations (h : Heap α) : h.tick.allocations = h.allocations + 1 := by
  rw [tick_eq]
  split <;> rfl

theorem tick_epoch (h : Heap α) :
    h.tick.epoch = h.epoch + UInt32.ofNat (h.config.due (h.allocations + 1)) := by
  rw [tick_eq]
  unfold HeapConfig.due
  split_ifs <;> simp_all [relocate]

theorem tick_object? (h : Heap α) : h.tick.object? = h.object? :=
  congrArg Store.objects (view_tick h)

theorem store_epoch (h : Heap α) (object : α) : (h.store object).2.epoch = h.epoch := by
  unfold store
  cases h.free <;> rfl

theorem store_allocations (h : Heap α) (object : α) :
    (h.store object).2.allocations = h.allocations := by
  unfold store
  cases h.free <;> rfl

/-- What a heap has in common with its history. -/
structure Follows (config : HeapConfig) (history : List (PointerEvent α)) (h : Heap α) : Prop
    extends h.WellFormed where
  config_eq : h.config = config
  allocations_eq : h.allocations = attempts history
  epoch_eq : h.epoch = UInt32.ofNat (relocations config history)
  /-- The handles with an object are those that stand for one. -/
  isSome_eq : ∀ handle, (h.object? handle).isSome = (denoted history handle).isSome

namespace Follows

theorem empty (config : HeapConfig) : Follows config [] (Heap.empty config : Heap α) where
  toWellFormed := wellFormed_empty config
  config_eq := rfl
  allocations_eq := rfl
  epoch_eq := rfl
  isSome_eq := by intro handle; simp [Heap.empty, object?, address?, denoted]

/-- An event that neither allocates nor releases, with what is left to say about it. -/
theorem cons (hf : Follows config history h) (hw : h'.WellFormed)
    (hdenoted : denoted (event :: history) = denoted history)
    (hconfig : h'.config = h.config)
    (hallocations : h'.allocations = attempts (event :: history))
    (hepoch : h'.epoch = UInt32.ofNat (relocations config (event :: history)))
    (hsome : ∀ handle, (h'.object? handle).isSome = (h.object? handle).isSome) :
    Follows config (event :: history) h' where
  toWellFormed := hw
  config_eq := hconfig.trans hf.config_eq
  allocations_eq := hallocations
  epoch_eq := hepoch
  isSome_eq := by
    intro handle
    rw [hsome, hdenoted, hf.isSome_eq]

theorem tick (hf : Follows config history h) :
    h.tick.epoch =
      UInt32.ofNat (relocations config history + config.due (attempts history + 1)) := by
  rw [tick_epoch, hf.epoch_eq, hf.config_eq, hf.allocations_eq, UInt32.ofNat_add]

theorem step (hf : Follows config history h) (hstep : h.Step event h') :
    Follows config (event :: history) h' := by
  have hw := hf.toWellFormed
  cases hstep with
  -- Only allocations tick, so only these two cases have to count relocations that are due.
  | stored object =>
    have hwt := wellFormed_tick hw
    refine ⟨wellFormed_store hwt object, ?_, ?_, ?_, ?_⟩
    · rw [store_config, tick_config, hf.config_eq]
    · rw [store_allocations, tick_allocations, hf.allocations_eq]
      rfl
    · rw [store_epoch]
      exact hf.tick
    · intro handle
      rw [store_object? hwt, denoted, tick_object?]
      split
      · rfl
      · exact hf.isSome_eq handle
  | refused =>
    refine hf.cons (wellFormed_tick hw) rfl (tick_config h) ?_ hf.tick ?_
    · rw [tick_allocations, hf.allocations_eq]
      rfl
    · intro handle
      rw [tick_object?]
  | @released handle a place =>
    have hobject := release_object? hw place
    have hw' := wellFormed_release hw handle
    rw [release_live place] at hobject hw' ⊢
    refine ⟨hw', hf.config_eq, hf.allocations_eq, hf.epoch_eq, ?_⟩
    intro other
    rw [hobject, denoted]
    split
    · rfl
    · exact hf.isSome_eq other
  | relocated =>
    refine hf.cons (wellFormed_relocate hw) rfl rfl hf.allocations_eq ?_ ?_
    · show h.epoch + 1 = _
      rw [hf.epoch_eq, relocations, UInt32.ofNat_add]
      rfl
    · intro handle
      rw [relocate_object?]
  | took place => exact hf.cons hw rfl rfl hf.allocations_eq hf.epoch_eq (fun _ => rfl)
  | @changed handle a object place cell f =>
    refine hf.cons (wellFormed_modify hw a f) rfl rfl hf.allocations_eq hf.epoch_eq ?_
    intro other
    rw [object?_modify]
    split <;> simp
  | @changedAt p object current cell f =>
    -- New contents make no handle live or dead.
    refine hf.cons (wellFormed_modify hw p.address f) rfl rfl hf.allocations_eq hf.epoch_eq ?_
    intro other
    rw [object?_modify]
    split <;> simp
  | idle => exact hf.cons hw rfl rfl hf.allocations_eq hf.epoch_eq (fun _ => rfl)

/-- A handle with an address stands for an object. -/
theorem denoted_of_place (hf : Follows config history h) {handle : Handle} {a : Nat}
    (place : h.table[handle.index]? = some (some a)) : ∃ id, denoted history handle = some id := by
  obtain ⟨object, cell⟩ := hf.occupied place
  have hobject := (object?_eq_some_iff h handle object).mpr ⟨a, place, cell⟩
  have hsome := hf.isSome_eq handle
  rw [hobject] at hsome
  exact Option.isSome_iff_exists.mp hsome.symm

end Follows

end Heap

open Heap

variable {config : HeapConfig} {history later earlier : List (PointerEvent α)} {h : Heap α}

theorem PointerRun.follows (run : PointerRun config history h) : h.Follows config history := by
  induction run with
  | start => exact Follows.empty config
  | step before call taken ih => exact ih.step (step_use ih.toWellFormed call)

/-- The step that the latest event has been. -/
theorem PointerRun.step_of_cons {event : PointerEvent α}
    (run : PointerRun config (event :: history) h) :
    ∃ h₀ : Heap α, PointerRun config history h₀ ∧ h₀.Step event h := by
  cases run with
  | step before call taken =>
    exact ⟨_, before, step_use before.follows.toWellFormed call⟩

/-! ## Pointers -/

/-- The address that a pointer has, after the events `later` since it was taken for an object:
    it is the one of the object, or no object is there any more. -/
inductive Pursues (base : List (PointerEvent α)) (handle : Handle) (p : Pointer) (id : Nat)
    (later : List (PointerEvent α)) (h : Heap α) : Prop where
  | alive (place : h.table[handle.index]? = some (some p.address))
      (same : denoted (later ++ base) handle = some id) (kept : ¬ ReleasedSince base id later)
  | gone (released : ReleasedSince base id later)
      (lost : ∀ other, denoted (later ++ base) other ≠ some id)
      (empty : h.cells[p.address]? = some none)

namespace Pursues

variable {base : List (PointerEvent α)} {handle : Handle} {p : Pointer} {id : Nat} {h₀ : Heap α}
  {event : PointerEvent α}

/-- An event that neither stores nor releases an object, and moves none. -/
theorem cons (hp : Pursues base handle p id later h₀)
    (hdenoted : denoted (event :: (later ++ base)) = denoted (later ++ base))
    (hreleased : ReleasedSince base id (event :: later) ↔ ReleasedSince base id later)
    (htable : h.table = h₀.table)
    (hempty : h₀.cells[p.address]? = some none → h.cells[p.address]? = some none) :
    Pursues base handle p id (event :: later) h := by
  cases hp with
  | alive place same kept =>
    refine .alive ?_ ?_ (mt hreleased.mp kept)
    · rw [htable]
      exact place
    · exact (congrFun hdenoted handle).trans same
  | gone released lost empty =>
    refine .gone (hreleased.mpr released) ?_ (hempty empty)
    intro other hother
    exact lost other ((congrFun hdenoted other).symm.trans hother)

/-- A new object gets an address and a number of its own. -/
theorem store (hp : Pursues base handle p id later h₀) (hw : h₀.WellFormed)
    (hid : id < (later ++ base).length) (object : α) :
    Pursues base handle p id (.stored h₀.view.next object :: later) (h₀.store object).2 := by
  cases hp with
  | alive place same kept =>
    -- The handle has an address, and the next one has none yet.
    have hne : handle ≠ h₀.view.next := by
      rintro rfl
      have hdead := (hw.object?_eq_none_iff _).mp hw.next_dead
      rw [(address?_eq_some_iff h₀ _ p.address).mpr place] at hdead
      cases hdead
    have hindex : handle.index ≠ h₀.view.next.index := fun he => hne (congrArg Handle.mk he)
    refine .alive ?_ ((if_neg hne).trans same) kept
    rw [store_entry h₀ hw, if_neg hindex]
    exact place
  | gone released lost empty =>
    refine .gone released ?_ ?_
    · intro other hother
      rw [List.cons_append, denoted] at hother
      -- The new object has a higher number than the lost one.
      split at hother
      · cases hother
        exact Nat.lt_irrefl _ hid
      · exact lost other hother
    · -- Cells are only added at the end, so the empty cell stays empty.
      have hlt : p.address < h₀.cells.size := (Array.getElem?_eq_some_iff.mp empty).1
      rw [store_cells, Array.getElem?_push, if_neg (Nat.ne_of_lt hlt)]
      exact empty

/-- The cell of a released object is empty, and no other cell is touched. -/
theorem release (hp : Pursues base handle p id later h₀) (hw : h₀.WellFormed) {old : Handle}
    {a : Nat} (place : h₀.table[old.index]? = some (some a)) :
    Pursues base handle p id (.released old :: later) (h₀.release old).2 := by
  obtain ⟨object, cell⟩ := hw.occupied place
  have hlt : a < h₀.cells.size := (Array.getElem?_eq_some_iff.mp cell).1
  rw [release_live place]
  cases hp with
  | alive hplace same kept =>
    -- The object is released through its own handle, which no other object has.
    by_cases hsame : handle = old
    · subst hsame
      rw [hplace, Option.some.injEq, Option.some.injEq] at place
      subst place
      refine .gone (.inl same) ?_ (by simp [hlt])
      intro other hother
      rw [List.cons_append, denoted] at hother
      split at hother
      · cases hother
      · rename_i hne
        exact hne (denoted_inj hother same)
    · refine .alive ?_ ((if_neg hsame).trans same) ?_
      · rw [release_entry place, if_neg (fun he => hsame (congrArg Handle.mk he))]
        exact hplace
      · rintro (hold | hreleased)
        · exact hsame (denoted_inj same hold)
        · exact kept hreleased
  | gone released lost empty =>
    refine .gone (.inr released) ?_ ?_
    · intro other hother
      rw [List.cons_append, denoted] at hother
      split at hother
      · cases hother
      · exact lost other hother
    · rw [Array.getElem?_setIfInBounds]
      split
      · simp_all
      · exact empty

/-- As long as the heap does not relocate, the address stays the one of the object, until the
    object is released. -/
theorem step (hp : Pursues base handle p id later h₀) (hf : h₀.Follows config (later ++ base))
    (hid : id < (later ++ base).length) (hstep : h₀.Step event h)
    (hstill : relocations config (event :: (later ++ base)) = relocations config (later ++ base)) :
    Pursues base handle p id (event :: later) h := by
  have hticked (hdue : relocations config (later ++ base) +
      config.due (attempts (later ++ base) + 1) = relocations config (later ++ base)) :
      Pursues base handle p id later h₀.tick := by
    -- The allocation does not come with a relocation.
    rw [tick_eq, hf.config_eq, hf.allocations_eq, if_pos (Nat.add_eq_left.mp hdue)]
    cases hp with
    | alive place same kept => exact .alive place same kept
    | gone released lost empty => exact .gone released lost empty
  cases hstep with
  | stored object => exact (hticked hstill).store (wellFormed_tick hf.toWellFormed) hid object
  | refused => exact (hticked hstill).cons rfl Iff.rfl rfl (fun he => he)
  | released place => exact hp.release hf.toWellFormed place
  | relocated => exact absurd hstill (Nat.succ_ne_self _)
  | took place => exact hp.cons rfl Iff.rfl rfl (fun he => he)
  | @changed target a object place cell f =>
    refine hp.cons rfl Iff.rfl rfl (fun he => ?_)
    simp [Array.getElem?_modify, he]
  | @changedAt q object current cell f =>
    refine hp.cons rfl Iff.rfl rfl (fun he => ?_)
    simp [Array.getElem?_modify, he]
  | idle => exact hp.cons rfl Iff.rfl rfl (fun he => he)

end Pursues

/-- A pointer that was taken has the number of relocations of that time and, until the next
    one, the address of the object that its handle stood for. -/
theorem PointerRun.pursues {handle : Handle} {p : Pointer}
    (run : PointerRun config (later ++ .took handle p :: earlier) h) :
    ∃ id, denoted earlier handle = some id ∧
      p.epoch = UInt32.ofNat (relocations config earlier) ∧
      (relocations config (later ++ .took handle p :: earlier) = relocations config earlier →
        Pursues (.took handle p :: earlier) handle p id later h) := by
  induction later generalizing h with
  | nil =>
    obtain ⟨h₀, before, hstep⟩ := run.step_of_cons
    cases hstep with
    | took place =>
      obtain ⟨id, hid⟩ := before.follows.denoted_of_place place
      exact ⟨id, hid, before.follows.epoch_eq, fun _ => .alive place hid (fun hf => hf)⟩
  | cons event later ih =>
    obtain ⟨h₀, before, hstep⟩ := run.step_of_cons
    obtain ⟨id, hid, hepoch, hpursues⟩ := ih before
    refine ⟨id, hid, hepoch, ?_⟩
    intro hstill
    -- Relocations only become more, so that there has been none before the event either.
    have hle₁ := relocations_le_append config later (.took handle p :: earlier)
    have hle₂ := relocations_le_cons config event (later ++ .took handle p :: earlier)
    have hbase : relocations config (.took handle p :: earlier) = relocations config earlier := rfl
    have hpast : id < (later ++ .took handle p :: earlier).length := by
      have hlt := denoted_lt hid
      simp only [List.length_append, List.length_cons]
      omega
    rw [List.cons_append] at hstill
    exact (hpursues (by omega)).step before.follows hpast hstep (by omega)

/-- The count of relocations in a pointer tells whether the heap has relocated, as long as it
    has not wrapped around. -/
theorem PointerRun.current_iff {handle : Handle} {p : Pointer}
    (run : PointerRun config (later ++ .took handle p :: earlier) h)
    (bound : relocations config (later ++ .took handle p :: earlier) < 2 ^ 32) :
    p.epoch = h.epoch ↔
      relocations config (later ++ .took handle p :: earlier) = relocations config earlier := by
  obtain ⟨id, -, hepoch, -⟩ := run.pursues
  have hle := relocations_le_append config later (.took handle p :: earlier)
  have hbase : relocations config (.took handle p :: earlier) = relocations config earlier := rfl
  rw [hepoch, run.follows.epoch_eq]
  constructor
  · intro heq
    have hearlier : relocations config earlier < 2 ^ 32 := by omega
    have hcount := congrArg UInt32.toNat heq
    rw [UInt32.toNat_ofNat_of_lt' hearlier, UInt32.toNat_ofNat_of_lt' bound] at hcount
    exact hcount.symm
  · intro heq
    rw [heq]

/-! ## Contents -/

theorem contents_of_change {handle target : Handle} {id a : Nat} {object : α}
    (hw : h.WellFormed) (hid : denoted history handle = some id)
    (hobject : h.object? handle = contents history id)
    (place : h.table[target.index]? = some (some a)) (cell : h.cells[a]? = some (some object))
    (f : α → α) :
    { h with cells := h.cells.modify a (Option.map f) }.object? handle =
      if denoted history target = some id then (contents history id).map f
      else contents history id := by
  rw [modify_object? hw place cell]
  by_cases hsame : handle = target
  · subst hsame
    rw [if_pos rfl, if_pos hid, ← hobject,
      (object?_eq_some_iff h handle object).mpr ⟨a, place, cell⟩]
    rfl
  · rw [if_neg hsame, if_neg (fun ht => hsame (denoted_inj hid ht)), hobject]

/-- The object behind a handle has the contents that the history says. -/
theorem PointerRun.object?_eq (run : PointerRun config history h)
    (bound : relocations config history < 2 ^ 32) {handle : Handle} {id : Nat}
    (hid : denoted history handle = some id) : h.object? handle = contents history id := by
  induction run generalizing handle id with
  | start => cases hid
  | @step history h₀ before call taken ih =>
    have hw := before.follows.toWellFormed
    have hle := relocations_le_cons config (h₀.use call).1 history
    have hold := @ih (Nat.lt_of_le_of_lt hle bound)
    have hstep := step_use hw call
    generalize (h₀.use call).1 = event at *
    generalize (h₀.use call).2 = h at *
    cases hstep with
    | stored object =>
      rw [store_object? (wellFormed_tick hw), tick_object?]
      rw [denoted] at hid
      rw [contents]
      split at hid
      · rename_i hnew
        cases hid
        rw [if_pos hnew, if_pos rfl]
      · rename_i hnew
        rw [if_neg hnew, if_neg (Nat.ne_of_lt (denoted_lt hid))]
        exact hold hid
    | refused =>
      rw [tick_object?]
      exact hold hid
    | released place =>
      rw [release_object? hw place]
      rw [denoted] at hid
      split at hid
      · cases hid
      · rename_i hother
        rw [if_neg hother]
        exact hold hid
    | relocated =>
      rw [relocate_object?]
      exact hold hid
    | took place => exact hold hid
    | changed place cell f =>
      have hid' : denoted history handle = some id := hid
      exact contents_of_change hw hid' (hold hid') place cell f
    | @changedAt p object current cell f =>
      obtain ⟨t, ht⟩ := Option.isSome_iff_exists.mp (taken p rfl)
      obtain ⟨later, earlier, target, rfl, htarget⟩ := took_of_pointee ht
      -- The pointer is current, and its cell is not empty: its object is still there.
      obtain ⟨t', ht', -, hpursues⟩ := before.pursues
      obtain rfl : t' = t := Option.some.inj (ht'.symm.trans htarget)
      have hstill := (before.current_iff (Nat.lt_of_le_of_lt hle bound)).mp current
      cases hpursues hstill with
      | alive place same kept =>
        have hid' : denoted (later ++ .took target p :: earlier) handle = some id := hid
        rw [contents, ht, ← same]
        exact contents_of_change hw hid' (hold hid') place cell f
      | gone released lost empty =>
        rw [empty] at cell
        cases cell
    | idle => exact hold hid

/-- An update through a pointer changes what is behind the handle with its address. -/
theorem read_modify {handle : Handle} {a : Nat} {object : α} (hw : h.WellFormed)
    (place : h.table[handle.index]? = some (some a)) (cell : h.cells[a]? = some (some object))
    (f : α → α) (other : Handle) :
    { h with cells := h.cells.modify a (Option.map f) }.read other =
      if other = handle then .ok (f object) else h.read other := by
  have hobject := modify_object? hw place cell f other
  rw [read_view (wellFormed_modify hw a f), read_view hw]
  unfold Store.read view
  dsimp only
  rw [hobject]
  by_cases hsame : other = handle
  · rw [if_pos hsame, if_pos hsame]
  · rw [if_neg hsame, if_neg hsame]

/-! ## Main result -/

/-- The heap has relocated, or the object has been released, in the later part of a history. -/
def Outdated (config : HeapConfig) (earlier later : List (PointerEvent α)) (id : Nat) : Prop :=
  relocations config earlier < relocations config (later ++ earlier) ∨
    ReleasedSince earlier id later

/-- What a pointer that was taken for a handle leads to: the object that the handle stood for,
    or a fault if the pointer is outdated. -/
theorem PointerRun.readAt_cases {handle : Handle} {p : Pointer}
    (run : PointerRun config (later ++ .took handle p :: earlier) h)
    (bound : relocations config (later ++ .took handle p :: earlier) < 2 ^ 32) :
    ∃ id, denoted earlier handle = some id ∧
      ((Outdated config (.took handle p :: earlier) later id ∧ ∃ cause, h.readAt p = .error cause) ∨
        (¬ Outdated config (.took handle p :: earlier) later id ∧
          denoted (later ++ .took handle p :: earlier) handle = some id ∧
          h.table[handle.index]? = some (some p.address) ∧
          ∃ object, contents (later ++ .took handle p :: earlier) id = some object ∧
            h.readAt p = .ok object)) := by
  obtain ⟨id, hid, hepoch, hpursues⟩ := run.pursues
  have hle := relocations_le_append config later (.took handle p :: earlier)
  have hbase : relocations config (.took handle p :: earlier) = relocations config earlier := rfl
  have hcurrent := run.current_iff bound
  refine ⟨id, hid, ?_⟩
  -- Without a relocation, the address tells whether the object is still there.
  by_cases hstill :
      relocations config (later ++ .took handle p :: earlier) = relocations config earlier
  · cases hpursues hstill with
    | alive place same kept =>
      obtain ⟨object, cell⟩ := run.follows.occupied place
      have hobject := run.object?_eq bound same
      rw [(object?_eq_some_iff h handle object).mpr ⟨_, place, cell⟩] at hobject
      refine .inr ⟨?_, same, place, object, hobject.symm, ?_⟩
      · rintro (hmoved | hreleased)
        · omega
        · exact kept hreleased
      · exact (readAt_eq_ok_iff h p object).mpr ⟨hcurrent.mpr hstill, cell⟩
    | gone released lost empty =>
      refine .inl ⟨.inr released, ?_⟩
      cases hread : h.readAt p with
      | error cause => exact ⟨cause, rfl⟩
      | ok object =>
        have hcell := ((readAt_eq_ok_iff h p object).mp hread).2
        rw [empty] at hcell
        cases hcell
  · refine .inl ⟨.inl (by omega), .stalePointer, ?_⟩
    exact if_pos (mt hcurrent.mp hstill)

/-- A pointer that was taken for a handle leads to the object that the handle stood for at that
    time, or nowhere. Access through it faults, and leaves the heap as it is, if and only if
    the heap has relocated since or that object has been released since, whatever the handle
    stands for now. Otherwise reading gives the present contents of the object, and an update
    changes what is behind the handle of this object and behind no other.
    The addresses of the heap do not wrap around, so that only relocations are bounded. -/
theorem pointers_never_confused {handle : Handle} {p : Pointer}
    (run : PointerRun config history h) (bound : relocations config history < 2 ^ 32)
    (taken : history = later ++ .took handle p :: earlier) :
    ∃ id, denoted earlier handle = some id ∧
      ((∃ cause, h.readAt p = .error cause) ↔
        Outdated config (.took handle p :: earlier) later id) ∧
      (∀ f, (∃ cause, h.updateAt p f = (.error cause, h)) ↔
        Outdated config (.took handle p :: earlier) later id) ∧
      (¬ Outdated config (.took handle p :: earlier) later id →
        ∃ object, contents history id = some object ∧ h.readAt p = .ok object ∧
          ∀ f, ∃ h', h.updateAt p f = (.ok (), h') ∧ ∀ other, h'.read other =
            if denoted history other = some id then .ok (f object) else h.read other) := by
  subst taken
  have hw := run.follows.toWellFormed
  obtain ⟨id, hid, ⟨houtdated, cause, hread⟩ | ⟨hvalid, hsame, place, object, hcontents, hread⟩⟩ :=
    run.readAt_cases bound
  · -- Outdated: both kinds of access fault.
    refine ⟨id, hid, ⟨fun _ => houtdated, fun _ => ⟨cause, hread⟩⟩, ?_, absurd houtdated⟩
    intro f
    exact ⟨fun _ => houtdated, fun _ => ⟨cause, updateAt_of_fault hread f⟩⟩
  · -- Still valid: neither faults, and the contents are those of the history.
    refine ⟨id, hid, ⟨?_, fun ho => absurd ho hvalid⟩, ?_, ?_⟩
    · rintro ⟨cause, hfault⟩
      rw [hread] at hfault
      cases hfault
    · intro f
      refine ⟨?_, fun ho => absurd ho hvalid⟩
      rintro ⟨cause, hfault⟩
      rw [updateAt_of_readAt hread] at hfault
      cases hfault
    · intro _
      refine ⟨object, hcontents, hread, ?_⟩
      intro f
      refine ⟨_, updateAt_of_readAt hread f, ?_⟩
      intro other
      -- The update is seen through the handle of the object, which is still the one that was taken.
      have hhandle : denoted (later ++ .took handle p :: earlier) other = some id ↔
          other = handle :=
        ⟨fun ho => denoted_inj ho hsame, fun ho => ho ▸ hsame⟩
      rw [read_modify hw place ((readAt_eq_ok_iff h p object).mp hread).2]
      simp only [hhandle]

/-- A handle that is released and given out again, with a pointer for each of its objects. -/
def sampleReuse : List (PointerEvent Nat) :=
  [.changedAt ⟨1, 0⟩ (· + 1), .took ⟨0⟩ ⟨1, 0⟩, .stored ⟨0⟩ 20, .released ⟨0⟩,
    .took ⟨0⟩ ⟨0, 0⟩, .stored ⟨0⟩ 10]

/-- The old pointer is outdated, and the new one leads to the new object. -/
theorem reused_handle_not_confused :
    ∃ h : Heap Nat, PointerRun {} sampleReuse h ∧ relocations {} sampleReuse < 2 ^ 32 ∧
      (∃ cause, h.readAt ⟨0, 0⟩ = .error cause) ∧
      denoted sampleReuse ⟨0⟩ = some 3 ∧ contents sampleReuse 3 = some 21 ∧
      h.readAt ⟨1, 0⟩ = .ok 21 := by
  obtain ⟨h, run⟩ : ∃ h, PointerRun {} sampleReuse h := by
    -- Store, take a pointer, release; then the same handle and another cell.
    have fresh : PointerRun (α := Nat) {} [] _ := .start
    have released := ((fresh.step (.plain (.allocate 10)) (by rintro _ ⟨⟩)).step
      (.resolve ⟨0⟩) (by rintro _ ⟨⟩)).step (.plain (.release ⟨0⟩)) (by rintro _ ⟨⟩)
    exact ⟨_, ((released.step (.plain (.allocate 20)) (by rintro _ ⟨⟩)).step
      (.resolve ⟨0⟩) (by rintro _ ⟨⟩)).step (.updateAt ⟨1, 0⟩ (· + 1)) (by rintro _ ⟨⟩; rfl)⟩
  have bound : relocations {} sampleReuse < 2 ^ 32 := by decide
  have old : sampleReuse =
      [.changedAt ⟨1, 0⟩ (· + 1), .took ⟨0⟩ ⟨1, 0⟩, .stored ⟨0⟩ 20, .released ⟨0⟩] ++
        .took ⟨0⟩ ⟨0, 0⟩ :: [.stored ⟨0⟩ 10] := rfl
  have new : sampleReuse = [.changedAt ⟨1, 0⟩ (· + 1)] ++ .took ⟨0⟩ ⟨1, 0⟩ ::
      [.stored ⟨0⟩ 20, .released ⟨0⟩, .took ⟨0⟩ ⟨0, 0⟩, .stored ⟨0⟩ 10] := rfl
  obtain ⟨first, hfirst, hfault, -⟩ := pointers_never_confused run bound old
  obtain ⟨second, hsecond, -, -, hread⟩ := pointers_never_confused run bound new
  obtain rfl : 0 = first := Option.some.inj hfirst
  obtain rfl : 3 = second := Option.some.inj hsecond
  obtain ⟨object, hcontents, hobject, -⟩ := hread (by
    -- Nothing has relocated or been released since the second pointer was taken.
    rintro (hmoved | hreleased)
    · exact Nat.lt_irrefl _ hmoved
    · exact hreleased)
  obtain rfl : 21 = object := Option.some.inj hcontents
  exact ⟨h, run, bound, hfault.mpr (.inr (.inl rfl)), rfl, rfl, hobject⟩

end Linkage
