import Linkage.Heap.Basic

/-! # The heap as a finite map

    What clients see of a heap through handles is a `Store`: which object each
    handle stands for, and what decides the next handle. Addresses, epochs and
    relocations are not part of it.

    * `Heap.WellFormed`: live handles have different addresses of occupied cells,
      and the handles to give out again are not live.
    * Every operation on a well-formed heap is the operation of the same name on
      its store, and leaves the heap well-formed.
    * Relocation does not change the store. -/

namespace Linkage

/-! ## Stores -/

/-- A heap without addresses. -/
structure Store (α : Type) where
  capacity : Nat
  /-- Number of handles that have been given out. -/
  size : Nat
  /-- The handles to give out again, the next one in front. -/
  free : List Nat
  /-- Number of live objects. -/
  live : Nat
  /-- The object behind each handle. -/
  objects : Handle → Option α

namespace Store

variable {α : Type}

/-- The store with another object behind one handle. -/
def set (s : Store α) (handle : Handle) (object : Option α) : Store α :=
  { s with objects := fun other => if other = handle then object else s.objects other }

/-- The handle that the next object gets. -/
def next (s : Store α) : Handle :=
  ⟨s.free.headD s.size⟩

/-- Store an object under the next handle; `none` if the store is full. -/
def allocate (s : Store α) (object : α) : Option Handle × Store α :=
  if s.capacity ≤ s.live then (none, s)
  else
    (some s.next,
      { s.set s.next (some object) with
        size := if s.free.isEmpty then s.size + 1 else s.size
        free := s.free.tail
        live := s.live + 1 })

/-- The object behind a handle. -/
def read (s : Store α) (handle : Handle) : Except Heap.Fault α :=
  match s.objects handle with
  | some object => .ok object
  | none => .error .danglingHandle

/-- Change the object behind a handle. -/
def update (s : Store α) (handle : Handle) (f : α → α) : Except Heap.Fault Unit × Store α :=
  match s.objects handle with
  | some object => (.ok (), s.set handle (some (f object)))
  | none => (.error .danglingHandle, s)

/-- Give up the object behind a handle. -/
def release (s : Store α) (handle : Handle) : Except Heap.Fault Unit × Store α :=
  match s.objects handle with
  | some _ =>
      (.ok (),
        { s.set handle none with
          free := handle.index :: s.free
          live := s.live - 1 })
  | none => (.error .danglingHandle, s)

@[simp] theorem set_objects_self (s : Store α) (handle : Handle) (object : Option α) :
    (s.set handle object).objects handle = object := by
  simp [set]

end Store

namespace Heap

variable {α : Type}

/-! ## Well-formed heaps -/

/-- The object behind a handle, if the handle is live. -/
def object? (h : Heap α) (handle : Handle) : Option α :=
  (h.address? handle).bind h.cell?

/-- What clients see of a heap. -/
def view (h : Heap α) : Store α :=
  { capacity := h.config.capacity
    size := h.table.size
    free := h.free
    live := h.live
    objects := h.object? }

/-- The heap keeps apart what its handles stand for. -/
structure WellFormed (h : Heap α) : Prop where
  /-- A live handle has an object. -/
  occupied : ∀ {i a : Nat}, h.table[i]? = some (some a) → ∃ o, h.cells[a]? = some (some o)
  /-- Two live handles do not share an address. -/
  distinct : ∀ {i j a : Nat}, h.table[i]? = some (some a) → h.table[j]? = some (some a) → i = j
  /-- A free handle was given out and is not live. -/
  dead : ∀ {i : Nat}, i ∈ h.free → h.table[i]? = some none
  /-- A handle is free once. -/
  nodup : h.free.Nodup

theorem address?_eq_some_iff (h : Heap α) (handle : Handle) (a : Nat) :
    h.address? handle = some a ↔ h.table[handle.index]? = some (some a) := by
  simp [address?, Option.join_eq_some_iff]

theorem cell?_eq_some_iff (h : Heap α) (a : Nat) (o : α) :
    h.cell? a = some o ↔ h.cells[a]? = some (some o) := by
  simp [cell?, Option.join_eq_some_iff]

theorem object?_eq_some_iff (h : Heap α) (handle : Handle) (o : α) :
    h.object? handle = some o ↔
      ∃ a, h.table[handle.index]? = some (some a) ∧ h.cells[a]? = some (some o) := by
  simp [object?, Option.bind_eq_some_iff, address?_eq_some_iff, cell?_eq_some_iff]

namespace WellFormed

variable {h : Heap α}

/-- A handle without an object has no address. -/
theorem object?_eq_none_iff (hw : h.WellFormed) (handle : Handle) :
    h.object? handle = none ↔ h.address? handle = none := by
  constructor
  · intro hn
    cases ha : h.address? handle with
    | none => rfl
    | some a =>
      obtain ⟨o, ho⟩ := hw.occupied ((address?_eq_some_iff h handle a).mp ha)
      have hs : h.object? handle = some o :=
        (object?_eq_some_iff h handle o).mpr ⟨a, (address?_eq_some_iff h handle a).mp ha, ho⟩
      rw [hs] at hn
      contradiction
  · intro ha
    simp [object?, ha]

/-- The next handle is not live. -/
theorem next_dead (hw : h.WellFormed) : h.view.objects h.view.next = none := by
  show h.object? h.view.next = none
  rw [hw.object?_eq_none_iff]
  unfold address? Store.next view
  cases hf : h.free with
  | nil => simp
  | cons i rest =>
    have hi : h.table[i]? = some none := hw.dead (by rw [hf]; exact List.mem_cons_self)
    simp [hi]

end WellFormed

theorem wellFormed_empty (config : HeapConfig) : (Heap.empty config : Heap α).WellFormed where
  occupied := by intro i a hi; simp [empty] at hi
  distinct := by intro i j a hi; simp [empty] at hi
  dead := by intro i hi; simp [empty] at hi
  nodup := by simp [empty]

/-! ## Relocation -/

/-- What relocation has made of the last handles of the table. -/
structure Moved (old : Array (Option α)) (entries : List (Option Nat))
    (moved : Array (Option α) × List (Option Nat)) : Prop where
  length : moved.2.length = entries.length
  bound : ∀ {i a : Nat}, moved.2[i]? = some (some a) → a < moved.1.size
  distinct : ∀ {i j a : Nat}, moved.2[i]? = some (some a) → moved.2[j]? = some (some a) → i = j
  none_iff : ∀ i : Nat, moved.2[i]? = some none ↔ entries[i]? = some none
  cell : ∀ {i a b : Nat}, entries[i]? = some (some a) → moved.2[i]? = some (some b) →
    moved.1[b]? = some (old[a]?).join

theorem moved_nil (old : Array (Option α)) : Moved old [] (#[], []) where
  length := rfl
  bound := by intro i a hi; simp at hi
  distinct := by intro i j a hi; simp at hi
  none_iff := by intro i; simp
  cell := by intro i a b hi; simp at hi

section Front

variable {old : Array (Option α)} {entries : List (Option Nat)}
  {moved : Array (Option α) × List (Option Nat)}

/-- A handle in front that stands for no object moves nothing. -/
theorem moved_cons_none (hm : Moved old entries moved) :
    Moved old (none :: entries) (moveEntry old none moved) where
  length := by simp [moveEntry, hm.length]
  bound := by
    intro i a hi
    cases i with
    | zero => simp [moveEntry] at hi
    | succ i => exact hm.bound (by simpa [moveEntry] using hi)
  distinct := by
    intro i j a hi hj
    cases i <;> cases j <;> simp only [moveEntry, List.getElem?_cons_zero,
      List.getElem?_cons_succ, Option.some.injEq, reduceCtorEq] at hi hj
    exact congrArg Nat.succ (hm.distinct hi hj)
  none_iff := by
    intro i
    cases i with
    | zero => simp [moveEntry]
    | succ i => simpa [moveEntry] using hm.none_iff i
  cell := by
    intro i a b ha hb
    cases i with
    | zero => simp at ha
    | succ i => exact hm.cell (by simpa using ha) (by simpa [moveEntry] using hb)

/-- The object of a handle in front gets the number of the cells so far as its address,
    which no other handle has. -/
theorem moved_cons_some (hm : Moved old entries moved) (address : Nat) :
    Moved old (some address :: entries) (moveEntry old (some address) moved) where
  length := by simp [moveEntry, hm.length]
  bound := by
    intro i a hi
    cases i with
    | zero =>
      simp only [moveEntry, List.getElem?_cons_zero, Option.some.injEq] at hi
      subst hi
      simp [moveEntry]
    | succ i =>
      have hlt := hm.bound (i := i) (by simpa [moveEntry] using hi)
      simp only [moveEntry, Array.size_push]
      omega
  distinct := by
    have hfront : ∀ {j : Nat}, moved.2[j]? ≠ some (some moved.1.size) :=
      fun hj => Nat.lt_irrefl _ (hm.bound hj)
    intro i j a hi hj
    cases i <;> cases j <;> simp only [moveEntry, List.getElem?_cons_zero,
      List.getElem?_cons_succ, Option.some.injEq] at hi hj
    · rfl
    · exact absurd (hi ▸ hj) hfront
    · exact absurd (hj ▸ hi) hfront
    · exact congrArg Nat.succ (hm.distinct hi hj)
  none_iff := by
    intro i
    cases i with
    | zero => simp [moveEntry]
    | succ i => simpa [moveEntry] using hm.none_iff i
  cell := by
    intro i a b ha hb
    cases i with
    | zero =>
      simp only [moveEntry, List.getElem?_cons_zero, Option.some.injEq] at ha hb
      subst ha hb
      simp [moveEntry]
    | succ i =>
      -- The old cells stay in front of the new one.
      have hb' : moved.2[i]? = some (some b) := by simpa [moveEntry] using hb
      simp only [moveEntry]
      rw [Array.getElem?_push, if_neg (Nat.ne_of_lt (hm.bound hb'))]
      exact hm.cell (by simpa using ha) hb'

end Front

theorem moved_foldr (old : Array (Option α)) (entries : List (Option Nat)) :
    Moved old entries (entries.foldr (moveEntry old) (#[], [])) := by
  induction entries with
  | nil => exact moved_nil old
  | cons entry entries ih =>
    cases entry with
    | none => exact moved_cons_none ih
    | some address => exact moved_cons_some ih address

/-- After relocation the handles are those of before. -/
theorem relocate_moved (h : Heap α) :
    Moved h.cells h.table.toList (h.relocate.cells, h.relocate.table.toList) := by
  have hm := moved_foldr h.cells h.table.toList
  simpa [relocate] using hm

theorem relocate_entry_some (h : Heap α) {i b : Nat}
    (hi : h.relocate.table[i]? = some (some b)) :
    ∃ a, h.table[i]? = some (some a) ∧ h.relocate.cells[b]? = some (h.cells[a]?).join := by
  have hm := relocate_moved h
  have hi' : h.relocate.table.toList[i]? = some (some b) := by simpa using hi
  -- The two tables have the same length, and the same entries are empty.
  have hlt : i < h.table.toList.length := by
    have := (List.getElem?_eq_some_iff.mp hi').1
    rwa [hm.length] at this
  cases he : h.table.toList[i]? with
  | none => rw [List.getElem?_eq_none_iff] at he; omega
  | some entry =>
    cases entry with
    | none =>
      have := (hm.none_iff i).mpr he
      rw [hi'] at this
      simp at this
    | some a => exact ⟨a, by simpa using he, hm.cell he hi'⟩

theorem relocate_entry_of_some (h : Heap α) {i a : Nat} (hi : h.table[i]? = some (some a)) :
    ∃ b, h.relocate.table[i]? = some (some b) ∧
      h.relocate.cells[b]? = some (h.cells[a]?).join := by
  have hm := relocate_moved h
  have hi' : h.table.toList[i]? = some (some a) := by simpa using hi
  -- As above, in the other direction.
  have hlt : i < h.relocate.table.toList.length := by
    rw [hm.length]
    exact (List.getElem?_eq_some_iff.mp hi').1
  cases he : h.relocate.table.toList[i]? with
  | none => rw [List.getElem?_eq_none_iff] at he; omega
  | some entry =>
    cases entry with
    | none =>
      have := (hm.none_iff i).mp he
      rw [hi'] at this
      simp at this
    | some b => exact ⟨b, by simpa using he, hm.cell hi' he⟩

theorem relocate_table_size (h : Heap α) : h.relocate.table.size = h.table.size := by
  simpa using (relocate_moved h).length

theorem relocate_object? (h : Heap α) (handle : Handle) :
    h.relocate.object? handle = h.object? handle := by
  apply Option.ext
  intro o
  rw [object?_eq_some_iff, object?_eq_some_iff]
  constructor
  · rintro ⟨b, hb, hcell⟩
    obtain ⟨a, ha, hmoved⟩ := relocate_entry_some h hb
    refine ⟨a, ha, ?_⟩
    rw [hcell, Option.some.injEq] at hmoved
    exact Option.join_eq_some_iff.mp hmoved.symm
  · rintro ⟨a, ha, hcell⟩
    obtain ⟨b, hb, hmoved⟩ := relocate_entry_of_some h ha
    exact ⟨b, hb, by rw [hmoved, hcell]; rfl⟩

theorem wellFormed_relocate {h : Heap α} (hw : h.WellFormed) : h.relocate.WellFormed where
  occupied := by
    intro i b hb
    obtain ⟨a, ha, hmoved⟩ := relocate_entry_some h hb
    obtain ⟨o, ho⟩ := hw.occupied ha
    exact ⟨o, by rw [hmoved, ho]; rfl⟩
  distinct := by
    intro i j b hi hj
    exact (relocate_moved h).distinct (by simpa using hi) (by simpa using hj)
  dead := by
    intro i hi
    have hd := (relocate_moved h).none_iff i
    simp only [Array.getElem?_toList] at hd
    exact hd.mpr (hw.dead hi)
  nodup := hw.nodup

/-- Relocation is invisible. -/
theorem view_relocate (h : Heap α) : h.relocate.view = h.view := by
  have ho : h.relocate.object? = h.object? := funext (relocate_object? h)
  unfold view
  rw [relocate_table_size, ho]
  rfl

/-- Counting an allocation may relocate. -/
theorem tick_cases (h : Heap α) :
    h.tick = { h with allocations := h.allocations + 1 } ∨
      h.tick = { h with allocations := h.allocations + 1 }.relocate := by
  unfold tick
  dsimp only
  split
  · exact Or.inr rfl
  · exact Or.inl rfl

theorem wellFormed_tick {h : Heap α} (hw : h.WellFormed) : h.tick.WellFormed := by
  have hw' : { h with allocations := h.allocations + 1 }.WellFormed :=
    ⟨hw.occupied, hw.distinct, hw.dead, hw.nodup⟩
  rcases tick_cases h with he | he
  · rw [he]; exact hw'
  · rw [he]; exact wellFormed_relocate hw'

theorem view_tick (h : Heap α) : h.tick.view = h.view := by
  rcases tick_cases h with he | he
  · rw [he]; rfl
  · rw [he, view_relocate]; rfl

/-! ## Storing -/

/-- The table after an object was stored. -/
theorem store_entry (h : Heap α) (hw : h.WellFormed) (o : α) (i : Nat) :
    (h.store o).2.table[i]? =
      if i = h.view.next.index then some (some h.cells.size) else h.table[i]? := by
  unfold store Store.next view
  cases hf : h.free with
  | nil =>
    simp only [List.headD_nil]
    rw [Array.getElem?_push]
    rfl
  | cons j rest =>
    -- A free handle has no address, and it is inside the table.
    have hj : h.table[j]? = some none := hw.dead (by rw [hf]; exact List.mem_cons_self)
    have hlt : j < h.table.size := (Array.getElem?_eq_some_iff.mp hj).1
    simp only [List.headD_cons]
    rw [Array.getElem?_setIfInBounds]
    by_cases hij : i = j
    · subst hij; simp [hlt]
    · simp [hij, Ne.symm hij]

theorem store_cells (h : Heap α) (o : α) : (h.store o).2.cells = h.cells.push (some o) := by
  unfold store
  cases h.free <;> rfl

theorem store_handle (h : Heap α) (o : α) : (h.store o).1 = h.view.next := by
  unfold store Store.next view
  cases h.free <;> rfl

theorem store_free (h : Heap α) (o : α) : (h.store o).2.free = h.free.tail := by
  unfold store
  cases h.free with
  | nil => rfl
  | cons => rfl

/-- A stored object is behind the next handle; the others are where they were. -/
theorem store_object? {h : Heap α} (hw : h.WellFormed) (o : α) (handle : Handle) :
    (h.store o).2.object? handle = if handle = h.view.next then some o else h.object? handle := by
  apply Option.ext
  intro x
  rw [object?_eq_some_iff]
  simp only [store_entry h hw o, store_cells]
  by_cases hn : handle = h.view.next
  · subst hn
    simp
  · have hi : handle.index ≠ h.view.next.index := fun he => hn (by cases handle; simp_all)
    simp only [hi, if_false, hn]
    rw [object?_eq_some_iff]
    constructor
    · rintro ⟨a, ha, hx⟩
      -- Old addresses are below the number of cells, where the new object is.
      obtain ⟨y, hy⟩ := hw.occupied ha
      have hlt : a < h.cells.size := (Array.getElem?_eq_some_iff.mp hy).1
      rw [Array.getElem?_push, if_neg (by omega)] at hx
      exact ⟨a, ha, hx⟩
    · rintro ⟨a, ha, hx⟩
      have hlt : a < h.cells.size := (Array.getElem?_eq_some_iff.mp hx).1
      exact ⟨a, ha, by rw [Array.getElem?_push, if_neg (by omega)]; exact hx⟩

theorem wellFormed_store {h : Heap α} (hw : h.WellFormed) (o : α) :
    (h.store o).2.WellFormed where
  occupied := by
    intro i a hi
    rw [store_entry h hw o] at hi
    rw [store_cells]
    split at hi
    · simp only [Option.some.injEq] at hi
      subst hi
      exact ⟨o, by simp⟩
    · obtain ⟨x, hx⟩ := hw.occupied hi
      have hlt : a < h.cells.size := (Array.getElem?_eq_some_iff.mp hx).1
      exact ⟨x, by rw [Array.getElem?_push, if_neg (by omega)]; exact hx⟩
  distinct := by
    intro i j a hi hj
    -- The address of the new object is past those of the old ones.
    have hold : ∀ {k : Nat}, h.table[k]? = some (some a) → a < h.cells.size := by
      intro k hk
      obtain ⟨x, hx⟩ := hw.occupied hk
      exact (Array.getElem?_eq_some_iff.mp hx).1
    rw [store_entry h hw o] at hi hj
    split at hi <;> split at hj
    · omega
    · simp only [Option.some.injEq] at hi
      have := hold hj
      omega
    · simp only [Option.some.injEq] at hj
      have := hold hi
      omega
    · exact hw.distinct hi hj
  dead := by
    intro i hi
    rw [store_free] at hi
    rw [store_entry h hw o]
    have hne : i ≠ h.view.next.index := by
      unfold Store.next view
      cases hf : h.free with
      | nil => rw [hf] at hi; simp at hi
      | cons j rest =>
        have hnd := hw.nodup
        rw [hf] at hi hnd
        intro he
        have he' : i = j := he
        exact (List.nodup_cons.mp hnd).1 (he' ▸ hi)
    rw [if_neg hne]
    exact hw.dead (List.mem_of_mem_tail hi)
  nodup := by
    rw [store_free]
    exact hw.nodup.sublist (List.tail_sublist _)

theorem wellFormed_allocate {h : Heap α} (hw : h.WellFormed) (o : α) :
    (h.allocate o).2.WellFormed := by
  unfold allocate
  dsimp only
  split
  · exact wellFormed_tick hw
  · exact wellFormed_store (wellFormed_tick hw) o

theorem store_view {h : Heap α} (hw : h.WellFormed) (o : α) :
    (h.store o).2.view =
      { h.view.set h.view.next (some o) with
        size := if h.free.isEmpty then h.table.size + 1 else h.table.size
        free := h.free.tail
        live := h.live + 1 } := by
  have ho : (h.store o).2.object? = (h.view.set h.view.next (some o)).objects := by
    funext handle
    rw [store_object? hw]
    rfl
  unfold view at ho ⊢
  rw [ho]
  unfold store
  cases hf : h.free with
  | nil => simp [Store.set]
  | cons i rest => simp [Store.set]

/-- Allocation on the heap is allocation in the store. -/
theorem allocate_view {h : Heap α} (hw : h.WellFormed) (o : α) :
    (h.allocate o).1 = (h.view.allocate o).1 ∧
      (h.allocate o).2.view = (h.view.allocate o).2 := by
  rw [← view_tick h]
  have hw' := wellFormed_tick hw
  unfold allocate Store.allocate
  dsimp only
  by_cases hfull : h.tick.config.capacity ≤ h.tick.live
  · have hfull' : h.tick.view.capacity ≤ h.tick.view.live := hfull
    simp only [hfull, hfull', if_true, and_self]
  · have hfull' : ¬ h.tick.view.capacity ≤ h.tick.view.live := hfull
    simp only [hfull, hfull', if_false, store_handle, true_and]
    exact store_view hw' o

/-! ## Access -/

theorem resolve_eq_error {h : Heap α} {handle : Handle} (ha : h.address? handle = none) :
    h.resolve handle = .error .danglingHandle := by
  simp [resolve, ha]

theorem resolve_eq_ok {h : Heap α} {handle : Handle} {a : Nat} (ha : h.address? handle = some a) :
    h.resolve handle = .ok { address := a, epoch := h.epoch } := by
  simp [resolve, ha]

/-- A place that was just asked for is good. -/
theorem readAt_now (h : Heap α) (a : Nat) :
    h.readAt { address := a, epoch := h.epoch } =
      match h.cell? a with
      | some o => .ok o
      | none => .error .releasedObject := by
  cases hc : h.cell? a <;> simp [readAt, hc]

/-- Reading through the heap is reading from the store. -/
theorem read_view {h : Heap α} (hw : h.WellFormed) (handle : Handle) :
    h.read handle = h.view.read handle := by
  unfold read Store.read
  show _ = match h.object? handle with | some o => Except.ok o | none => _
  cases ha : h.address? handle with
  | none =>
    rw [resolve_eq_error ha, (hw.object?_eq_none_iff handle).mpr ha]
  | some a =>
    obtain ⟨o, ho⟩ := hw.occupied ((address?_eq_some_iff h handle a).mp ha)
    have hc : h.cell? a = some o := (cell?_eq_some_iff h a o).mpr ho
    have hob : h.object? handle = some o := by simp [object?, ha, hc]
    rw [resolve_eq_ok ha, hob]
    simp only [readAt_now, hc]

theorem read_eq_ok_iff {h : Heap α} (hw : h.WellFormed) (handle : Handle) (o : α) :
    h.read handle = .ok o ↔ h.view.objects handle = some o := by
  rw [read_view hw]
  unfold Store.read
  cases h.view.objects handle <;> simp

/-- The heap after the object at an address was changed. -/
theorem updateAt_now {h : Heap α} {a : Nat} {o : α} (hc : h.cell? a = some o) (f : α → α) :
    h.updateAt { address := a, epoch := h.epoch } f =
      (.ok (), { h with cells := h.cells.modify a (Option.map f) }) := by
  simp [updateAt, readAt_now, hc]

/-- An update goes through the address of the handle. -/
theorem update_cases {h : Heap α} (hw : h.WellFormed) (handle : Handle) (f : α → α) :
    (h.address? handle = none ∧ h.update handle f = (.error .danglingHandle, h)) ∨
      ∃ a o, h.table[handle.index]? = some (some a) ∧ h.cells[a]? = some (some o) ∧
        h.update handle f = (.ok (), { h with cells := h.cells.modify a (Option.map f) }) := by
  cases ha : h.address? handle with
  | none => exact Or.inl ⟨rfl, by simp [update, resolve_eq_error ha]⟩
  | some a =>
    have ht := (address?_eq_some_iff h handle a).mp ha
    obtain ⟨o, ho⟩ := hw.occupied ht
    refine Or.inr ⟨a, o, ht, ho, ?_⟩
    simp only [update, resolve_eq_ok ha]
    exact updateAt_now ((cell?_eq_some_iff h a o).mpr ho) f

theorem wellFormed_modify {h : Heap α} (hw : h.WellFormed) (a : Nat) (f : α → α) :
    { h with cells := h.cells.modify a (Option.map f) }.WellFormed := by
  refine ⟨?_, hw.distinct, hw.dead, hw.nodup⟩
  intro i b hi
  obtain ⟨x, hx⟩ := hw.occupied hi
  by_cases hab : a = b
  · exact ⟨f x, by simp [Array.getElem?_modify, hab, hx]⟩
  · exact ⟨x, by simp [Array.getElem?_modify, hab, hx]⟩

theorem wellFormed_update {h : Heap α} (hw : h.WellFormed) (handle : Handle) (f : α → α) :
    (h.update handle f).2.WellFormed := by
  rcases update_cases hw handle f with ⟨_, he⟩ | ⟨a, o, ht, ho, he⟩
  · rw [he]; exact hw
  · rw [he]; exact wellFormed_modify hw a f

/-- Changing the object at an address changes it for the handle that has the address. -/
theorem object?_modify (h : Heap α) (a : Nat) (f : α → α) (handle : Handle) :
    { h with cells := h.cells.modify a (Option.map f) }.object? handle =
      if h.address? handle = some a then (h.object? handle).map f else h.object? handle := by
  show (h.address? handle).bind (fun b => ((h.cells.modify a (Option.map f))[b]?).join) = _
  unfold object?
  cases ha : h.address? handle with
  | none => simp
  | some b =>
    simp only [Option.bind_some, Option.some.injEq, Array.getElem?_modify, cell?]
    by_cases hab : a = b
    · subst hab
      cases hcell : h.cells[a]? <;> simp
    · simp [hab, Ne.symm hab]

/-- Changing the object at the address of one handle leaves the others alone. -/
theorem modify_object? {h : Heap α} (hw : h.WellFormed) {handle : Handle} {a : Nat} {o : α}
    (ht : h.table[handle.index]? = some (some a)) (ho : h.cells[a]? = some (some o))
    (f : α → α) (other : Handle) :
    { h with cells := h.cells.modify a (Option.map f) }.object? other =
      if other = handle then some (f o) else h.object? other := by
  have hobject : h.object? handle = some o := (object?_eq_some_iff h handle o).mpr ⟨a, ht, ho⟩
  -- Different handles have different addresses.
  have hplace : h.address? other = some a ↔ other = handle := by
    rw [address?_eq_some_iff]
    constructor
    · intro hother
      exact congrArg Handle.mk (hw.distinct hother ht)
    · rintro rfl
      exact ht
  rw [object?_modify]
  simp only [hplace]
  split
  · rename_i hn
    rw [hn, hobject]
    rfl
  · rfl

/-- An update of the heap is an update of the store. -/
theorem update_view {h : Heap α} (hw : h.WellFormed) (handle : Handle) (f : α → α) :
    (h.update handle f).1 = (h.view.update handle f).1 ∧
      (h.update handle f).2.view = (h.view.update handle f).2 := by
  rcases update_cases hw handle f with ⟨ha, he⟩ | ⟨a, o, ht, ho, he⟩
  · have hn : h.view.objects handle = none := (hw.object?_eq_none_iff handle).mpr ha
    simp [he, Store.update, hn]
  · have hs : h.view.objects handle = some o := (object?_eq_some_iff h handle o).mpr ⟨a, ht, ho⟩
    have hob := funext (modify_object? hw ht ho f)
    simp only [he, Store.update, hs, true_and]
    unfold view at hob ⊢
    rw [hob]
    rfl

/-! ## Release -/

/-- The heap after the object of a live handle was given up. -/
theorem release_live {h : Heap α} {handle : Handle} {a : Nat}
    (ht : h.table[handle.index]? = some (some a)) :
    h.release handle =
      (.ok (),
        { h with
          cells := h.cells.setIfInBounds a none
          table := h.table.setIfInBounds handle.index none
          free := handle.index :: h.free
          live := h.live - 1 }) := by
  simp [release, (address?_eq_some_iff h handle a).mpr ht]

theorem release_dead {h : Heap α} {handle : Handle} (ha : h.address? handle = none) :
    h.release handle = (.error .danglingHandle, h) := by
  simp [release, ha]

theorem release_entry {h : Heap α} {handle : Handle} {a : Nat}
    (ht : h.table[handle.index]? = some (some a)) (i : Nat) :
    (h.table.setIfInBounds handle.index none)[i]? =
      if i = handle.index then some none else h.table[i]? := by
  have hlt : handle.index < h.table.size := (Array.getElem?_eq_some_iff.mp ht).1
  rw [Array.getElem?_setIfInBounds]
  by_cases hi : i = handle.index
  · subst hi; simp [hlt]
  · simp [hi, Ne.symm hi]

theorem wellFormed_release {h : Heap α} (hw : h.WellFormed) (handle : Handle) :
    (h.release handle).2.WellFormed := by
  cases ha : h.address? handle with
  | none => rw [release_dead ha]; exact hw
  | some a =>
    have ht := (address?_eq_some_iff h handle a).mp ha
    rw [release_live ht]
    refine ⟨?_, ?_, ?_, ?_⟩
    -- The cell that is emptied belongs to no other handle.
    · intro i b hi
      rw [release_entry ht] at hi
      split at hi
      · simp at hi
      · rename_i hne
        have hab : a ≠ b := fun hab => hne (hw.distinct (hab ▸ hi) ht)
        obtain ⟨x, hx⟩ := hw.occupied hi
        exact ⟨x, by rw [Array.getElem?_setIfInBounds, if_neg hab]; exact hx⟩
    · intro i j b hi hj
      rw [release_entry ht] at hi hj
      split at hi
      · simp at hi
      · split at hj
        · simp at hj
        · exact hw.distinct hi hj
    · intro i hi
      rw [release_entry ht]
      split
      · rfl
      · rename_i hne
        exact hw.dead ((List.mem_cons.mp hi).resolve_left hne)
    -- The handle was live, so it was not free before.
    · refine List.nodup_cons.mpr ⟨?_, hw.nodup⟩
      intro hmem
      have hd := hw.dead hmem
      rw [ht] at hd
      simp at hd

/-- Giving up the object behind one handle leaves the others alone. -/
theorem release_object? {h : Heap α} (hw : h.WellFormed) {handle : Handle} {a : Nat}
    (ht : h.table[handle.index]? = some (some a)) (other : Handle) :
    (h.release handle).2.object? other = if other = handle then none else h.object? other := by
  rw [release_live ht]
  apply Option.ext
  intro x
  rw [object?_eq_some_iff]
  simp only [release_entry ht]
  by_cases hn : other = handle
  · subst hn
    simp
  · have hi : other.index ≠ handle.index := fun he => hn (by cases other; cases handle; simp_all)
    -- The cell that was emptied is not the cell of the other handle.
    have hne : ∀ {b : Nat}, h.table[other.index]? = some (some b) → a ≠ b :=
      fun hb hab => hi (hw.distinct (hab ▸ hb) ht)
    rw [if_neg hn, object?_eq_some_iff]
    simp only [hi, if_false]
    constructor
    · rintro ⟨b, hb, hx⟩
      rw [Array.getElem?_setIfInBounds, if_neg (hne hb)] at hx
      exact ⟨b, hb, hx⟩
    · rintro ⟨b, hb, hx⟩
      exact ⟨b, hb, by rw [Array.getElem?_setIfInBounds, if_neg (hne hb)]; exact hx⟩

/-- Giving up an object of the heap is giving it up in the store. -/
theorem release_view {h : Heap α} (hw : h.WellFormed) (handle : Handle) :
    (h.release handle).1 = (h.view.release handle).1 ∧
      (h.release handle).2.view = (h.view.release handle).2 := by
  cases ha : h.address? handle with
  | none =>
    have hn : h.view.objects handle = none := (hw.object?_eq_none_iff handle).mpr ha
    simp [release_dead ha, Store.release, hn]
  | some a =>
    have ht := (address?_eq_some_iff h handle a).mp ha
    obtain ⟨o, ho⟩ := hw.occupied ht
    have hs : h.view.objects handle = some o := (object?_eq_some_iff h handle o).mpr ⟨a, ht, ho⟩
    -- Only the objects need an argument; the other parts of the two views are computed.
    have hob := funext (release_object? hw ht)
    rw [release_live ht] at hob ⊢
    simp only [Store.release, hs, true_and]
    unfold view
    dsimp only at hob ⊢
    rw [hob]
    simp [Store.set]

end Heap

end Linkage
