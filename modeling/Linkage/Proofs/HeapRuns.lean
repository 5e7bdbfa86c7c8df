import Mathlib.Data.Finmap
import Mathlib.Data.Fintype.Card
import Linkage.Proofs.HeapStore

/-! # Runs of the heap

    A client that goes only through live handles cannot tell a heap from a finite
    map, whatever it allocates, releases and writes, and whenever the heap
    relocates.

    * `HeapMap.Step` is what a finite map of bounded size does on a call.
    * `Heap.Represents` ties the cells, the table, the free list and the counters
      of a heap to the map.
    * `perform_represents`: one call on the heap is one step of the map.
    * `heapRun_refines_map`: so is a whole run, and a read returns the object that was
      last put under the handle. -/

namespace Linkage

variable {α : Type}

/-! ## Calls and answers -/

/-- What a client asks of a heap through handles. -/
inductive HeapCall (α : Type) where
  | allocate (object : α)
  | release (handle : Handle)
  | relocate
  | read (handle : Handle)
  | write (handle : Handle) (f : α → α)

/-- What the heap answers. -/
inductive HeapAnswer (α : Type) where
  | allocated (handle : Handle)
  | outOfMemory
  | object (object : α)
  | done
  | fault (fault : Heap.Fault)
  deriving DecidableEq

/-- A call with its answer. -/
abbrev HeapEvent (α : Type) := HeapCall α × HeapAnswer α

/-- The handle that a call goes through. -/
def HeapCall.handle? : HeapCall α → Option Handle
  | release handle => some handle
  | read handle => some handle
  | write handle _ => some handle
  | allocate _ => none
  | relocate => none

/-- The answer to a call that has no result of its own. -/
def HeapAnswer.ofUnit : Except Heap.Fault Unit → HeapAnswer α
  | .ok () => .done
  | .error cause => .fault cause

/-- The heap after a call, with its answer. -/
def Heap.perform (h : Heap α) : HeapCall α → HeapAnswer α × Heap α
  | .allocate object =>
      match h.allocate object with
      | (some handle, h') => (.allocated handle, h')
      | (none, h') => (.outOfMemory, h')
  | .release handle => (.ofUnit (h.release handle).1, (h.release handle).2)
  | .relocate => (.done, h.relocate)
  | .read handle =>
      match h.read handle with
      | .ok object => (.object object, h)
      | .error cause => (.fault cause, h)
  | .write handle f => (.ofUnit (h.update handle f).1, (h.update handle f).2)

/-- The object that was last put under a handle, by allocation or by a write,
    and not released since. The latest event stands in front. -/
def lastObject : List (HeapEvent α) → Handle → Option α
  | [], _ => none
  | (.allocate object, .allocated new) :: earlier, handle =>
      if handle = new then some object else lastObject earlier handle
  | (.release old, _) :: earlier, handle =>
      if handle = old then none else lastObject earlier handle
  | (.write target f, _) :: earlier, handle =>
      if handle = target then (lastObject earlier handle).map f else lastObject earlier handle
  | _ :: earlier, handle => lastObject earlier handle

/-- The runs of a client that only uses handles with an object behind them. -/
inductive HeapRun (config : HeapConfig) : List (HeapEvent α) → Heap α → Prop where
  | start : HeapRun config [] (Heap.empty config)
  | step {history : List (HeapEvent α)} {h : Heap α} (before : HeapRun config history h)
      (call : HeapCall α)
      (good : ∀ handle ∈ call.handle?, (lastObject history handle).isSome) :
      HeapRun config ((call, (h.perform call).1) :: history) (h.perform call).2

/-! ## Finite maps -/

/-- Objects under handles. -/
abbrev HeapMap (α : Type) := Finmap (fun _ : Handle => α)

namespace HeapMap

/-- What a finite map that holds at most `capacity` objects does on a call. -/
inductive Step (capacity : Nat) :
    HeapMap α → HeapCall α → HeapAnswer α → HeapMap α → Prop where
  | allocate {σ : HeapMap α} {object : α} {handle : Handle}
      (room : σ.keys.card < capacity) (new : handle ∉ σ) :
      Step capacity σ (.allocate object) (.allocated handle) (σ.insert handle object)
  | full {σ : HeapMap α} {object : α} (full : capacity ≤ σ.keys.card) :
      Step capacity σ (.allocate object) .outOfMemory σ
  | release {σ : HeapMap α} {handle : Handle} (live : handle ∈ σ) :
      Step capacity σ (.release handle) .done (σ.erase handle)
  | relocate {σ : HeapMap α} : Step capacity σ .relocate .done σ
  | read {σ : HeapMap α} {handle : Handle} {object : α} (ho : σ.lookup handle = some object) :
      Step capacity σ (.read handle) (.object object) σ
  | write {σ : HeapMap α} {handle : Handle} {object : α} {f : α → α}
      (ho : σ.lookup handle = some object) :
      Step capacity σ (.write handle f) .done (σ.insert handle (f object))

/-- The map after the calls of a history, each answered as the map answers it. -/
inductive Run (capacity : Nat) : List (HeapEvent α) → HeapMap α → Prop where
  | start : Run capacity [] ∅
  | step {history : List (HeapEvent α)} {σ σ' : HeapMap α} {call : HeapCall α}
      {answer : HeapAnswer α} (before : Run capacity history σ)
      (now : Step capacity σ call answer σ') :
      Run capacity ((call, answer) :: history) σ'

theorem lookup_insert_eq (σ : HeapMap α) (handle other : Handle) (o : α) :
    (σ.insert handle o).lookup other = if other = handle then some o else σ.lookup other := by
  by_cases hn : other = handle
  · subst hn
    rw [if_pos rfl, Finmap.lookup_insert]
  · rw [if_neg hn, Finmap.lookup_insert_of_ne _ hn]

theorem lookup_erase_eq (σ : HeapMap α) (handle other : Handle) :
    (σ.erase handle).lookup other = if other = handle then none else σ.lookup other := by
  by_cases hn : other = handle
  · subst hn
    rw [if_pos rfl, Finmap.lookup_erase]
  · rw [if_neg hn, Finmap.lookup_erase_ne hn]

theorem keys_insert_eq (σ : HeapMap α) (handle : Handle) (o : α) :
    (σ.insert handle o).keys = Insert.insert handle σ.keys := by
  ext other
  rw [Finmap.mem_keys, Finmap.mem_insert, Finset.mem_insert, Finmap.mem_keys]

/-- The map of a history holds what was last put under each handle. -/
theorem Run.lookup_eq {capacity : Nat} {history : List (HeapEvent α)} {σ : HeapMap α}
    (run : Run capacity history σ) (handle : Handle) :
    σ.lookup handle = lastObject history handle := by
  induction run with
  | start => rfl
  | step _ now ih =>
    cases now with
    | allocate => rw [lookup_insert_eq, ih]; rfl
    | full => exact ih
    | release => rw [lookup_erase_eq, ih]; rfl
    | relocate => exact ih
    | read => exact ih
    | @write target object f ho =>
      -- A write is an insertion under a handle that the map has already.
      rw [lookup_insert_eq]
      show _ = if handle = target then (lastObject _ handle).map f else lastObject _ handle
      by_cases hn : handle = target
      · subst hn
        rw [if_pos rfl, if_pos rfl, ← ih, ho]
        rfl
      · rw [if_neg hn, if_neg hn, ih]

/-- A read is answered with the object that was last put under the handle. -/
theorem Run.answer_read {capacity : Nat} {later earlier : List (HeapEvent α)} {σ : HeapMap α}
    {handle : Handle} {answer : HeapAnswer α}
    (run : Run capacity (later ++ (.read handle, answer) :: earlier) σ) :
    ∃ o, lastObject earlier handle = some o ∧ answer = .object o := by
  induction later generalizing σ with
  | nil =>
    cases run with
    | step before now =>
      cases now with
      | read ho => exact ⟨_, by rw [← before.lookup_eq, ho], rfl⟩
  | cons event later ih =>
    cases run with
    | step before now => exact ih before

end HeapMap

namespace Heap

/-! ## Configuration -/

theorem tick_config (h : Heap α) : h.tick.config = h.config := by
  rcases tick_cases h with he | he
  · rw [he]
  · rw [he]; rfl

theorem store_config (h : Heap α) (o : α) : (h.store o).2.config = h.config := by
  unfold store
  cases h.free <;> rfl

theorem release_config (h : Heap α) (handle : Handle) :
    (h.release handle).2.config = h.config := by
  unfold release
  split <;> rfl

theorem update_config (h : Heap α) (handle : Handle) (f : α → α) :
    (h.update handle f).2.config = h.config := by
  unfold update updateAt
  split
  · split <;> rfl
  · rfl

theorem perform_config (h : Heap α) (call : HeapCall α) :
    (h.perform call).2.config = h.config := by
  cases call with
  | allocate o =>
    simp only [perform, allocate]
    by_cases hfull : h.tick.config.capacity ≤ h.tick.live
    · rw [if_pos hfull]
      exact tick_config h
    · rw [if_neg hfull]
      exact (store_config h.tick o).trans (tick_config h)
  | release handle => exact release_config h handle
  | relocate => rfl
  | read handle =>
    simp only [perform]
    cases h.read handle <;> rfl
  | write handle f => exact update_config h handle f

/-! ## Representation -/

/-- The heap holds the objects of a finite map, and nothing else. -/
structure Represents (h : Heap α) (σ : HeapMap α) : Prop extends h.WellFormed where
  /-- Every handle stands for the same object. -/
  lookup : ∀ handle, σ.lookup handle = h.object? handle
  /-- An occupied cell belongs to exactly one live handle. -/
  owned : ∀ {a : Nat} {o : α}, h.cells[a]? = some (some o) →
    ∃! i : Nat, h.table[i]? = some (some a)
  /-- The free handles are those that are not live. -/
  free_iff : ∀ i : Nat, i ∈ h.free ↔ h.table[i]? = some none
  /-- The live objects are counted. -/
  live_eq : h.live = σ.keys.card
  live_le : h.live ≤ h.config.capacity
  /-- There are no more addresses than allocations. -/
  size_le : h.cells.size ≤ h.allocations

/-- Relocation leaves no gaps: every new address is the address of a handle. -/
theorem moved_onto (old : Array (Option α)) (entries : List (Option Nat)) {a : Nat}
    (ha : a < (entries.foldr (moveEntry old) (#[], [])).1.size) :
    ∃ i : Nat, (entries.foldr (moveEntry old) (#[], [])).2[i]? = some (some a) := by
  induction entries with
  | nil => simp at ha
  | cons entry entries ih =>
    rw [List.foldr_cons] at ha ⊢
    generalize entries.foldr (moveEntry old) (#[], []) = moved at ih ha ⊢
    cases entry with
    | none =>
      obtain ⟨i, hi⟩ := ih ha
      exact ⟨i + 1, hi⟩
    | some address =>
      have hlt : a < moved.1.size + 1 := by simpa [moveEntry] using ha
      -- The entry in front got the last address; all others are those of the entries behind it.
      by_cases hn : a = moved.1.size
      · exact ⟨0, by simp [moveEntry, hn]⟩
      · obtain ⟨i, hi⟩ := ih (by omega)
        exact ⟨i + 1, hi⟩

theorem relocate_onto (h : Heap α) {a : Nat} (ha : a < h.relocate.cells.size) :
    ∃ i : Nat, h.relocate.table[i]? = some (some a) := by
  obtain ⟨i, hi⟩ := moved_onto h.cells h.table.toList ha
  exact ⟨i, by simpa [relocate] using hi⟩

/-- Relocation does not need more cells: a new address stands for a handle, and a
    handle for an old address. -/
theorem relocate_size_le {h : Heap α} (hw : h.WellFormed) :
    h.relocate.cells.size ≤ h.cells.size := by
  have hold : ∀ b : Fin h.relocate.cells.size, ∃ a : Fin h.cells.size, ∃ i : Nat,
      h.relocate.table[i]? = some (some b.val) ∧ h.table[i]? = some (some a.val) := by
    intro b
    obtain ⟨i, hi⟩ := relocate_onto h b.isLt
    obtain ⟨a, ha, _⟩ := relocate_entry_some h hi
    obtain ⟨o, ho⟩ := hw.occupied ha
    exact ⟨⟨a, (Array.getElem?_eq_some_iff.mp ho).1⟩, i, hi, ha⟩
  -- New addresses go to old ones through their handles, and no two of them to the same.
  choose f place hnew hplace using hold
  have hinj : Function.Injective f := by
    intro b c hbc
    have hp : place b = place c := hw.distinct (hplace b) (hbc ▸ hplace c)
    have hb := hnew b
    rw [hp, hnew c] at hb
    exact Fin.ext (Option.some.inj (Option.some.inj hb)).symm
  simpa using Fintype.card_le_of_injective f hinj

theorem WellFormed.owned_of {h : Heap α} (hw : h.WellFormed) {a : Nat}
    (he : ∃ i : Nat, h.table[i]? = some (some a)) : ∃! i : Nat, h.table[i]? = some (some a) := by
  obtain ⟨i, hi⟩ := he
  exact ⟨i, hi, fun j hj => hw.distinct hj hi⟩

namespace Represents

variable {h : Heap α} {σ : HeapMap α}

theorem empty (config : HeapConfig) : (Heap.empty config : Heap α).Represents ∅ where
  toWellFormed := wellFormed_empty config
  lookup := by intro handle; simp [Heap.empty, object?, address?]
  owned := by intro a o ha; simp [Heap.empty] at ha
  free_iff := by intro i; simp [Heap.empty]
  live_eq := rfl
  live_le := Nat.zero_le _
  size_le := Nat.le_refl _

/-- A handle of the map has an address, with its object there. -/
theorem entry_of_lookup (hr : h.Represents σ) {handle : Handle} {o : α}
    (ho : σ.lookup handle = some o) :
    ∃ a, h.table[handle.index]? = some (some a) ∧ h.cells[a]? = some (some o) := by
  rw [hr.lookup] at ho
  exact (object?_eq_some_iff h handle o).mp ho

/-! ### Relocation -/

theorem relocate (hr : h.Represents σ) : h.relocate.Represents σ where
  toWellFormed := wellFormed_relocate hr.toWellFormed
  lookup := by
    intro handle
    rw [relocate_object?]
    exact hr.lookup handle
  owned := by
    intro a o ha
    -- A cell of the relocated heap was put there for a handle.
    have hlt : a < h.relocate.cells.size := (Array.getElem?_eq_some_iff.mp ha).1
    exact (wellFormed_relocate hr.toWellFormed).owned_of (relocate_onto h hlt)
  free_iff := by
    intro i
    have hn := (relocate_moved h).none_iff i
    simp only [Array.getElem?_toList] at hn
    exact (hr.free_iff i).trans hn.symm
  live_eq := hr.live_eq
  live_le := hr.live_le
  size_le := Nat.le_trans (relocate_size_le hr.toWellFormed) hr.size_le

/-- Counting an allocation makes room for one more address. -/
theorem tick (hr : h.Represents σ) :
    h.tick.Represents σ ∧ h.tick.cells.size < h.tick.allocations := by
  have hr' : { h with allocations := h.allocations + 1 }.Represents σ :=
    { hr with size_le := Nat.le_succ_of_le hr.size_le }
  have hsize := hr.size_le
  rcases tick_cases h with he | he
  · rw [he]
    exact ⟨hr', Nat.lt_succ_of_le hsize⟩
  · rw [he]
    have hle := relocate_size_le hr'.toWellFormed
    refine ⟨hr'.relocate, ?_⟩
    show _ < h.allocations + 1
    exact Nat.lt_succ_of_le (Nat.le_trans hle hsize)

/-! ### Allocation -/

theorem next_notMem (hr : h.Represents σ) : h.view.next ∉ σ := by
  rw [← Finmap.lookup_eq_none, hr.lookup]
  exact hr.toWellFormed.next_dead

theorem store (hr : h.Represents σ) (o : α) (hlive : h.live < h.config.capacity)
    (hsize : h.cells.size < h.allocations) :
    (h.store o).2.Represents (σ.insert h.view.next o) := by
  have hw := hr.toWellFormed
  have hw' := wellFormed_store hw o
  have hdead : ∀ a, h.table[h.view.next.index]? ≠ some (some a) := by
    intro a ha
    have hn := hw.next_dead
    have hd := (hw.object?_eq_none_iff h.view.next).mp hn
    rw [(address?_eq_some_iff h _ a).mpr ha] at hd
    simp at hd
  obtain ⟨hl, hal⟩ : (h.store o).2.live = h.live + 1 ∧
      (h.store o).2.allocations = h.allocations := by
    unfold Heap.store
    cases h.free <;> exact ⟨rfl, rfl⟩
  refine ⟨hw', ?_, ?_, ?_, ?_, ?_, ?_⟩
  · intro handle
    rw [HeapMap.lookup_insert_eq, store_object? hw, hr.lookup]
  · intro a x ha
    apply hw'.owned_of
    rw [store_cells, Array.getElem?_push] at ha
    by_cases hn : a = h.cells.size
    · exact ⟨h.view.next.index, by rw [store_entry h hw, if_pos rfl, hn]⟩
    · rw [if_neg hn] at ha
      obtain ⟨i, hi, _⟩ := hr.owned ha
      -- The handle of an old object is live, so it is not the one given out.
      have hne : i ≠ h.view.next.index := fun he => hdead a (he ▸ hi)
      exact ⟨i, by rw [store_entry h hw, if_neg hne]; exact hi⟩
  · intro i
    refine ⟨hw'.dead, ?_⟩
    intro hi
    rw [store_entry h hw] at hi
    by_cases hn : i = h.view.next.index
    · rw [if_pos hn] at hi
      simp at hi
    · rw [if_neg hn, ← hr.free_iff] at hi
      rw [store_free]
      unfold Store.next view at hn
      cases hf : h.free with
      | nil => rw [hf] at hi; simp at hi
      | cons j rest =>
        rw [hf] at hi hn
        exact (List.mem_cons.mp hi).resolve_left hn
  · rw [hl, HeapMap.keys_insert_eq, Finset.card_insert_of_notMem, hr.live_eq]
    exact fun hm => hr.next_notMem (Finmap.mem_keys.mp hm)
  · rw [hl, store_config]
    exact hlive
  · rw [store_cells, hal, Array.size_push]
    exact hsize

/-! ### Writing and releasing -/

theorem update (hr : h.Represents σ) {handle : Handle} {o : α}
    (ho : σ.lookup handle = some o) (f : α → α) :
    (h.update handle f).1 = .ok () ∧
      (h.update handle f).2.Represents (σ.insert handle (f o)) := by
  have hw := hr.toWellFormed
  obtain ⟨a, ht, hcell⟩ := hr.entry_of_lookup ho
  have hmem : handle ∈ σ.keys := Finmap.mem_keys.mpr (Finmap.mem_of_lookup_eq_some ho)
  have hw' := wellFormed_update hw handle f
  rcases update_cases hw handle f with ⟨hn, _⟩ | ⟨b, x, hb, hx, he⟩
  · rw [(address?_eq_some_iff h handle a).mpr ht] at hn
    simp at hn
  · rw [ht, Option.some.injEq, Option.some.injEq] at hb
    subst hb
    rw [hcell, Option.some.injEq, Option.some.injEq] at hx
    subst hx
    rw [he] at hw' ⊢
    refine ⟨rfl, hw', ?_, ?_, hr.free_iff, ?_, hr.live_le, ?_⟩
    · intro other
      rw [HeapMap.lookup_insert_eq, modify_object? hw ht hcell, hr.lookup]
    · intro b x hx
      -- A cell that holds an object after the write held one before.
      rw [Array.getElem?_modify] at hx
      have hocc : ∃ y, h.cells[b]? = some (some y) := by
        split at hx
        · simp only [Option.map_eq_some_iff] at hx
          obtain ⟨cell, hcell', y, rfl, _⟩ := hx
          exact ⟨y, hcell'⟩
        · exact ⟨x, hx⟩
      exact hr.owned hocc.choose_spec
    · rw [HeapMap.keys_insert_eq, Finset.insert_eq_of_mem hmem]
      exact hr.live_eq
    · rw [Array.size_modify]
      exact hr.size_le

theorem release (hr : h.Represents σ) {handle : Handle} (hmem : handle ∈ σ) :
    (h.release handle).1 = .ok () ∧ (h.release handle).2.Represents (σ.erase handle) := by
  have hw := hr.toWellFormed
  obtain ⟨o, ho⟩ := Finmap.mem_iff.mp hmem
  obtain ⟨a, ht, hcell⟩ := hr.entry_of_lookup ho
  have hw' := wellFormed_release hw handle
  have hobject := release_object? hw ht
  rw [release_live ht] at hw' hobject ⊢
  refine ⟨rfl, hw', ?_, ?_, ?_, ?_, ?_, ?_⟩
  · intro other
    rw [HeapMap.lookup_erase_eq, hobject, hr.lookup]
  · intro b x hx
    rw [Array.getElem?_setIfInBounds] at hx
    have hab : a ≠ b := by
      intro hab
      subst hab
      have hlt := (Array.getElem?_eq_some_iff.mp hcell).1
      simp [hlt] at hx
    rw [if_neg hab] at hx
    obtain ⟨i, hi, _⟩ := hr.owned hx
    -- Only the released handle had the address of the emptied cell.
    have hne : i ≠ handle.index := by
      intro he
      rw [he, ht] at hi
      exact hab (Option.some.inj (Option.some.inj hi))
    apply hw'.owned_of
    exact ⟨i, by rw [release_entry ht, if_neg hne]; exact hi⟩
  · intro i
    rw [release_entry ht, List.mem_cons]
    by_cases hn : i = handle.index
    · simp [hn]
    · simp [hn, hr.free_iff i]
  · rw [Finmap.keys_erase, Finset.card_erase_of_mem (Finmap.mem_keys.mpr hmem), ← hr.live_eq]
  · exact Nat.le_trans (Nat.sub_le _ _) hr.live_le
  · rw [Array.size_setIfInBounds]
    exact hr.size_le

end Represents

/-! ## Runs -/

/-- A call through live handles is answered as the map answers it. -/
theorem perform_represents {h : Heap α} {σ : HeapMap α} (hr : h.Represents σ)
    (call : HeapCall α) (good : ∀ handle ∈ call.handle?, handle ∈ σ) :
    ∃ σ', HeapMap.Step h.config.capacity σ call (h.perform call).1 σ' ∧
      (h.perform call).2.Represents σ' := by
  cases call with
  | allocate o =>
    -- Allocating may relocate first, which the map does not see.
    obtain ⟨hr', hsize⟩ := hr.tick
    have hcount := hr'.live_eq
    simp only [perform, allocate, tick_config]
    by_cases hfull : h.config.capacity ≤ h.tick.live
    · rw [if_pos hfull]
      exact ⟨σ, .full (by omega), hr'⟩
    · rw [if_neg hfull]
      refine ⟨σ.insert h.tick.view.next o, ?_, ?_⟩
      · show HeapMap.Step _ σ _ (.allocated (h.tick.store o).1) _
        rw [store_handle]
        exact .allocate (by omega) hr'.next_notMem
      · have hlive : h.tick.live < h.tick.config.capacity := by
          rw [tick_config]
          omega
        exact hr'.store o hlive hsize
  | release handle =>
    have hmem := good handle rfl
    obtain ⟨hok, hr'⟩ := hr.release hmem
    refine ⟨σ.erase handle, ?_, hr'⟩
    simp only [perform, hok, HeapAnswer.ofUnit]
    exact .release hmem
  | relocate => exact ⟨σ, .relocate, hr.relocate⟩
  | read handle =>
    -- The handle is live in the map, hence in the heap.
    obtain ⟨o, ho⟩ := Finmap.mem_iff.mp (good handle rfl)
    have hread : h.read handle = .ok o :=
      (read_eq_ok_iff hr.toWellFormed handle o).mpr ((hr.lookup handle).symm.trans ho)
    simp only [perform, hread]
    exact ⟨σ, .read ho, hr⟩
  | write handle f =>
    obtain ⟨o, ho⟩ := Finmap.mem_iff.mp (good handle rfl)
    obtain ⟨hok, hr'⟩ := hr.update ho f
    refine ⟨σ.insert handle (f o), ?_, hr'⟩
    simp only [perform, hok, HeapAnswer.ofUnit]
    exact .write ho

end Heap

theorem HeapRun.config_eq {config : HeapConfig} {history : List (HeapEvent α)} {h : Heap α}
    (run : HeapRun config history h) : h.config = config := by
  induction run with
  | start => rfl
  | step _ call _ ih => rw [Heap.perform_config, ih]

/-- The heap after a run represents the map that the same calls and answers make. -/
theorem HeapRun.represents {config : HeapConfig} {history : List (HeapEvent α)} {h : Heap α}
    (run : HeapRun config history h) :
    ∃ σ : HeapMap α, HeapMap.Run config.capacity history σ ∧ h.Represents σ := by
  induction run with
  | start => exact ⟨∅, .start, Heap.Represents.empty config⟩
  | step before call good ih =>
    obtain ⟨σ, hrun, hr⟩ := ih
    -- The map has the objects of `lastObject`, so the handles a client may use are
    -- those of the map.
    have hmem : ∀ handle ∈ call.handle?, handle ∈ σ := by
      intro handle hh
      rw [← Finmap.lookup_isSome, hrun.lookup_eq]
      exact good handle hh
    obtain ⟨σ', hstep, hr'⟩ := Heap.perform_represents hr call hmem
    rw [before.config_eq] at hstep
    exact ⟨σ', .step hrun hstep, hr'⟩

/-- The heap after any run through live handles represents the finite map that the
    same calls and answers make: it holds under each handle the object that was last
    allocated or written there, which is what a read returns; allocation gives out a
    handle that is not live, and is refused exactly when the map has as many objects as
    the capacity allows. -/
theorem heapRun_refines_map {config : HeapConfig} {history : List (HeapEvent α)} {h : Heap α}
    (run : HeapRun config history h) :
    ∃ σ : HeapMap α, HeapMap.Run config.capacity history σ ∧
      (∀ handle, σ.lookup handle = lastObject history handle) ∧
      (∀ later earlier handle answer, history = later ++ (.read handle, answer) :: earlier →
        ∃ o, lastObject earlier handle = some o ∧ answer = .object o) ∧
      h.Represents σ := by
  obtain ⟨σ, hrun, hr⟩ := run.represents
  refine ⟨σ, hrun, hrun.lookup_eq, ?_, hr⟩
  intro later earlier handle answer hh
  subst hh
  exact hrun.answer_read

/-- The heap of two objects fills up, and gives the released handle out again after
    it has relocated. -/
theorem full_heap_refines_map :
    ∃ (history : List (HeapEvent Nat)) (h : Heap Nat),
      HeapRun { capacity := 2, relocateEvery := 3 } history h ∧
      history.map Prod.snd =
        [.object 21, .done, .allocated ⟨0⟩, .done, .done, .outOfMemory, .allocated ⟨1⟩,
          .allocated ⟨0⟩] ∧
      ∃ σ : HeapMap Nat, HeapMap.Run 2 history σ ∧
        (∀ handle, σ.lookup handle = lastObject history handle) ∧
        (∀ later earlier handle answer, history = later ++ (.read handle, answer) :: earlier →
          ∃ o, lastObject earlier handle = some o ∧ answer = .object o) ∧
        h.Represents σ := by
  -- Two objects fill the heap, and the third is refused.
  have fresh : HeapRun (α := Nat) { capacity := 2, relocateEvery := 3 } [] _ := .start
  have filled := ((fresh.step (.allocate 10) (by rintro _ ⟨⟩)).step
    (.allocate 20) (by rintro _ ⟨⟩)).step (.allocate 30) (by rintro _ ⟨⟩)
  have reused := ((filled.step (.release ⟨0⟩) (by rintro _ ⟨⟩; rfl)).step
    .relocate (by rintro _ ⟨⟩)).step (.allocate 40) (by rintro _ ⟨⟩)
  have run := (reused.step (.write ⟨1⟩ (· + 1)) (by rintro _ ⟨⟩; rfl)).step
    (.read ⟨1⟩) (by rintro _ ⟨⟩; rfl)
  exact ⟨_, _, run, rfl, heapRun_refines_map run⟩

end Linkage
