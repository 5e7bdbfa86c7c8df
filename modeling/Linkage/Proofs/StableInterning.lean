import Linkage.Proofs.Interning
import Linkage.Proofs.PointerRuns

/-! # Interning is stable

    The pool of strings holds bare handles. Behind them the heap moves its objects and gives
    out handles again, and objects are written to through handles and through pointers.

    * `InternRun`: operations and writes through pointers, of which none gives up or
      overwrites an interned string.
    * `Machine.Interned`: each handle of the pool leads to its string. One change keeps this
      (`Change.interned`), and so does a write through a pointer (`Machine.Interned.updateAt`),
      because no two handles share an address.
    * `InternRun.retains`: so does a run, and entries of the pool remain. -/

namespace Linkage

open Link

variable {m m' m₀ : Machine} {text : String} {handle : Handle}

/-! ## Runs -/

/-- The second machine is reached from the first one without giving up or overwriting an
    interned string. Bootstrap methods do the same, whatever machine they are called on. -/
inductive InternRun : Machine → Machine → Prop where
  | refl (m : Machine) : InternRun m m
  | operation {m₀ m : Machine} {α : Type} (env : Environment) (op : Operation α)
      (invoker : ∀ invoke, env.invoker = some invoke →
        ∀ c buffer m, InternRun m (invoke c buffer m).2)
      (follows : InternedKept m op) (before : InternRun m₀ m) : InternRun m₀ (op.run env m).2
  /-- A write through a pointer, also through one that is no longer good. -/
  | updateAt {m₀ m : Machine} (p : Pointer) (f : Object → Object)
      (elsewhere : ∀ text handle, m.strings.find? text = some handle →
        m.heap.resolve handle ≠ .ok p)
      (before : InternRun m₀ m) : InternRun m₀ (Link.updateAt p f m).2

/-- Each handle of the pool leads to its string. -/
structure Machine.Interned (m : Machine) : Prop where
  heap : m.heap.WellFormed
  texts : m.TextsInPlace

/-- The second machine is as good as the first one, and has its interned strings. -/
def Machine.Retains (m m' : Machine) : Prop :=
  m.Interned → m'.Interned ∧
    ∀ text handle, m.strings.find? text = some handle → m'.strings.find? text = some handle

theorem Machine.Retains.trans {m'' : Machine} (h : m.Retains m') (h' : m'.Retains m'') :
    m.Retains m'' := by
  intro hm
  obtain ⟨hm', hentries⟩ := h hm
  obtain ⟨hm'', hentries'⟩ := h' hm'
  exact ⟨hm'', fun text handle hfind => hentries' text handle (hentries text handle hfind)⟩

/-! ## Steps -/

theorem Change.interned (h : Change InternedKept m m') : m.Retains m' :=
  fun hm => ⟨⟨h.wellFormed hm.heap, h.textsInPlace hm.heap hm.texts⟩,
    fun _ _ hfind => h.find?_strings hfind⟩

/-- A write through a pointer that does not lead to an interned string leaves them all in
    place: it reaches the objects at its address only. -/
theorem Machine.Interned.updateAt {p : Pointer} {f : Object → Object} (hm : m.Interned)
    (elsewhere : ∀ text handle, m.strings.find? text = some handle →
      m.heap.resolve handle ≠ .ok p) :
    (Link.updateAt p f m).2.Interned ∧ (Link.updateAt p f m).2.strings = m.strings := by
  cases hread : m.heap.readAt p with
  | error cause =>
    simp only [Link.updateAt, changeHeap, Heap.updateAt_of_fault hread, and_true]
    exact hm
  | ok object =>
    simp only [Link.updateAt, changeHeap, Heap.updateAt_of_readAt hread, and_true]
    refine ⟨Heap.wellFormed_modify hm.heap p.address f, ?_⟩
    intro text handle hfind
    have hcurrent := ((Heap.readAt_eq_ok_iff m.heap p object).mp hread).1
    -- A handle with that address could have been resolved to this very pointer.
    have haddress : m.heap.address? handle ≠ some p.address := by
      intro hplace
      apply elsewhere text handle hfind
      simp only [Heap.resolve, hplace, ← hcurrent]
    show Heap.object? _ handle = _
    rw [Heap.object?_modify, if_neg haddress]
    exact hm.texts text handle hfind

/-- A run keeps every interned string, by induction on its steps. -/
theorem InternRun.retains (h : InternRun m m') : m.Retains m' := by
  induction h with
  | refl m => exact fun hm => ⟨hm, fun _ _ hfind => hfind⟩
  | @operation m₀ m α env op _ follows _ hinvoke ih =>
    refine Operation.keeps (P := Machine.Retains m₀) (fun hchange hm => hm.trans hchange.interned)
      ?_ follows ih
    exact fun invoke known c buffer m hm => hm.trans (hinvoke invoke known c buffer m)
  | @updateAt m₀ m p f elsewhere _ ih =>
    refine ih.trans (fun hm => ?_)
    obtain ⟨hm', hstrings⟩ := hm.updateAt (f := f) elsewhere
    exact ⟨hm', fun text handle hfind => hstrings ▸ hfind⟩

theorem Machine.interned_bare (config : HeapConfig) : (Machine.bare config).Interned :=
  ⟨Heap.wellFormed_empty config, fun _ _ hfind => by cases hfind⟩

theorem Machine.interned_start {env : Environment} {config : HeapConfig}
    (h : Machine.start env config = .ok m) : m.Interned := by
  have hcore : Changes InternedKept (Machine.bare config) m :=
    (changing_defineCoreClasses InternedKept env).of_run (Machine.start_eq_ok_iff.mp h)
  exact hcore.keeps (fun hchange hm => (hchange.interned hm).1) (Machine.interned_bare config)

/-! ## Answers -/

namespace Machine.Interned

variable (hm : m.Interned)

include hm

/-- A new object does not get the handle of an interned string. -/
theorem allocate_ne (hfind : m.strings.find? text = some handle) {object : Object}
    {fresh : Handle} (h : Link.allocate object m = (.ok fresh, m')) : fresh ≠ handle := by
  rintro rfl
  have hstring := hm.texts text fresh hfind
  unfold Link.allocate at h
  split at h
  · rename_i stored heap hstored
    cases h
    have hfree := (Heap.allocate_eq_some hm.heap hstored).1
    cases hfree.symm.trans hstring
  · cases h

/-- Texts with the same handle are the same. -/
theorem intern_inj (hfind : m.strings.find? text = some handle) {other : String}
    (h : intern other m = (.ok handle, m')) : other = text := by
  rcases intern_run_cases other m with ⟨_, hother, hrun⟩ | ⟨_, _, _, hrun⟩ |
    ⟨_, _, _, hstored, hrun⟩
  · rw [h] at hrun
    cases hrun
    have hstring := hm.texts other handle hother
    rw [hm.texts text handle hfind] at hstring
    cases hstring
    rfl
  · rw [h] at hrun
    cases hrun
  · rw [h] at hrun
    cases hrun
    -- The handle of a new string was free before.
    have hfree := (Heap.allocate_eq_some hm.heap hstored).1
    cases hfree.symm.trans (hm.texts text handle hfind)

end Machine.Interned

theorem strings_of_intern_error {e : Failure} (h : intern text m = (.error e, m')) :
    m'.strings = m.strings := by
  rcases intern_run_cases text m with ⟨_, _, hrun⟩ | ⟨_, _, _, hrun⟩ | ⟨_, _, _, _, hrun⟩
  · rw [h] at hrun
    cases hrun
  · rw [h] at hrun
    cases hrun
    rfl
  · rw [h] at hrun
    cases hrun

/-- Interning is stable and injective, in every run from a heap and a pool without entries or
    from the start of a machine. Once a text has been interned, its handle leads to the string,
    interning the text again answers with this handle and changes nothing at all, and no other
    text and no other object gets the handle. Interning that fails leaves the pool as it is. -/
theorem interning_stable (env : Environment) (config : HeapConfig)
    (hstart : m₀ = Machine.bare config ∨ Machine.start env config = .ok m₀)
    (hbefore : InternRun m₀ m) :
    (∀ text handle m₁, intern text m = (.ok handle, m₁) → ∀ m', InternRun m₁ m' →
      m'.heap.read handle = .ok (.string text) ∧
      intern text m' = (.ok handle, m') ∧
      (∀ other m'', intern other m' = (.ok handle, m'') → other = text) ∧
      ∀ object fresh m'', allocate object m' = (.ok fresh, m'') → fresh ≠ handle) ∧
    ∀ text e m', intern text m = (.error e, m') → m'.strings = m.strings := by
  -- At both starting points the strings of the pool are in place.
  have hm₀ : m₀.Interned := by
    rcases hstart with rfl | hstart
    · exact Machine.interned_bare config
    · exact Machine.interned_start hstart
  have hm : m.Interned := (hbefore.retains hm₀).1
  refine ⟨?_, fun text e m' hintern => strings_of_intern_error hintern⟩
  intro text handle m₁ hintern m' hrun
  have hm₁ : m₁.Interned := by
    have hnext := ((Change.intern text).interned hm).1
    rwa [hintern] at hnext
  obtain ⟨hm', hentries⟩ := hrun.retains hm₁
  have hfind := hentries text handle (find?_of_intern hintern)
  exact ⟨(read_eq_ok_iff hm'.heap).mpr (hm'.texts text handle hfind), intern_of_find? hfind,
    fun other m'' hother => hm'.intern_inj hfind hother,
    fun object fresh m'' hfresh => hm'.allocate_ne hfind hfresh⟩

namespace Sample

/-- A heap with room for two objects, which it moves on every allocation, holds a number. -/
def numbered : Machine :=
  (Machine.bare { capacity := 2, relocateEvery := 1 }).perform { env with invoker := none }
    [⟨_, .allocate (.integer 7)⟩]

/-- Then a text is interned. -/
def interned : Machine := (intern "a" numbered).2

/-- Afterwards the number is written to through a pointer and given up, and a string with the
    same text takes its place. -/
def crowded : Machine :=
  ((Link.updateAt ⟨0, 2⟩ (fun _ => .integer 8) interned).2).perform { env with invoker := none }
    [⟨_, .release ⟨0⟩⟩, ⟨_, .collectGarbage⟩, ⟨_, .allocate (.string "a")⟩, ⟨_, .intern "b"⟩]

end Sample

/-- The handle of the number is given out again, and the heap is full. Still interning finds
    its string behind the other handle. -/
theorem crowded_interning_stable :
    InternRun Sample.interned Sample.crowded ∧
      intern "a" Sample.numbered = (.ok ⟨1⟩, Sample.interned) ∧
      Sample.crowded.heap.read ⟨1⟩ = .ok (.string "a") ∧
      intern "a" Sample.crowded = (.ok ⟨1⟩, Sample.crowded) ∧
      Sample.crowded.heap.read ⟨0⟩ = .ok (.string "a") ∧
      (intern "b" Sample.crowded).1 = .error (.thrown .outOfMemory) := by
  have hnone : ∀ invoke, ({ Sample.env with invoker := none } : Environment).invoker = some invoke →
      ∀ c buffer m, InternRun m (invoke c buffer m).2 := fun _ known => by cases known
  -- First a number is stored, and then the text.
  have hbefore : InternRun (Machine.bare { capacity := 2, relocateEvery := 1 }) Sample.numbered :=
    .operation _ (.allocate (.integer 7)) hnone trivial (.refl _)
  have hpool : Sample.interned.strings = StringPool.empty.insert "a" ⟨1⟩ := rfl
  have hnumber : ∀ text, Sample.interned.strings.find? text ≠ some ⟨0⟩ := by
    intro text
    rw [hpool, StringPool.find?_insert]
    split
    · decide
    · intro hfind
      cases hfind
  -- The pointer leads to the number, and no entry of the pool does.
  have hplace : ∀ text handle, Sample.interned.strings.find? text = some handle →
      Sample.interned.heap.resolve handle ≠ .ok ⟨0, 2⟩ := by
    intro text handle hfind
    rw [hpool, StringPool.find?_insert] at hfind
    split at hfind
    · cases hfind
      decide +kernel
    · cases hfind
  have hafter : InternRun Sample.interned Sample.crowded :=
    .operation _ (.intern "b") hnone trivial
      (.operation _ (.allocate (.string "a")) hnone trivial
        (.operation _ .collectGarbage hnone trivial
          (.operation _ (.release ⟨0⟩) hnone hnumber (.updateAt _ _ hplace (.refl _)))))
  have hstable := (interning_stable Sample.env _ (Or.inl rfl) hbefore).1 "a" ⟨1⟩ Sample.interned rfl
    Sample.crowded hafter
  exact ⟨hafter, rfl, hstable.1, hstable.2.1, by decide +kernel, rfl⟩

end Linkage
