import Mathlib.Data.Set.Basic
import Linkage.Proofs.ObjectGraphs
import Linkage.Proofs.ResolutionEnds

/-! # Objects without loops

    Linkage stores new objects, fills member names and arrays, and remembers constants. What it
    writes into an object must not lead back to this object. An array that is being filled
    must therefore be out of reach of everything that may be put into it.

    * `Machine.Untangled`: no loops, no loose ends, and the strings of the pool, the class
      objects and the remembered constants are objects.
    * `Machine.Seals known hidden`: nothing that linkage finds by itself, and nothing in
      `known`, leads into `hidden`. `Machine.Walled`: both.
    * `Machine.MayHold`, `Machine.MayWrite`: what may be put into an object.
    * `Machine.Walled.put`: an object that is put behind a handle keeps the order.
      `Machine.Walled.store`, `Machine.Walled.write`, `Machine.Walled.remember`: so does each
      elementary step. -/

namespace Linkage

open Link

variable {α β : Type} {known hidden : Set Handle} {m m' : Machine} {h r : Handle} {o : Object}

/-! ## Machines in order -/

/-- There are no loops and no loose ends. -/
structure Machine.Untangled (m : Machine) : Prop where
  heap : m.heap.WellFormed
  counted : m.heap.view.Counted
  grounded : Grounded m.object?
  loopFree : LoopFree m.object?
  /-- A class object is that of a class. -/
  classed : ∀ h id, m.object? h = some (.classObject id) → ∃ c, m.classes.get? id = some c
  texts : m.TextsInPlace
  mirrors : ∀ c ∈ m.classes.classes, ∃ id, m.object? c.classObject = some (.classObject id)
  memos : ∀ slot h, m.memos.lookup slot = some h → m.object? h ≠ none

/-- Nothing in `known` and nothing that the machine finds by itself leads into `hidden`. -/
structure Machine.Seals (m : Machine) (known hidden : Set Handle) : Prop where
  known_live : ∀ h ∈ known, m.object? h ≠ none
  apart : ∀ h ∈ known, h ∉ hidden
  live : ∀ h ∈ hidden, m.object? h ≠ none
  objects : ∀ h r, Refers m.object? h r → h ∉ hidden → r ∉ hidden
  strings : ∀ text h, m.strings.find? text = some h → h ∉ hidden
  classObjects : ∀ c ∈ m.classes.classes, c.classObject ∉ hidden
  constants : ∀ slot h, m.memos.lookup slot = some h → h ∉ hidden

/-- The machine is in order, and `hidden` is out of reach. -/
structure Machine.Walled (known hidden : Set Handle) (m : Machine) : Prop
    extends m.Untangled, m.Seals known hidden

/-- An object outside of `hidden`. -/
def Machine.Outside (m : Machine) (hidden : Set Handle) (h : Handle) : Prop :=
  m.object? h ≠ none ∧ h ∉ hidden

/-- The object `r` may be put into the object `h`: it does not lead back to it, and it is
    outside if `h` is. -/
structure Machine.MayHold (m : Machine) (hidden : Set Handle) (h r : Handle) : Prop where
  live : m.object? r ≠ none
  away : ¬ Leads m.object? r h
  outside : h ∉ hidden → r ∉ hidden

/-- The handle of an interned string or of the class object of a class. -/
def Machine.Roots (m : Machine) (h : Handle) : Prop :=
  (∃ text, m.strings.find? text = some h) ∨ ∃ c ∈ m.classes.classes, c.classObject = h

/-- The object `old` behind the handle may be replaced by `new`. Interned strings and class
    objects of classes stay as they are. -/
structure Machine.MayWrite (m : Machine) (hidden : Set Handle) (h : Handle) (old new : Object) :
    Prop where
  root : m.Roots h → new = old
  classed : ∀ id, new = .classObject id → ∃ c, m.classes.get? id = some c
  holds : ∀ r ∈ new.holds, r ∈ old.holds ∨ m.MayHold hidden h r

theorem Machine.seals_empty (hknown : ∀ h ∈ known, m.object? h ≠ none) :
    m.Seals known ∅ where
  known_live := hknown
  apart := fun _ _ hmem => hmem
  live := fun _ hmem => hmem.elim
  objects := fun _ _ _ _ hmem => hmem
  strings := fun _ _ _ hmem => hmem
  classObjects := fun _ _ hmem => hmem
  constants := fun _ _ _ hmem => hmem

/-- Interned strings and class objects refer to nothing. -/
theorem Machine.Untangled.root_cases (hm : m.Untangled) (hroot : m.Roots h) :
    ∃ o, m.object? h = some o ∧ o.holds = [] ∧ ((∃ text, o = .string text) ∨
      ∃ id, o = .classObject id) := by
  rcases hroot with ⟨text, hfind⟩ | ⟨c, hc, rfl⟩
  · exact ⟨_, hm.texts text h hfind, rfl, Or.inl ⟨text, rfl⟩⟩
  · obtain ⟨id, hid⟩ := hm.mirrors c hc
    exact ⟨_, hid, rfl, Or.inr ⟨id, rfl⟩⟩

theorem Machine.Walled.outside_of_root (hm : m.Walled known hidden) (hroot : m.Roots h) :
    m.Outside hidden h := by
  obtain ⟨o, hobject, -⟩ := hm.root_cases hroot
  refine ⟨by simp [hobject], ?_⟩
  rcases hroot with ⟨text, hfind⟩ | ⟨c, hc, rfl⟩
  · exact hm.strings text h hfind
  · exact hm.classObjects c hc

theorem Machine.Untangled.not_roots (hm : m.Untangled) (hobject : m.object? h = some o)
    (hstring : o.string? = none) (hclass : o.classId? = none) : ¬ m.Roots h := by
  intro hroot
  obtain ⟨leaf, hleaf, -, hkind⟩ := hm.root_cases hroot
  rw [hobject, Option.some.injEq] at hleaf
  subst hleaf
  rcases hkind with ⟨text, rfl⟩ | ⟨id, rfl⟩
  · cases hstring
  · cases hclass

/-- Interned strings and class objects may be put into every other object. -/
theorem Machine.Walled.mayHold_of_root (hm : m.Walled known hidden) (hroot : m.Roots r)
    (hh : ¬ m.Roots h) : m.MayHold hidden h r := by
  obtain ⟨leaf, hleaf, hholds, -⟩ := hm.root_cases hroot
  refine ⟨by simp [hleaf], fun hleads => hh ?_, fun _ => (hm.outside_of_root hroot).2⟩
  exact hleads.eq_of_leaf hleaf hholds ▸ hroot

/-- What is outside leads to nothing hidden. -/
theorem Machine.Seals.not_leads (hm : m.Seals known hidden) (hr : r ∉ hidden) (hh : h ∈ hidden) :
    ¬ Leads m.object? r h := by
  intro hleads
  induction hleads using Relation.ReflTransGen.head_induction_on with
  | refl => exact hr hh
  | head hrefers _ ih => exact ih (hm.objects _ _ hrefers hr)

/-! ## Steps -/

/-- One object is put behind the handle, new or in place of another one. Everything that the
    machine finds by itself stays where it is. Only a new object becomes an interned string
    or the class object of a new class. -/
structure Machine.Puts (m m' : Machine) (h : Handle) (o : Object) : Prop where
  heap : m'.heap.WellFormed
  counted : m'.heap.view.Counted
  objects : m'.object? = Function.update m.object? h (some o)
  roots : ∀ x, m.Roots x → m'.object? x = m.object? x
  grows : ∀ id c, m.classes.get? id = some c → m'.classes.get? id = some c
  strings : ∀ text x, m'.strings.find? text = some x →
    m.strings.find? text = some x ∨ m.object? h = none ∧ x = h ∧ o = .string text
  classes : ∀ c ∈ m'.classes.classes, c ∈ m.classes.classes ∨
    m.object? h = none ∧ c.classObject = h ∧ ∃ id, o = .classObject id
  memos : m'.memos = m.memos

namespace Machine.Walled

/-- Nothing happens that is to be seen. -/
theorem of_view (hm : m.Walled known hidden) (hw : m'.heap.WellFormed)
    (hview : m'.heap.view = m.heap.view) (hstrings : m'.strings = m.strings)
    (hclasses : m'.classes = m.classes) (hmemos : m'.memos = m.memos) :
    m'.Walled known hidden := by
  have hobjects : m'.object? = m.object? := by
    unfold Machine.object?
    rw [hview]
  refine { heap := hw, counted := hview ▸ hm.counted, grounded := ?_, loopFree := ?_, classed := ?_,
           texts := ?_, mirrors := ?_, memos := ?_, known_live := ?_, apart := hm.apart, live := ?_,
           objects := ?_, strings := ?_, classObjects := ?_, constants := ?_ }
  · -- Each part is about objects, strings, classes or constants, and these are the same.
    rw [hobjects]; exact hm.grounded
  · rw [hobjects]; exact hm.loopFree
  · rw [hobjects, hclasses]; exact hm.classed
  · unfold Machine.TextsInPlace; rw [hobjects, hstrings]; exact hm.texts
  · rw [hobjects, hclasses]; exact hm.mirrors
  · rw [hobjects, hmemos]; exact hm.memos
  · rw [hobjects]; exact hm.known_live
  · rw [hobjects]; exact hm.live
  · rw [hobjects]; exact hm.objects
  · rw [hstrings]; exact hm.strings
  · rw [hclasses]; exact hm.classObjects
  · rw [hmemos]; exact hm.constants

/-- A full heap shows nothing of an attempt to store an object. -/
theorem refused {heap : Heap Object} (hm : m.Walled known hidden)
    (hfull : m.heap.allocate o = (none, heap)) :
    ({ m with heap } : Machine).Walled known hidden := by
  have hwell := Heap.wellFormed_allocate hm.heap o
  rw [hfull] at hwell
  exact hm.of_view hwell (Heap.view_of_refused hm.heap hfull) rfl rfl rfl

/-- The object put behind the handle ties no loop and opens no way to what is hidden. -/
theorem put (hm : m.Walled known hidden) (hput : m.Puts m' h o)
    (hholds : ∀ r ∈ o.holds, m.MayHold hidden h r)
    (hclass : ∀ id, o = .classObject id → ∃ c, m'.classes.get? id = some c) :
    m'.Walled known hidden := by
  have hself : m'.object? h = some o := by rw [hput.objects, Function.update_self]
  have hstays : ∀ {x}, m.object? x ≠ none → m'.object? x ≠ none := by
    intro x hx
    rw [hput.objects]
    by_cases hxh : x = h
    · simp [hxh]
    · rwa [Function.update_of_ne hxh]
  -- Only objects are hidden, so an object that is new is not.
  have hnew : m.object? h = none → h ∉ hidden := fun hfree hmem => hm.live h hmem hfree
  refine { heap := hput.heap, counted := hput.counted, grounded := ?_, loopFree := ?_,
           classed := ?_, texts := ?_, mirrors := ?_, memos := ?_,
           known_live := fun x hx => hstays (hm.known_live x hx), apart := hm.apart,
           live := fun x hx => hstays (hm.live x hx), objects := ?_, strings := ?_,
           classObjects := ?_, constants := hput.memos ▸ hm.constants }
  · rw [hput.objects]
    exact hm.grounded.update (fun r hr => (hholds r hr).live)
  · rw [hput.objects]
    exact hm.loopFree.update (fun r hr => (hholds r hr).away)
  · intro x id hx
    by_cases hxh : x = h
    · rw [hxh, hself, Option.some.injEq] at hx
      exact hclass id hx
    · rw [hput.objects, Function.update_of_ne hxh] at hx
      obtain ⟨c, hc⟩ := hm.classed x id hx
      exact ⟨c, hput.grows id c hc⟩
  · intro text x hx
    rcases hput.strings text x hx with hx | ⟨-, rfl, rfl⟩
    · rw [hput.roots x (Or.inl ⟨text, hx⟩)]
      exact hm.texts text x hx
    · exact hself
  · intro c hc
    rcases hput.classes c hc with hc | ⟨-, rfl, id, rfl⟩
    · rw [hput.roots c.classObject (Or.inr ⟨c, hc, rfl⟩)]
      exact hm.mirrors c hc
    · exact ⟨id, hself⟩
  · rw [hput.memos]
    exact fun slot x hx => hstays (hm.memos slot x hx)
  · intro x y hxy hx
    rw [hput.objects] at hxy
    rcases refers_update_iff.mp hxy with ⟨rfl, hy⟩ | ⟨-, hxy⟩
    · exact (hholds y hy).outside hx
    · exact hm.objects x y hxy hx
  · intro text x hx
    rcases hput.strings text x hx with hx | ⟨hfree, rfl, -⟩
    · exact hm.strings text x hx
    · exact hnew hfree
  · intro c hc
    rcases hput.classes c hc with hc | ⟨hfree, rfl, -⟩
    · exact hm.classObjects c hc
    · exact hnew hfree

/-- A new object that refers to objects outside. It may be a string that is interned, or the
    class object of a new class. -/
theorem store (hm : m.Walled known hidden) (m' : Machine)
    (hstored : m.heap.allocate o = (some h, m'.heap))
    (hholds : ∀ r ∈ o.holds, m.Outside hidden r)
    (hclass : ∀ id, o = .classObject id → ∃ c, m'.classes.get? id = some c)
    (hgrows : ∀ id c, m.classes.get? id = some c → m'.classes.get? id = some c)
    (hstrings : ∀ text x, m'.strings.find? text = some x →
      m.strings.find? text = some x ∨ x = h ∧ o = .string text)
    (hclasses : ∀ c ∈ m'.classes.classes,
      c ∈ m.classes.classes ∨ c.classObject = h ∧ ∃ id, o = .classObject id)
    (hmemos : m'.memos = m.memos) :
    m'.Walled known hidden ∧ m'.object? h = some o ∧ m'.Outside hidden h := by
  have hw' : m'.heap.WellFormed := by
    have hwell := Heap.wellFormed_allocate hm.heap o
    rwa [hstored] at hwell
  have hcounted : m'.heap.view.Counted := by
    have hview := (Heap.allocate_view hm.heap o).2
    rw [hstored] at hview
    rw [hview]
    exact hm.counted.allocate hm.heap.next_dead o
  obtain ⟨hfree, hobjects⟩ := Heap.allocate_eq_some hm.heap hstored
  replace hobjects : m'.object? = Function.update m.object? h (some o) := hobjects
  replace hfree : m.object? h = none := hfree
  have hself : m'.object? h = some o := by rw [hobjects, Function.update_self]
  -- There is an object behind a root, so it is not the free handle.
  have hroots : ∀ x, m.Roots x → m'.object? x = m.object? x := by
    intro x hx
    have hne : x ≠ h := by
      rintro rfl
      exact (hm.outside_of_root hx).1 hfree
    rw [hobjects, Function.update_of_ne hne]
  have hput : m.Puts m' h o :=
    { heap := hw', counted := hcounted, objects := hobjects, roots := hroots, grows := hgrows,
      strings := fun text x hx => (hstrings text x hx).imp_right (fun hx => ⟨hfree, hx⟩),
      classes := fun c hc => (hclasses c hc).imp_right (fun hc => ⟨hfree, hc⟩), memos := hmemos }
  refine ⟨hm.put hput (fun r hr => ?_) hclass, hself, by simp [hself], fun hmem => ?_⟩
  · obtain ⟨hlive, hout⟩ := hholds r hr
    exact ⟨hlive, hm.grounded.not_leads_of_free hfree hlive, fun _ => hout⟩
  · exact hm.live h hmem hfree

/-- An object is changed, and refers to what it may hold. -/
theorem write {old : Object} {f : Object → Object} (hm : m.Walled known hidden)
    (hobject : m.object? h = some old) (hmay : m.MayWrite hidden h old (f old)) :
    (update h f m).2.Walled known hidden := by
  have hobjects := (update_object?_of_read hm.heap ((read_eq_ok_iff hm.heap).mpr hobject) f).2
  have hcounted : (update h f m).2.heap.view.Counted := by
    rw [update_machine]
    show ((m.heap.update h f).2.view).Counted
    rw [(Heap.update_view hm.heap h f).2]
    exact hm.counted.update h f
  have hroots : ∀ x, m.Roots x → (update h f m).2.object? x = m.object? x := by
    intro x hx
    rw [hobjects]
    by_cases hxh : x = h
    · subst hxh
      rw [Function.update_self, hmay.root hx, hobject]
    · rw [Function.update_of_ne hxh]
  have hstrings : (update h f m).2.strings = m.strings := by rw [update_machine]
  have hclasses : (update h f m).2.classes = m.classes := by rw [update_machine]
  have hput : m.Puts (update h f m).2 h (f old) :=
    { heap := by rw [update_machine]; exact Heap.wellFormed_update hm.heap h f
      counted := hcounted, objects := hobjects, roots := hroots
      grows := fun id c hc => hclasses ▸ hc
      strings := fun text x hx => Or.inl (hstrings ▸ hx)
      classes := fun c hc => Or.inl (hclasses ▸ hc)
      memos := by rw [update_machine] }
  refine hm.put hput (fun r hr => ?_) (hclasses ▸ hmay.classed)
  rcases hmay.holds r hr with hr | hr
  · -- What it referred to before does not lead to it, as there are no loops.
    have hrefers : Refers m.object? h r := ⟨old, hobject, hr⟩
    refine ⟨hm.grounded h r hrefers, fun hback => ?_, hm.objects h r hrefers⟩
    exact hm.loopFree h (Relation.TransGen.head' hrefers hback)
  · exact hr

/-- What a constant has been resolved to is remembered. -/
theorem remember (hm : m.Walled known hidden) (hh : m.Outside hidden h) (slot : ConstantSlot) :
    (remember slot h m).2.Walled known hidden := by
  -- What is looked up is what was remembered last, or it was there before.
  have hlookup : ∀ other x, ((slot, h) :: m.memos).lookup other = some x →
      x = h ∨ m.memos.lookup other = some x := by
    intro other x hx
    rw [List.lookup_cons] at hx
    split at hx
    · exact Or.inl (Option.some.inj hx).symm
    · exact Or.inr hx
  refine { toUntangled := { hm.toUntangled with memos := ?_ },
           toSeals := { hm.toSeals with constants := ?_ } }
  · intro other x hx
    rcases hlookup other x hx with rfl | hx
    · exact hh.1
    · exact hm.memos other x hx
  · intro other x hx
    rcases hlookup other x hx with rfl | hx
    · exact hh.2
    · exact hm.constants other x hx

end Machine.Walled

end Linkage
