import Linkage.Proofs.MemberNames
import Linkage.Proofs.Startup

/-! # The class table of a reachable machine

    If outside code leaves the class objects alone, then in every machine that a run
    reaches the class table is in order: places, names and class objects of classes
    lead to each other, supertypes stand before their subtypes, and the lists of
    superclasses and interfaces that a class carries are those of the hierarchy. No
    run does anything to the table but add classes at its end. -/

namespace Linkage

open Link Relation

/-- Outside code neither writes to class objects nor gives them up. -/
def ClassObjectsKept : Discipline := fun m {_} op =>
  match op with
  | .update handle _ => ∀ c ∈ m.classes.classes, c.classObject ≠ handle
  | .release handle => ∀ c ∈ m.classes.classes, c.classObject ≠ handle
  | _ => True

/-- The class table is in order. -/
structure Machine.TableInOrder (m : Machine) : Prop where
  /-- A class knows its place. -/
  ids : ∀ {i c}, m.classes.get? i = some c → c.id = i
  /-- The places that are kept by name are those of the classes with these names. -/
  byName : ∀ {name i}, m.classes.places.lookup name = some i ↔
    ∃ c, m.classes.get? i = some c ∧ c.name = name
  /-- A class is found by its name, and nothing else is. -/
  found : ∀ {name c}, m.classes.find? name = some c ↔ m.classes.get? c.id = some c ∧ c.name = name
  names : ∀ {i j c d}, m.classes.get? i = some c → m.classes.get? j = some d →
    c.name = d.name → i = j
  /-- The class object of a class stands for it, and for no other class. -/
  classObject : ∀ {i c}, m.classes.get? i = some c →
    m.heap.read c.classObject = .ok (.classObject i)
  classObjects : ∀ {i j c d}, m.classes.get? i = some c → m.classes.get? j = some d →
    c.classObject = d.classObject → i = j
  /-- Supertypes and components stand before the class and are of the right kind. -/
  superclass : ∀ {i s c}, m.classes.get? i = some c → c.superclass = some s →
    s < i ∧ ∃ d, m.classes.get? s = some d ∧
      d.isInterface = false ∧ d.isArray = false ∧ d.isPrimitive = false
  interfaces : ∀ {i j c}, m.classes.get? i = some c → j ∈ c.interfaces →
    j < i ∧ ∃ d, m.classes.get? j = some d ∧ d.isInterface = true
  component : ∀ {i k c}, m.classes.get? i = some c → c.kind = .array k → k < i
  /-- The superclasses are the superclass chain. -/
  superclasses : ∀ {i c}, m.classes.get? i = some c → m.classes.SuperclassChain i c.superclasses
  isSubclassOf : ∀ {i j c}, m.classes.get? i = some c →
    (c.isSubclassOf j = true ↔ ReflTransGen m.classes.Extends i j)
  /-- The interface table holds each interface that is reached by going up, once. -/
  nodup : ∀ {i c}, m.classes.get? i = some c → c.itable.Nodup
  itable : ∀ {i j c}, m.classes.get? i = some c →
    (j ∈ c.itable ↔ j ≠ i ∧ m.classes.HasInterface j ∧ TransGen m.classes.Below i j)
  implements : ∀ {i j c}, m.classes.get? i = some c →
    (c.implements j = true ↔ j = i ∨ m.classes.HasInterface j ∧ TransGen m.classes.Below i j)

variable {m m' : Machine}

/-! ## Class objects -/

/-- The class objects of all classes are in place. -/
def Machine.ClassObjectsInPlace (m : Machine) : Prop :=
  ∀ i c, m.classes.get? i = some c → m.object? c.classObject = some (.classObject i)

/-- A change that leaves class objects alone keeps them in place. -/
theorem Change.classObjectsInPlace (h : Change ClassObjectsKept m m') (hw : m.heap.WellFormed)
    (hm : m.ClassObjectsInPlace) : m'.ClassObjectsInPlace := by
  -- All effects but one keep the table and write behind a handle that is no class object.
  have hother : ∀ {handle : Handle} {object : Option Object}, m'.classes = m.classes →
      m'.object? = Function.update m.object? handle object →
      (∀ {i c}, m.classes.get? i = some c → c.classObject ≠ handle) → m'.ClassObjectsInPlace := by
    intro handle object hclasses hobjects hne i c hc
    rw [hclasses] at hc
    rw [hobjects, Function.update_of_ne (hne hc)]
    exact hm i c hc
  cases h.effect hw with
  | kept objects classes =>
    intro i c hc
    rw [classes] at hc
    rw [objects]
    exact hm i c hc
  | stored free objects classes _ =>
    refine hother classes objects (fun hc he => ?_)
    have hobject := hm _ _ hc
    rw [he, free] at hobject
    cases hobject
  | @defined d _ free objects classes =>
    intro i c hc
    rw [classes] at hc
    rw [objects]
    rcases ClassTable.get?_push hc with hold | ⟨rfl, rfl⟩
    · have hne : c.classObject ≠ d.classObject := by
        intro he
        have hobject := hm i c hold
        rw [he, free] at hobject
        cases hobject
      rw [Function.update_of_ne hne]
      exact hm i c hold
    · rw [Function.update_self]
  | filled was _ objects classes =>
    refine hother classes objects (fun hc he => ?_)
    have hobject := hm _ _ hc
    rw [he, was] at hobject
    cases hobject
  | amended was ordinary objects classes =>
    refine hother classes objects (fun hc he => ?_)
    have hobject := hm _ _ hc
    rw [he, was, Option.some.injEq] at hobject
    have hnone := ordinary.1.1
    rw [hobject] at hnone
    cases hnone
  | changed _ allowed objects classes =>
    exact hother classes objects (fun hc => allowed _ (ClassTable.mem_of_get? hc))
  | released allowed objects classes =>
    exact hother classes objects (fun hc => allowed _ (ClassTable.mem_of_get? hc))

/-- What a run keeps that leaves class objects alone. -/
structure Machine.Steady (m : Machine) : Prop where
  sound : m.Sound
  started : m.classes.Started
  classObjects : m.ClassObjectsInPlace

theorem Changes.steady (h : Changes ClassObjectsKept m m') (hm : m.Steady) : m'.Steady :=
  h.keeps (P := Machine.Steady) (fun hchange hm =>
    ⟨hchange.sound hm.sound, hchange.started hm.started,
      hchange.classObjectsInPlace hm.sound.heap hm.classObjects⟩) hm

theorem Machine.Reachable.steady (h : m.Reachable ClassObjectsKept) : m.Steady := by
  refine ⟨h.sound, h.started, ?_⟩
  obtain ⟨config, hchanges⟩ := h.changes
  have hboth := hchanges.keeps (P := fun m => m.heap.WellFormed ∧ m.ClassObjectsInPlace)
    (fun hchange hm => ⟨hchange.wellFormed hm.1, hchange.classObjectsInPlace hm.1 hm.2⟩)
    ⟨Heap.wellFormed_empty config, by
      intro i c hc
      simp [Machine.bare, ClassTable.empty, ClassTable.get?] at hc⟩
  exact hboth.2

theorem Machine.Steady.read_classObject (h : m.Steady) {i : ClassId} {c : Class}
    (hc : m.classes.get? i = some c) : m.heap.read c.classObject = .ok (.classObject i) :=
  (read_eq_ok_iff h.sound.heap).mpr (h.classObjects i c hc)

/-! ## Growth -/

theorem Changes.classes_prefix {rule : Discipline} (h : Changes rule m m') :
    m.classes.classes.toList <+: m'.classes.classes.toList := by
  induction h with
  | refl => exact List.prefix_refl _
  | tail _ hlast ih =>
    rcases hlast.classes_cases with he | ⟨c, _, he⟩
    · rw [he]
      exact ih
    · refine ih.trans ?_
      rw [he]
      simp

/-! ## The table -/

/-- In every machine that a run reaches the class table is in order, and whatever
    runs from there only adds classes at its end. -/
theorem classTable_in_order (h : m.Reachable ClassObjectsKept) :
    m.TableInOrder ∧ ∀ {rule : Discipline} {m' : Machine}, Run rule m m' →
      m.classes.classes.toList <+: m'.classes.classes.toList := by
  have hlinked := h.started.toLinked
  have hobjects := h.steady.classObjects
  have hfits : ∀ {i c}, m.classes.get? i = some c → c.Fits m.classes ∧ c.id = i := fun hc =>
    ⟨hlinked.fits hc, hlinked.ids hc⟩
  refine ⟨⟨hlinked.ids, hlinked.places_eq_some_iff, hlinked.find?_eq_some_iff, hlinked.names,
    h.steady.read_classObject, ?_, ?_, ?_, ?_,
    hlinked.superclassChain, hlinked.isSubclassOf_iff, fun hc => (hfits hc).1.nodup, ?_,
    hlinked.implements_iff⟩, fun hrun => hrun.changes.classes_prefix⟩
  · -- A class object holds the number of its class, so one object is that of one class.
    intro i j c d hc hd he
    have hsame := hobjects i c hc
    rw [he, hobjects j d hd, Option.some.injEq, Object.classObject.injEq] at hsame
    exact hsame.symm
  · intro i s c hc hs
    obtain ⟨hfits, hid⟩ := hfits hc
    exact hid ▸ hfits.superclass hs
  · intro i j c hc hj
    obtain ⟨hfits, hid⟩ := hfits hc
    exact hid ▸ hfits.interfaces hj
  · intro i k c hc hk
    obtain ⟨hfits, hid⟩ := hfits hc
    exact hid ▸ hfits.component hk
  · intro i j c hc
    rw [hlinked.mem_itable hc]
    refine ⟨fun hj => ⟨Nat.ne_of_lt (hlinked.lt_of_transGen_below hj.2), hj⟩, fun hj => hj.2⟩

theorem Sample.classObjectsKept : ∀ op ∈ Sample.operations, ∀ m, ClassObjectsKept m op.2 := by
  intro op hop m
  simp only [Sample.operations, List.mem_cons, List.not_mem_nil, or_false] at hop
  rcases hop with rfl | rfl | rfl | rfl | rfl | rfl | rfl <;> trivial

theorem square_table_in_order :
    ∃ m c, Machine.Reachable ClassObjectsKept m ∧ m.classes.get? 35 = some c ∧
      c.itable = [34, 33] ∧ m.TableInOrder ∧ ∀ {rule : Discipline} {m' : Machine}, Run rule m m' →
        m.classes.classes.toList <+: m'.classes.classes.toList := by
  obtain ⟨m, _, hafter, ⟨hsquare, _⟩, _⟩ :=
    Sample.reachable_after (fun _ => trivial) Sample.classObjectsKept
  obtain ⟨c, hget, hparts⟩ := Option.map_eq_some_iff.mp hsquare
  simp only [Prod.mk.injEq] at hparts
  exact ⟨Sample.after m, c, hafter, hget, hparts.2.1, classTable_in_order hafter⟩

end Linkage
