import Linkage.Proofs.Dispatch

/-! # Offsets of fields

    The fields of a class are laid out by one fold over their declarations, with a
    counter for instance fields that goes on where the superclass ended, and another
    one for static fields. After each field, the offsets given out are those between
    where the counter started and where it is (`FieldLayout.Packed`). Going up the
    superclasses, the instance fields of an object lie one behind the other from its
    header to its end (`ClassTable.tiles_carried`), and targets tell apart the fields
    of an object and the static fields of a class (`fieldOffsets_apart`). -/

namespace Linkage

open Relation

/-! ## Tilings -/

/-- The slots at the given places lie one behind the other from `lo` to `hi`, each of
    them at one place. -/
structure Tiles {ι : Type} (slotAt : ι → Nat → Prop) (lo hi : Nat) : Prop where
  ends : ∃ count, hi = lo + Field.slotSize * count
  covers : ∀ {n}, (∃ p, slotAt p n) ↔ ∃ q, n = lo + Field.slotSize * q ∧ n < hi
  distinct : ∀ {p p' n}, slotAt p n → slotAt p' n → p = p'

namespace Tiles

variable {ι : Type} {slotAt slotAt' : ι → Nat → Prop} {lo mid hi : Nat}

theorem congr (h : Tiles slotAt lo hi) (hiff : ∀ p n, slotAt' p n ↔ slotAt p n) :
    Tiles slotAt' lo hi := by
  have he : slotAt' = slotAt := funext fun p => funext fun n => propext (hiff p n)
  rw [he]
  exact h

theorem bounds (h : Tiles slotAt lo hi) {p : ι} {n : Nat} (hp : slotAt p n) :
    lo ≤ n ∧ n < hi := by
  obtain ⟨q, hq, hlt⟩ := h.covers.mp ⟨p, hp⟩
  exact ⟨by omega, hlt⟩

/-- A tiling from `lo` to `mid` and one from `mid` to `hi` are one from `lo` to `hi`. -/
theorem append (h : Tiles slotAt lo mid) (h' : Tiles slotAt' mid hi) :
    Tiles (fun p n => slotAt p n ∨ slotAt' p n) lo hi where
  ends := by
    obtain ⟨count, hmid⟩ := h.ends
    obtain ⟨count', hhi⟩ := h'.ends
    exact ⟨count + count', by rw [hhi, hmid, Nat.mul_add]; omega⟩
  covers := by
    intro n
    obtain ⟨count, hmid⟩ := h.ends
    obtain ⟨count', hhi⟩ := h'.ends
    unfold Field.slotSize at hmid hhi
    rw [exists_or, h.covers, h'.covers]
    unfold Field.slotSize
    constructor
    · -- The second tiling counts its slots from the end of the first.
      rintro (⟨q, hn, hlt⟩ | ⟨q, hn, hlt⟩)
      · exact ⟨q, hn, by omega⟩
      · exact ⟨count + q, by omega, hlt⟩
    · rintro ⟨q, hn, hlt⟩
      by_cases hq : n < mid
      · exact Or.inl ⟨q, hn, hq⟩
      · exact Or.inr ⟨q - count, by omega, hlt⟩
  distinct := by
    rintro p p' n (hp | hp) (hp' | hp')
    · exact h.distinct hp hp'
    · -- Slots of different parts lie on different sides of `mid`.
      have hlt := (h.bounds hp).2
      have hle := (h'.bounds hp').1
      omega
    · have hlt := (h.bounds hp').2
      have hle := (h'.bounds hp).1
      omega
    · exact h'.distinct hp hp'

end Tiles

/-! ## Layouts -/

/-- The instance fields have the offsets from `start` on, and the static fields the
    slots from 0 on, in the order of their declarations. -/
structure FieldLayout.Packed (l : FieldLayout) (start : Nat) : Prop where
  instances : ∃ count, l.instanceSize = start + Field.slotSize * count ∧
    (l.fields.toList.filter (fun f => !f.isStatic)).map Field.slot =
      List.range' start count Field.slotSize
  statics : (l.fields.toList.filter Field.isStatic).map Field.slot = List.range l.staticSlots

theorem FieldLayout.packed_start (superclass : Option Class) :
    (FieldLayout.start superclass).Packed (FieldLayout.start superclass).instanceSize where
  instances := ⟨0, rfl, rfl⟩
  statics := rfl

theorem FieldLayout.packed_add {start : Nat} {l l' : FieldLayout} {d : FieldDeclaration}
    (h : l.add d = .ok l') (hl : l.Packed start) : l'.Packed start := by
  obtain ⟨⟨count, hsize, hinstances⟩, hstatics⟩ := hl
  unfold FieldLayout.add at h
  split at h
  · cases h
  · split at h
    · -- A static field takes the next slot; the instance fields stay as they are.
      rename_i hstatic
      cases h
      refine ⟨⟨count, hsize, ?_⟩, ?_⟩
      · simp [List.filter_append, Field.isStatic, hstatic] at hinstances ⊢
        exact hinstances
      · simp [List.filter_append, Field.isStatic, hstatic, List.range_succ] at hstatics ⊢
        exact hstatics
    · rename_i hinstance
      rw [Bool.not_eq_true] at hinstance
      cases h
      refine ⟨⟨count + 1, ?_, ?_⟩, ?_⟩
      · show l.instanceSize + Field.slotSize = start + Field.slotSize * (count + 1)
        rw [hsize, Nat.mul_succ, Nat.add_assoc]
      · simp [List.filter_append, Field.isStatic, hinstance, List.range'_concat, hsize]
          at hinstances ⊢
        exact hinstances
      · simp [List.filter_append, Field.isStatic, hinstance] at hstatics ⊢
        exact hstatics

/-- Of the members of a list with a property, no two have the same value if the values
    of these members are distinct. -/
theorem eq_of_nodup_map_filter {α β : Type} {p : α → Bool} {g : α → β} {l : List α}
    (h : ((l.filter p).map g).Nodup) {i j : Nat} {a b : α} (hi : l[i]? = some a)
    (hj : l[j]? = some b) (ha : p a = true) (hb : p b = true) (hab : g a = g b) : i = j := by
  have hpairs : l.Pairwise fun a b => p a = true → p b = true → g a ≠ g b :=
    List.pairwise_filter.mp (List.pairwise_map.mp h)
  rw [List.pairwise_iff_getElem] at hpairs
  obtain ⟨hilt, rfl⟩ := List.getElem?_eq_some_iff.mp hi
  obtain ⟨hjlt, rfl⟩ := List.getElem?_eq_some_iff.mp hj
  rcases Nat.lt_trichotomy i j with hlt | he | hlt
  · exact absurd hab (hpairs i j hilt hjlt hlt ha hb)
  · exact he
  · exact absurd hab.symm (hpairs j i hjlt hilt hlt hb ha)

namespace FieldLayout.Packed

variable {l : FieldLayout} {start : Nat}

/-- The instance fields tile what the counter has gone through. -/
theorem tiles (h : l.Packed start) :
    Tiles (fun (k : Nat) n => ∃ f : Field, l.fields[k]? = some f ∧ f.isStatic = false ∧ f.slot = n)
      start l.instanceSize := by
  obtain ⟨count, hsize, hslots⟩ := h.instances
  refine ⟨⟨count, hsize⟩, ?_, ?_⟩
  · intro n
    -- The slots of the instance fields, as a list in the order of declaration.
    have hmem : (∃ (k : Nat) (f : Field), l.fields[k]? = some f ∧ f.isStatic = false ∧ f.slot = n) ↔
        n ∈ (l.fields.toList.filter (fun f => !f.isStatic)).map Field.slot := by
      simp only [List.mem_map, List.mem_filter, Array.mem_toList_iff, Array.mem_iff_getElem?,
        Bool.not_eq_true']
      constructor
      · rintro ⟨k, f, hk, hf, hn⟩
        exact ⟨f, ⟨⟨k, hk⟩, hf⟩, hn⟩
      · rintro ⟨f, ⟨⟨k, hk⟩, hf⟩, hn⟩
        exact ⟨k, f, hk, hf, hn⟩
    rw [hmem, hslots, List.mem_range', hsize]
    unfold Field.slotSize
    constructor
    · rintro ⟨q, hq, hn⟩
      exact ⟨q, hn, by omega⟩
    · rintro ⟨q, hn, hlt⟩
      exact ⟨q, by omega, hn⟩
  · rintro k k' n ⟨f, hk, hf, hn⟩ ⟨f', hk', hf', hn'⟩
    have hnodup : ((l.fields.toList.filter (fun f => !f.isStatic)).map Field.slot).Nodup := by
      rw [hslots]
      exact List.nodup_range' Field.slotSize (by decide)
    exact eq_of_nodup_map_filter hnodup (by simpa using hk) (by simpa using hk')
      (by simp [hf]) (by simp [hf']) (by rw [hn, hn'])

/-- Static fields with the same slot are the same. -/
theorem static_distinct (h : l.Packed start) {k k' : Nat} {f f' : Field}
    (hk : l.fields[k]? = some f) (hk' : l.fields[k']? = some f') (hf : f.isStatic = true)
    (hf' : f'.isStatic = true) (hslot : f.slot = f'.slot) : k = k' := by
  have hnodup : ((l.fields.toList.filter Field.isStatic).map Field.slot).Nodup := by
    rw [h.statics]
    exact List.nodup_range
  exact eq_of_nodup_map_filter hnodup (by simpa using hk) (by simpa using hk') hf hf' hslot

end FieldLayout.Packed

/-! ## Classes -/

variable {t t' : ClassTable} {c d : Class} {i j s : ClassId}

/-- The fields of the class as they were laid out. -/
def Class.fieldLayout (c : Class) : FieldLayout :=
  ⟨c.fields, c.instanceSize, c.staticSlots⟩

/-- Where the fields of the class start: behind those of the superclass. -/
inductive Class.FieldsStart (c : Class) (t : ClassTable) : Nat → Prop where
  | root (hroot : c.superclass = none) : c.FieldsStart t Field.headerSize
  | subclass {s : ClassId} {d : Class} (hs : c.superclass = some s) (hd : t.get? s = some d) :
      c.FieldsStart t d.instanceSize

/-- The fields of the class are packed behind those of the superclass. -/
def Class.Packed (c : Class) (t : ClassTable) : Prop :=
  ∃ start, c.FieldsStart t start ∧ c.fieldLayout.Packed start

/-- More classes change nothing about the fields. -/
theorem Class.Packed.mono (h : c.Packed t)
    (hget : ∀ {i d}, t.get? i = some d → t'.get? i = some d) : c.Packed t' := by
  obtain ⟨start, hstart, hpacked⟩ := h
  refine ⟨start, ?_, hpacked⟩
  cases hstart with
  | root hroot => exact .root hroot
  | subclass hs hd => exact .subclass hs (hget hd)

theorem ClassTable.Admits.packed (h : t.Admits c)
    (hids : ∀ {i c}, t.get? i = some c → c.id = i) (hkind : c.kind = .object) : c.Packed t := by
  cases h with
  | @declared d superclass interfaces layout _ hsuper _ hlaid classObject =>
    obtain ⟨_, hs, _, hfields, _⟩ := Layout.ofDeclaration_eq_ok hlaid
    have hpacked := foldlM_keeps
      (P := fun l => l.Packed (FieldLayout.start superclass).instanceSize)
      FieldLayout.packed_add hfields (FieldLayout.packed_start superclass)
    refine ⟨_, ?_, hpacked⟩
    cases superclass with
    | none => exact .root (by simp [Layout.toClass, hs])
    | some s =>
      exact .subclass (by simp [Layout.toClass, hs]) (ClassTable.get?_id hids (hsuper s rfl).1)
  | primitive p _ classObject => cases hkind
  | array _ _ _ _ _ _ classObject => cases hkind

/-- The fields of all classes with instances are packed. -/
def ClassTable.Packed (t : ClassTable) : Prop :=
  ∀ i c, t.get? i = some c → c.kind = .object → c.Packed t

theorem Change.packed {rule : Discipline} {m m' : Machine} (h : Change rule m m')
    (hsound : m.Sound) (hm : m.classes.Packed) : m'.classes.Packed := by
  rcases h.classes_cases with he | ⟨d, hadmits, he⟩
  · rw [he]
    exact hm
  · rw [he]
    intro i c hc hkind
    have hgrows : ∀ {i c}, m.classes.get? i = some c → (m.classes.push d).get? i = some c :=
      fun hget => ClassTable.get?_push_of_get? hget d
    rcases ClassTable.get?_push hc with hold | ⟨rfl, rfl⟩
    · exact (hm i c hold hkind).mono hgrows
    · exact (hadmits.packed hsound.ids hkind).mono hgrows

theorem Machine.Reachable.packed {rule : Discipline} {m : Machine} (h : m.Reachable rule) :
    m.classes.Packed := by
  refine h.of_changes (P := fun m => m.classes.Packed) ?_ Change.packed
  intro config i c hc
  simp [Machine.bare, ClassTable.empty, ClassTable.get?] at hc

/-! ## Objects -/

/-- Objects of the class at place `i` have the instance field `f`, which is number `k`
    of the class at place `j`. -/
def ClassTable.Carries (t : ClassTable) (i j : ClassId) (k : Nat) (f : Field) : Prop :=
  ReflTransGen t.Extends i j ∧
    ∃ c, t.get? j = some c ∧ c.fields[k]? = some f ∧ f.isStatic = false

/-- The offset of the field at a place: a class and the number of a field in it. -/
def ClassTable.CarriedAt (t : ClassTable) (i : ClassId) (p : ClassId × Nat) (n : Nat) : Prop :=
  ∃ f, t.Carries i p.1 p.2 f ∧ f.slot = n

/-- Objects have the fields that their class declares and those of the superclass. -/
theorem ClassTable.carries_iff (hc : t.get? i = some c) {k : Nat} {f : Field} :
    t.Carries i j k f ↔ (j = i ∧ c.fields[k]? = some f ∧ f.isStatic = false) ∨
      ∃ s, c.superclass = some s ∧ t.Carries s j k f := by
  constructor
  · rintro ⟨hup, hdeclared⟩
    rcases ReflTransGen.cases_head hup with rfl | ⟨s, ⟨c', hc', hs⟩, hup⟩
    · obtain ⟨c', hc', hdeclared⟩ := hdeclared
      rw [hc, Option.some.injEq] at hc'
      subst hc'
      exact Or.inl ⟨rfl, hdeclared⟩
    · rw [hc, Option.some.injEq] at hc'
      subst hc'
      exact Or.inr ⟨s, hs, hup, hdeclared⟩
  · rintro (⟨rfl, hdeclared⟩ | ⟨s, hs, hup, hdeclared⟩)
    · exact ⟨.refl, c, hc, hdeclared⟩
    · exact ⟨.head ⟨c, hc, hs⟩ hup, hdeclared⟩

/-- The superclass of a class stands before it and has instances. -/
theorem ClassTable.Linked.superclass_kind (h : t.Linked) (hc : t.get? i = some c)
    (hs : c.superclass = some s) : s < i ∧ ∃ d, t.get? s = some d ∧ d.kind = .object := by
  obtain ⟨hlt, d, hd, _, harray, hprimitive⟩ := (h.fits hc).superclass hs
  rw [h.ids hc] at hlt
  refine ⟨hlt, d, hd, ?_⟩
  cases hkind : d.kind with
  | primitive p => simp [Class.isPrimitive, hkind] at hprimitive
  | array k => simp [Class.isArray, hkind] at harray
  | object => rfl

/-- The fields that a class declares itself tile the place behind those of the
    superclass. -/
theorem Class.tiles_declared {start : Nat} (h : c.fieldLayout.Packed start) (i : ClassId) :
    Tiles (fun (p : ClassId × Nat) n =>
      p.1 = i ∧ ∃ f, c.fields[p.2]? = some f ∧ f.isStatic = false ∧ f.slot = n) start
      c.instanceSize := by
  have htiles := h.tiles
  refine ⟨htiles.ends, ?_, ?_⟩
  · intro n
    refine Iff.trans ?_ htiles.covers
    constructor
    · rintro ⟨⟨_, k⟩, _, hk⟩
      exact ⟨k, hk⟩
    · rintro ⟨k, hk⟩
      exact ⟨⟨i, k⟩, rfl, hk⟩
  · rintro ⟨_, k⟩ ⟨_, k'⟩ n ⟨rfl, hk⟩ ⟨rfl, hk'⟩
    exact Prod.ext rfl (htiles.distinct hk hk')

/-- The instance fields of an object tile the place between its header and its end. -/
theorem ClassTable.tiles_carried (hlinked : t.Linked) (hpacked : t.Packed)
    (hc : t.get? i = some c) (hkind : c.kind = .object) :
    Tiles (t.CarriedAt i) Field.headerSize c.instanceSize := by
  -- The superclass stands before the class.
  induction i using Nat.strongRecOn generalizing c with
  | ind i ih =>
    obtain ⟨start, hstart, hlayout⟩ := hpacked i c hc hkind
    have hown := Class.tiles_declared hlayout i
    cases hstart with
    | root hroot =>
      refine hown.congr fun p n => ?_
      unfold CarriedAt
      simp only [carries_iff hc, hroot]
      grind
    | @subclass s d hs hd =>
      obtain ⟨hlt, d', hd', hkind'⟩ := hlinked.superclass_kind hc hs
      rw [hd, Option.some.injEq] at hd'
      subst hd'
      refine ((ih s hlt hd hkind').append hown).congr fun p n => ?_
      unfold CarriedAt
      simp only [carries_iff hc, hs]
      grind

/-- Objects have the fields of all superclasses of their class. -/
theorem ClassTable.Carries.inherited (hup : ReflTransGen t.Extends i s) {k : Nat} {f : Field}
    (h : t.Carries s j k f) : t.Carries i j k f :=
  ⟨hup.trans h.1, h.2⟩

theorem ClassTable.Carries.field_unique {i' : ClassId} {k : Nat} {f f' : Field}
    (h : t.Carries i j k f) (h' : t.Carries i' j k f') : f = f' := by
  obtain ⟨_, c, hc, hf, _⟩ := h
  obtain ⟨_, c', hc', hf', _⟩ := h'
  rw [hc, Option.some.injEq] at hc'
  subst hc'
  rw [hf, Option.some.injEq] at hf'
  exact hf'

/-- Superclasses of a class with instances have instances. -/
theorem ClassTable.Linked.ancestor_kind (h : t.Linked) (hc : t.get? i = some c)
    (hkind : c.kind = .object) (hup : ReflTransGen t.Extends i s) :
    ∃ d, t.get? s = some d ∧ d.kind = .object := by
  induction hup with
  | refl => exact ⟨c, hc, hkind⟩
  | tail _ hstep _ =>
    obtain ⟨d, hd, hs⟩ := hstep
    exact (h.superclass_kind hd hs).2

section

variable (hlinked : t.Linked) (hpacked : t.Packed) (hc : t.get? i = some c)
  (hkind : c.kind = .object)
include hlinked hpacked hc hkind

/-- The offsets of an object are the multiples of the slot size between its header and
    its end. -/
theorem ClassTable.carried_slot_iff {n : Nat} :
    (∃ j k f, t.Carries i j k f ∧ f.slot = n) ↔ 8 ∣ n ∧ 16 ≤ n ∧ n < c.instanceSize := by
  have htiles := tiles_carried hlinked hpacked hc hkind
  have hplaces : (∃ j k f, t.Carries i j k f ∧ f.slot = n) ↔ ∃ p, t.CarriedAt i p n := by
    simp only [CarriedAt, Prod.exists]
  rw [hplaces, htiles.covers]
  unfold Field.headerSize Field.slotSize
  constructor
  · rintro ⟨q, hn, hlt⟩
    omega
  · rintro ⟨hdvd, hle, hlt⟩
    exact ⟨n / 8 - 2, by omega, hlt⟩

/-- Two instance fields of an object have two offsets. -/
theorem ClassTable.carried_unique {j' : ClassId} {k k' : Nat} {f f' : Field}
    (hf : t.Carries i j k f) (hf' : t.Carries i j' k' f') (hslot : f.slot = f'.slot) :
    j = j' ∧ k = k' := by
  have htiles := tiles_carried hlinked hpacked hc hkind
  have hplace : (j, k) = (j', k') := htiles.distinct ⟨f, hf, rfl⟩ ⟨f', hf', hslot.symm⟩
  exact Prod.mk.inj hplace

/-- Up to the end of objects of a superclass, objects have the fields of the
    superclass. -/
theorem ClassTable.carried_inherited_iff (hup : ReflTransGen t.Extends i s)
    (hd : t.get? s = some d) {k : Nat} {f : Field} :
    t.Carries s j k f ↔ t.Carries i j k f ∧ f.slot < d.instanceSize := by
  obtain ⟨d', hd', hkind'⟩ := hlinked.ancestor_kind hc hkind hup
  rw [hd, Option.some.injEq] at hd'
  subst hd'
  constructor
  · intro hf
    have hoffset := (carried_slot_iff hlinked hpacked hd hkind').mp ⟨j, k, f, hf, rfl⟩
    exact ⟨hf.inherited hup, hoffset.2.2⟩
  · rintro ⟨hf, hlt⟩
    -- The superclass has some field at that offset, and the object has only one there.
    obtain ⟨hdvd, hle, _⟩ := (carried_slot_iff hlinked hpacked hc hkind).mp ⟨j, k, f, hf, rfl⟩
    obtain ⟨j', k', f', hf', hslot⟩ :=
      (carried_slot_iff hlinked hpacked hd hkind').mpr ⟨hdvd, hle, hlt⟩
    obtain ⟨rfl, rfl⟩ := carried_unique hlinked hpacked hc hkind hf (hf'.inherited hup) hslot.symm
    rw [hf.field_unique hf']
    exact hf'

end

/-! ## Targets -/

theorem Field.target_of_static {f : Field} (h : f.isStatic = true) :
    f.target / 8 = f.slot ∧ f.target % 2 = 1 := by
  unfold Field.target Field.slotSize
  rw [if_pos h]
  split <;> omega

theorem Field.target_of_instance {f : Field} (h : f.isStatic = false) : f.target = f.slot := by
  unfold Field.target
  rw [if_neg (by simp [h])]

/-- The fields of the class `c` at place `i` have places of their own. -/
structure ClassTable.FieldsApart (t : ClassTable) (i : ClassId) (c : Class) : Prop where
  /-- Two instance fields of an object have two offsets. -/
  offset_unique : ∀ {j j' k k' f f'}, t.Carries i j k f → t.Carries i j' k' f' →
    f.slot = f'.slot → j = j' ∧ k = k'
  /-- The offsets are the multiples of the slot size between header and end. -/
  offset_iff : ∀ {n}, (∃ j k f, t.Carries i j k f ∧ f.slot = n) ↔
    8 ∣ n ∧ 16 ≤ n ∧ n < c.instanceSize
  /-- There is nothing behind the last field. -/
  size : 8 ∣ c.instanceSize ∧ 16 ≤ c.instanceSize
  /-- An object of the class starts like one of any superclass: up to the end of the
      latter, it has the same fields at the same offsets. -/
  inherited : ∀ {s d j k f}, ReflTransGen t.Extends i s → t.get? s = some d →
    (t.Carries s j k f ↔ t.Carries i j k f ∧ f.slot < d.instanceSize)
  /-- The static fields have the slots from 0 on. -/
  static_slots : (c.fields.toList.filter Field.isStatic).map Field.slot = List.range c.staticSlots
  target_ne_zero : ∀ f ∈ c.fields, f.target ≠ 0
  instance_target_unique : ∀ {j j' k k' f f'}, t.Carries i j k f → t.Carries i j' k' f' →
    f.target = f'.target → j = j' ∧ k = k'
  static_target_unique : ∀ {k k' : Nat} {f f'}, c.fields[k]? = some f → c.fields[k']? = some f' →
    f.isStatic = true → f'.isStatic = true → f.target = f'.target → k = k'
  /-- No static field, of whatever class, has the target of an instance field. -/
  static_target_ne : ∀ {j k f} {f' : Field}, t.Carries i j k f → f'.isStatic = true →
    f'.target ≠ f.target

/-- In every reachable machine, the fields of every class with instances have places of
    their own. -/
theorem fieldOffsets_apart {rule : Discipline} {m : Machine} (h : m.Reachable rule) {i : ClassId}
    {c : Class} (hc : m.classes.get? i = some c) (hkind : c.kind = .object) :
    m.classes.FieldsApart i c := by
  have hlinked := h.started.toLinked
  have hpacked := h.packed
  have hiff := fun {n} => ClassTable.carried_slot_iff hlinked hpacked hc hkind (n := n)
  obtain ⟨start, _, hlayout⟩ := hpacked i c hc hkind
  refine
    { offset_unique := ClassTable.carried_unique hlinked hpacked hc hkind
      offset_iff := hiff
      size := ?_
      inherited := fun hup hd =>
        ClassTable.carried_inherited_iff hlinked hpacked hc hkind hup hd
      static_slots := hlayout.statics
      target_ne_zero := ?_
      instance_target_unique := ?_
      static_target_unique := ?_
      static_target_ne := ?_ }
  · -- The slots tile the instance from the header on.
    obtain ⟨count, hsize⟩ := (ClassTable.tiles_carried hlinked hpacked hc hkind).ends
    unfold Field.headerSize Field.slotSize at hsize
    omega
  · intro f hf
    -- Targets of static fields are odd, and offsets start behind the header.
    cases hstatic : f.isStatic with
    | true =>
      have hodd := (Field.target_of_static hstatic).2
      omega
    | false =>
      obtain ⟨k, hk⟩ := Array.mem_iff_getElem?.mp hf
      have hcarried : m.classes.Carries i i k f := ⟨.refl, c, hc, hk, hstatic⟩
      have hoffset := hiff.mp ⟨i, k, f, hcarried, rfl⟩
      rw [Field.target_of_instance hstatic]
      omega
  · intro j j' k k' f f' hf hf' htarget
    obtain ⟨_, _, _, _, hinstance⟩ := id hf
    obtain ⟨_, _, _, _, hinstance'⟩ := id hf'
    rw [Field.target_of_instance hinstance, Field.target_of_instance hinstance'] at htarget
    exact ClassTable.carried_unique hlinked hpacked hc hkind hf hf' htarget
  · intro k k' f f' hk hk' hf hf' htarget
    have hslot := (Field.target_of_static hf).1
    have hslot' := (Field.target_of_static hf').1
    exact hlayout.static_distinct hk hk' hf hf' (by omega)
  · intro j k f f' hf hf' htarget
    -- An odd number is not a multiple of the size of a slot.
    have hodd := (Field.target_of_static hf').2
    have hoffset := hiff.mp ⟨j, k, f, hf, rfl⟩
    obtain ⟨_, _, _, _, hinstance⟩ := hf
    rw [Field.target_of_instance hinstance] at htarget
    omega

namespace Sample

/-- A class and one below it, both with static fields between the other ones, and a class
    that is declared under the name of an array class. -/
def drawing : List ((α : Type) × Operation α) :=
  [⟨_, .defineClass
      { ClassDeclaration.plain "Point" with
        fields :=
          [{ access := Access.publicFlag, name := "x", descriptor := "I" },
           { access := Access.publicFlag ||| Access.staticFlag, name := "origin",
             descriptor := "LPoint;" },
           { access := Access.publicFlag, name := "y", descriptor := "I" }] }⟩,
   ⟨_, .defineClass
      { ClassDeclaration.plain "Pixel" with
        superclass := some "Point"
        fields :=
          [{ access := Access.publicFlag ||| Access.staticFlag ||| Access.finalFlag,
             name := "black", descriptor := "LPixel;" },
           { access := Access.publicFlag, name := "colour", descriptor := "J" },
           { access := Access.publicFlag ||| Access.staticFlag, name := "count",
             descriptor := "I" }] }⟩,
   ⟨_, .defineClass (ClassDeclaration.plain "[LColour;")⟩]

/-- The signature of the class that a descriptor names. -/
def named (descriptor : String) : Link String := do
  let c ← classOfDescriptor bare descriptor
  pure ((← Link.classes).signature c)

/-- Make a method type, do something, and spell its descriptor from its class objects. -/
def spelled (descriptor : String) (meanwhile : Link Unit) : Link String := do
  match ← Link.read (← newMethodType bare descriptor) with
  | .methodType type => do
      meanwhile
      methodDescriptor type.result type.parameters
  | _ => pure ""

/-- Give up a class object. -/
def forget (name : String) : Link Unit := do
  Link.release (← loadClass bare name).classObject

/-- A method type with an array of arrays of pixels. -/
def madeType (m : Machine) : Except Failure Handle × Machine :=
  newMethodType bare "(I[[LPixel;)V" (m.perform bare drawing)

/-- The class `Pixel` adds an instance field to two that it inherits, and has two static
    ones. Not every descriptor is the signature of the class that it names. -/
abbrev DrawingFacts (m : Machine) : Prop :=
  ((m.perform bare drawing).classes.get? 34).map (fun c => (c.kind, c.instanceSize,
      c.fields.toList.map (fun f => (f.isStatic, f.slot, f.target)))) =
    some (.object, 40, [(true, 0, 3), (false, 32, 32), (true, 1, 9)]) ∧
  (∀ pair ∈ [("[LPixel;", "[LPixel;"), ("L[I;", "[I"), ("Lint;", "I"),
      ("[LColour;", "L[LColour;;")],
    Succeeds (named pair.1 (m.perform bare drawing)).1 (· = pair.2)) ∧
  Succeeds (spelled "(L[I;)V" (pure ()) (m.perform bare drawing)).1 (· = "([I)V") ∧
  ¬ Succeeds (spelled "(I)V" (forget "int") (m.perform bare drawing)).1 (fun _ => True) ∧
  Succeeds (madeType m).1 (fun _ => True) ∧
  ∀ pair ∈ [("Pixel", false), ("[LPixel;", true), ("[[LPixel;", true)],
    ((madeType m).2.classes.find? pair.1).map (fun c => (decide (c.kind = .object), c.isArray)) =
      some (!pair.2, pair.2)

/-- An interface with a constant, and a class below `Pixel` that lists it. -/
def marking : List ((α : Type) × Operation α) :=
  [⟨_, .defineClass
      { ClassDeclaration.interface "Mark" with
        fields :=
          [{ access := Access.publicFlag ||| Access.staticFlag ||| Access.finalFlag,
             name := "count", descriptor := "J" }] }⟩,
   ⟨_, .defineClass
      { ClassDeclaration.plain "Dot" with
        superclass := some "Pixel"
        interfaces := ["Mark"] }⟩,
   ⟨_, .intern "count"⟩,
   ⟨_, .allocate (.array { component := 0, elements := #[] })⟩]

/-- The machine of the drawing with these classes. -/
def marked (m : Machine) : Machine :=
  (m.perform bare drawing).perform bare marking

/-- The fields that are called like the name are counted. -/
def counting : EnumerationRequest :=
  { clazz := some ⟨37⟩
    name := some ⟨38⟩
    signature := none
    flags := { fields := true, superclasses := true, interfaces := true }
    caller := none
    skip := 0
    results := some ⟨39⟩ }

/-- The constant of the interface is found before the static field of the superclass, unless
    a descriptor is asked for. -/
abbrev MarkedFacts (m : Machine) : Prop :=
  (∀ c ∈ (marked m).classes.classes.toList, c.fields.size ≤ 65536 ∧
    (c.isInterface = true → ∀ s ∈ c.superclass,
      ((marked m).classes.get? s).map Class.name = some ClassDeclaration.objectName)) ∧
  ((marked m).classes.get? 36).map (fun c => (c.id, c.fields.toList.map Field.name)) =
    some (36, ["count"]) ∧
  ((marked m).classes.get? 37).map (fun c =>
      ((c.id, c.kind, c.isInterface, c.interfaces, c.fields.size),
        [none, some "I"].map ((marked m).classes.searchField c "count"))) =
    some ((37, .object, false, [36], 0), [some ⟨36, 0⟩, some ⟨34, 2⟩]) ∧
  (∀ pair ∈ [(⟨37⟩, .classObject 37), (⟨38⟩, .string "count"),
      (⟨39⟩, .array { component := 0, elements := #[] })],
    Succeeds ((marked m).heap.read pair.1) (· = pair.2)) ∧
  Succeeds (enumerateMembers bare counting (marked m)).1 (· = .found 2)

set_option maxRecDepth 100000 in
set_option synthInstance.maxSize 1000 in
theorem drawing_and_marking_succeed :
    Succeeds (Machine.start bare {}) (fun m => DrawingFacts m ∧ MarkedFacts m) := by
  decide +kernel

theorem drawing_succeeds : Succeeds (Machine.start bare {}) DrawingFacts := by
  obtain ⟨m, hstart, hfacts, -⟩ := drawing_and_marking_succeed
  exact ⟨m, hstart, hfacts⟩

theorem reachable_drawing {rule : Discipline} {m : Machine} (hstart : Machine.start bare {} = .ok m)
    (hrule : ∀ m d, rule m (.defineClass d)) : (m.perform bare drawing).Reachable rule := by
  refine ⟨bare, {}, m, hstart, Run.perform (fun _ h => by cases h) (fun op hop m => ?_) m⟩
  simp only [drawing, List.mem_cons, List.not_mem_nil, or_false] at hop
  rcases hop with rfl | rfl | rfl <;> exact hrule m _

end Sample

theorem pixel_fieldOffsets_apart :
    ∃ (m : Machine) (c : Class), m.Reachable (fun _ {_} _ => True) ∧
      m.classes.get? 34 = some c ∧ c.kind = .object ∧ c.instanceSize = 40 ∧
      c.fields.toList.map (fun f => (f.isStatic, f.slot, f.target)) =
        [(true, 0, 3), (false, 32, 32), (true, 1, 9)] ∧ m.classes.FieldsApart 34 c := by
  obtain ⟨m₀, hstart, hpixel, _⟩ := Sample.drawing_succeeds
  obtain ⟨c, hc, hparts⟩ := Option.map_eq_some_iff.mp hpixel
  simp only [Prod.mk.injEq] at hparts
  obtain ⟨hkind, hsize, hfields⟩ := hparts
  have hreachable : (m₀.perform Sample.bare Sample.drawing).Reachable (fun _ {_} _ => True) :=
    Sample.reachable_drawing hstart (fun _ _ => trivial)
  exact ⟨_, c, hreachable, hc, hkind, hsize, hfields, fieldOffsets_apart hreachable hc hkind⟩

end Linkage
