import Linkage.Proofs.Layout

/-! # The class hierarchy

    A class carries the list of its superclasses and the table of its interfaces,
    both computed once from those of its direct supertypes. `Class.Fits` says what is
    computed, class by class; a class that the table admits fits it. Since supertypes
    stand before their subtypes, it follows by induction on the place of the class
    that the list is the superclass chain and that the table holds exactly the
    interfaces that can be reached by going up. -/

namespace Linkage

open Relation

/-! ## Going up -/

namespace ClassTable

variable (t : ClassTable)

/-- The second class is the superclass of the first. -/
def Extends (i j : ClassId) : Prop :=
  ∃ c, t.get? i = some c ∧ c.superclass = some j

/-- The second class is the superclass of the first or an interface that it lists. -/
def Below (i j : ClassId) : Prop :=
  ∃ c, t.get? i = some c ∧ (c.superclass = some j ∨ j ∈ c.interfaces)

/-- There is an interface at that place. -/
def HasInterface (i : ClassId) : Prop :=
  ∃ c, t.get? i = some c ∧ c.isInterface = true

/-- The superclasses of a class, the root first. -/
inductive SuperclassChain : ClassId → List ClassId → Prop where
  | root {i : ClassId} {c : Class} (found : t.get? i = some c) (none : c.superclass = none) :
      SuperclassChain i []
  | subclass {i s : ClassId} {c : Class} {chain : List ClassId} (found : t.get? i = some c)
      (some : c.superclass = some s) (above : SuperclassChain s chain) :
      SuperclassChain i (chain ++ [s])

end ClassTable

/-- A class that can be a superclass. -/
def Class.IsOrdinary (c : Class) : Prop :=
  c.isInterface = false ∧ c.isArray = false ∧ c.isPrimitive = false

/-- The supertypes of the class stand before it in the table, and what it says about
    all its supertypes is put together from what they say. -/
structure Class.Fits (c : Class) (t : ClassTable) : Prop where
  superclass : ∀ {s}, c.superclass = some s → s < c.id ∧ ∃ d, t.get? s = some d ∧ d.IsOrdinary
  interfaces : ∀ {j}, j ∈ c.interfaces → j < c.id ∧ t.HasInterface j
  component : ∀ {k}, c.kind = .array k → k < c.id
  superclasses : c.superclass = none ∧ c.superclasses = [] ∨
    ∃ s d, c.superclass = some s ∧ t.get? s = some d ∧ c.superclasses = d.superclasses ++ [s]
  nodup : c.itable.Nodup
  itable : ∀ {j}, j ∈ c.itable ↔ j ∈ c.interfaces ∨
    ∃ i d, (i ∈ c.interfaces ∨ c.superclass = some i) ∧ t.get? i = some d ∧ j ∈ d.itable

/-- A class fits every larger table. -/
theorem Class.Fits.mono {c : Class} {t t' : ClassTable} (h : c.Fits t)
    (hget : ∀ {i d}, t.get? i = some d → t'.get? i = some d) : c.Fits t' where
  superclass := by
    intro s hs
    obtain ⟨hlt, d, hd, hordinary⟩ := h.superclass hs
    exact ⟨hlt, d, hget hd, hordinary⟩
  interfaces := by
    intro j hj
    obtain ⟨hlt, d, hd, hinterface⟩ := h.interfaces hj
    exact ⟨hlt, d, hget hd, hinterface⟩
  component := h.component
  superclasses := by
    rcases h.superclasses with hroot | ⟨s, d, hs, hd, he⟩
    · exact Or.inl hroot
    · exact Or.inr ⟨s, d, hs, hget hd, he⟩
  nodup := h.nodup
  itable := by
    intro j
    rw [h.itable]
    refine or_congr_right ⟨?_, ?_⟩
    · rintro ⟨i, d, hi, hd, hj⟩
      exact ⟨i, d, hi, hget hd, hj⟩
    · rintro ⟨i, d, hi, hd, hj⟩
      -- The supertype is in the smaller table, and the larger one agrees.
      obtain ⟨d', hd'⟩ : ∃ d', t.get? i = some d' := by
        rcases hi with hi | hi
        · obtain ⟨_, d', hd', _⟩ := h.interfaces hi
          exact ⟨d', hd'⟩
        · obtain ⟨_, d', hd', _⟩ := h.superclass hi
          exact ⟨d', hd'⟩
      have he : d' = d := by
        have hboth := hget hd'
        rw [hd, Option.some.injEq] at hboth
        exact hboth.symm
      exact ⟨i, d, hi, he ▸ hd', hj⟩

/-! ## Admitted classes fit -/

theorem mem_insertInterface (acc : List ClassId) (id j : ClassId) :
    j ∈ insertInterface acc id ↔ j ∈ acc ∨ j = id := by
  unfold insertInterface
  split
  · rename_i hmem
    have hid : id ∈ acc := by simpa using hmem
    constructor
    · exact Or.inl
    · rintro (hj | rfl)
      · exact hj
      · exact hid
  · simp

theorem nodup_insertInterface {acc : List ClassId} (h : acc.Nodup) (id : ClassId) :
    (insertInterface acc id).Nodup := by
  unfold insertInterface
  split
  · exact h
  · rename_i hmem
    have hid : id ∉ acc := by simpa using hmem
    refine List.nodup_append.mpr ⟨h, by simp, ?_⟩
    intro a ha b hb hab
    rw [List.mem_singleton] at hb
    exact hid (hb ▸ hab ▸ ha)

theorem mem_foldl_insertInterface (ids acc : List ClassId) (j : ClassId) :
    j ∈ ids.foldl insertInterface acc ↔ j ∈ acc ∨ j ∈ ids := by
  induction ids generalizing acc with
  | nil => simp
  | cons id ids ih => rw [List.foldl_cons, ih, mem_insertInterface, List.mem_cons, or_assoc]

theorem nodup_foldl_insertInterface (ids : List ClassId) {acc : List ClassId} (h : acc.Nodup) :
    (ids.foldl insertInterface acc).Nodup := by
  induction ids generalizing acc with
  | nil => exact h
  | cons id ids ih => exact ih (nodup_insertInterface h id)

/-- The interface table of a class holds the interfaces that it lists and the tables
    of its supertypes. -/
theorem mem_interfaceTable (superclass : Option Class) (interfaces : List Class) (j : ClassId) :
    j ∈ interfaceTable superclass interfaces ↔ j ∈ interfaces.map Class.id ∨
      (∃ i ∈ interfaces, j ∈ i.itable) ∨ ∃ s, superclass = some s ∧ j ∈ s.itable := by
  have htable : interfaceTable superclass interfaces =
      (interfaces.flatMap (fun i => i.id :: i.itable) ++ superclass.elim [] Class.itable).foldl
        insertInterface [] := by
    cases superclass <;> rfl
  have hinherited : j ∈ superclass.elim [] Class.itable ↔
      ∃ s, superclass = some s ∧ j ∈ s.itable := by
    cases superclass <;> simp
  rw [htable, mem_foldl_insertInterface, List.mem_append, List.mem_flatMap, hinherited]
  simp only [List.not_mem_nil, false_or, List.mem_cons, List.mem_map]
  constructor
  · rintro (⟨i, hi, rfl | hj⟩ | hs)
    · exact Or.inl ⟨i, hi, rfl⟩
    · exact Or.inr (Or.inl ⟨i, hi, hj⟩)
    · exact Or.inr (Or.inr hs)
  · rintro (⟨i, hi, rfl⟩ | ⟨i, hi, hj⟩ | hs)
    · exact Or.inl ⟨i, hi, Or.inl rfl⟩
    · exact Or.inl ⟨i, hi, Or.inr hj⟩
    · exact Or.inr hs

variable {t : ClassTable} {c : Class}

/-- A class of a table stands at its place. -/
theorem ClassTable.get?_id (hids : ∀ {i c}, t.get? i = some c → c.id = i)
    (h : c ∈ t.classes) : t.get? c.id = some c := by
  obtain ⟨i, hi⟩ := Array.mem_iff_getElem?.mp h
  have hget : t.get? i = some c := hi
  rw [hids hget]
  exact hget

theorem ClassTable.lt_size_of_get? {i : ClassId} (h : t.get? i = some c) : i < t.size :=
  (Array.getElem?_eq_some_iff.mp h).1

/-- A class that can be extended is an ordinary one. -/
theorem Class.isOrdinary_of_isSealed (h : c.isSealed = false) : c.IsOrdinary := by
  simp only [Class.isSealed, Bool.or_eq_false_iff] at h
  exact ⟨h.1.1.1, h.1.1.2, h.1.2⟩

/-- A declared class fits the table over which it is laid out. -/
theorem Layout.fits_toClass (hids : ∀ {i c}, t.get? i = some c → c.id = i)
    {layout : Layout} (classObject : Handle)
    (hsuper : ∀ s, layout.superclass = some s → s ∈ t.classes ∧ s.isSealed = false)
    (hinterfaces : ∀ i ∈ layout.interfaces, i ∈ t.classes ∧ i.isInterface = true) :
    (layout.toClass t.size classObject).Fits t where
  superclass := by
    intro s hs
    obtain ⟨d, hd, rfl⟩ := Option.map_eq_some_iff.mp hs
    obtain ⟨hmem, hsealed⟩ := hsuper d hd
    have hget := ClassTable.get?_id hids hmem
    exact ⟨ClassTable.lt_size_of_get? hget, d, hget, Class.isOrdinary_of_isSealed hsealed⟩
  interfaces := by
    intro j hj
    obtain ⟨d, hd, rfl⟩ := List.mem_map.mp hj
    obtain ⟨hmem, hinterface⟩ := hinterfaces d hd
    have hget := ClassTable.get?_id hids hmem
    exact ⟨ClassTable.lt_size_of_get? hget, d, hget, hinterface⟩
  component := by intro k hk; cases hk
  superclasses := by
    cases hs : layout.superclass with
    | none => exact Or.inl (by simp [Layout.toClass, hs, superclassChain])
    | some s =>
      have hget := ClassTable.get?_id hids (hsuper s hs).1
      exact Or.inr ⟨s.id, s, by simp [Layout.toClass, hs], hget, by
        simp [Layout.toClass, hs, superclassChain]⟩
  nodup := nodup_foldl_insertInterface _ List.nodup_nil
  itable := by
    intro j
    show j ∈ interfaceTable layout.superclass layout.interfaces ↔
      j ∈ layout.interfaces.map Class.id ∨ ∃ i d, (i ∈ layout.interfaces.map Class.id ∨
        layout.superclass.map Class.id = some i) ∧ t.get? i = some d ∧ j ∈ d.itable
    rw [mem_interfaceTable]
    refine or_congr_right ⟨?_, ?_⟩
    · rintro (⟨i, hi, hj⟩ | ⟨s, hs, hj⟩)
      · exact ⟨i.id, i, Or.inl (List.mem_map_of_mem hi),
          ClassTable.get?_id hids (hinterfaces i hi).1, hj⟩
      · exact ⟨s.id, s, Or.inr (by rw [hs]; rfl), ClassTable.get?_id hids (hsuper s hs).1, hj⟩
    · rintro ⟨i, d, hi, hd, hj⟩
      rcases hi with hi | hi
      · obtain ⟨e, he, rfl⟩ := List.mem_map.mp hi
        rw [ClassTable.get?_id hids (hinterfaces e he).1, Option.some.injEq] at hd
        exact Or.inl ⟨e, he, hd ▸ hj⟩
      · obtain ⟨e, he, rfl⟩ := Option.map_eq_some_iff.mp hi
        rw [ClassTable.get?_id hids (hsuper e he).1, Option.some.injEq] at hd
        exact Or.inr ⟨e, he, hd ▸ hj⟩

/-- The classes that array classes refer to are as the core classes declare them. -/
structure ClassTable.Core (t : ClassTable) : Prop where
  object : ∃ c, t.find? ClassDeclaration.objectName = some c ∧ c.IsOrdinary ∧
    c.superclasses = [] ∧ c.itable = []
  cloneable : ∃ c, t.find? "java/lang/Cloneable" = some c ∧ c.isInterface = true ∧ c.itable = []
  serializable : ∃ c, t.find? "java/io/Serializable" = some c ∧ c.isInterface = true ∧
    c.itable = []

theorem ClassTable.name_of_find? {name : String} (h : t.find? name = some c) : c.name = name := by
  obtain ⟨i, hi, hget⟩ := Option.bind_eq_some_iff.mp h
  obtain ⟨d, hd, hname⟩ := t.found hi
  rw [show t.classes[i]? = some c from hget, Option.some.injEq] at hd
  exact hd ▸ hname

/-- An array class fits the table if the classes that it refers to are those of the
    core. -/
theorem Class.fits_ofArray (hids : ∀ {i c}, t.get? i = some c → c.id = i) (hcore : t.Core)
    {component object cloneable serializable : Class} (name : String) (classObject : Handle)
    (hcomponent : component ∈ t.classes)
    (hobject : t.find? ClassDeclaration.objectName = some object)
    (hcloneable : t.find? "java/lang/Cloneable" = some cloneable)
    (hserializable : t.find? "java/io/Serializable" = some serializable) :
    (Class.ofArray name component object cloneable serializable t.size classObject).Fits t := by
  obtain ⟨_, he, hordinary, hsuperclasses, hobject_itable⟩ := hcore.object
  rw [hobject, Option.some.injEq] at he
  subst he
  obtain ⟨_, he, hcloneable_interface, hcloneable_itable⟩ := hcore.cloneable
  rw [hcloneable, Option.some.injEq] at he
  subst he
  obtain ⟨_, he, hserializable_interface, hserializable_itable⟩ := hcore.serializable
  rw [hserializable, Option.some.injEq] at he
  subst he
  have hget_object := ClassTable.get?_id hids (ClassTable.mem_of_find? hobject)
  have hget_cloneable := ClassTable.get?_id hids (ClassTable.mem_of_find? hcloneable)
  have hget_serializable := ClassTable.get?_id hids (ClassTable.mem_of_find? hserializable)
  have hget_component := ClassTable.get?_id hids hcomponent
  -- An array class has the root as its superclass and lists two interfaces.
  refine ⟨?_, ?_, ?_, ?_, ?_, ?_⟩
  · intro s hs
    cases hs
    exact ⟨ClassTable.lt_size_of_get? hget_object, object, hget_object, hordinary⟩
  · intro j hj
    rcases List.mem_cons.mp hj with rfl | hj
    · exact ⟨ClassTable.lt_size_of_get? hget_cloneable, cloneable, hget_cloneable,
        hcloneable_interface⟩
    · rw [List.mem_singleton] at hj
      subst hj
      exact ⟨ClassTable.lt_size_of_get? hget_serializable, serializable, hget_serializable,
        hserializable_interface⟩
  · intro k hk
    cases hk
    exact ClassTable.lt_size_of_get? hget_component
  · exact Or.inr ⟨object.id, object, rfl, hget_object, by simp [Class.ofArray, hsuperclasses]⟩
  · -- Two classes at one place would have one name.
    have hne : cloneable.id ≠ serializable.id := by
      intro hid
      rw [hid, hget_serializable, Option.some.injEq] at hget_cloneable
      have hname := ClassTable.name_of_find? hserializable
      rw [hget_cloneable, ClassTable.name_of_find? hcloneable] at hname
      exact absurd hname (by decide)
    simp [Class.ofArray, hne]
  · intro j
    constructor
    · exact Or.inl
    · rintro (hj | ⟨i, d, hi, hd, hj⟩)
      · exact hj
      · -- None of the direct supertypes has interfaces of its own.
        have hempty : d.itable = [] := by
          rcases hi with hi | hi
          · rcases List.mem_cons.mp hi with rfl | hi
            · rw [hget_cloneable, Option.some.injEq] at hd
              exact hd ▸ hcloneable_itable
            · rw [List.mem_singleton] at hi
              rw [hi, hget_serializable, Option.some.injEq] at hd
              exact hd ▸ hserializable_itable
          · cases hi
            rw [hget_object, Option.some.injEq] at hd
            exact hd ▸ hobject_itable
        rw [hempty] at hj
        cases hj

theorem Class.fits_ofPrimitive (p : Primitive) (t : ClassTable) (classObject : Handle) :
    (Class.ofPrimitive p t.size classObject).Fits t where
  superclass := by intro s hs; cases hs
  interfaces := by intro j hj; cases hj
  component := by intro k hk; cases hk
  superclasses := Or.inl ⟨rfl, rfl⟩
  nodup := List.nodup_nil
  itable := by
    intro j
    simp [Class.ofPrimitive]

/-- A class that the table admits fits it. -/
theorem ClassTable.Admits.fits (h : t.Admits c)
    (hids : ∀ {i c}, t.get? i = some c → c.id = i) (hcore : t.Core) : c.Fits t := by
  cases h with
  | declared _ hsuper hinterfaces hlaid classObject =>
    obtain ⟨_, hs, hi, _⟩ := Layout.ofDeclaration_eq_ok hlaid
    exact Layout.fits_toClass hids classObject (hs ▸ hsuper) (hi ▸ hinterfaces)
  | primitive p _ classObject => exact Class.fits_ofPrimitive p t classObject
  | @array name _ _ _ _ _ hcomponent _ hobject hcloneable hserializable classObject =>
    exact Class.fits_ofArray hids hcore name classObject hcomponent hobject hcloneable hserializable

/-! ## Linked tables -/

/-- Every class stands at its place under a name of its own, and fits the table. -/
structure ClassTable.Linked (t : ClassTable) : Prop where
  ids : ∀ {i c}, t.get? i = some c → c.id = i
  names : ∀ {i j c d}, t.get? i = some c → t.get? j = some d → c.name = d.name → i = j
  fits : ∀ {i c}, t.get? i = some c → c.Fits t

theorem ClassTable.linked_empty : ClassTable.empty.Linked where
  ids := by intro i c h; simp [ClassTable.empty, ClassTable.get?] at h
  names := by intro i j c d h; simp [ClassTable.empty, ClassTable.get?] at h
  fits := by intro i c h; simp [ClassTable.empty, ClassTable.get?] at h

theorem ClassTable.Admits.find?_name (h : t.Admits c) : t.find? c.name = none := by
  cases h with
  | declared new _ _ laid classObject =>
    obtain ⟨hd, _⟩ := Layout.ofDeclaration_eq_ok laid
    simpa [Layout.toClass, hd] using new
  | primitive p new classObject => exact new
  | array new _ _ _ _ _ classObject => exact new

/-- The name of a class leads to a class. -/
theorem ClassTable.exists_find? (hc : c ∈ t.classes) : ∃ d, t.find? c.name = some d := by
  obtain ⟨i, hi, rfl⟩ := Array.mem_iff_getElem.mp hc
  obtain ⟨j, hj⟩ := t.known (Array.getElem?_eq_getElem hi)
  obtain ⟨d, hd, _⟩ := t.found hj
  exact ⟨d, Option.bind_eq_some_iff.mpr ⟨j, hj, hd⟩⟩

theorem ClassTable.name_ne_of_find? {name : String} (h : t.find? name = none)
    (hc : c ∈ t.classes) : c.name ≠ name := by
  rintro rfl
  obtain ⟨d, hfind⟩ := ClassTable.exists_find? hc
  rw [h] at hfind
  cases hfind

/-- One more class that fits and has a new name. -/
theorem ClassTable.Linked.push (h : t.Linked) (hid : c.id = t.size) (hnew : t.find? c.name = none)
    (hfits : c.Fits t) : (t.push c).Linked where
  ids := by
    intro i d hd
    rcases ClassTable.get?_push hd with hold | ⟨rfl, rfl⟩
    · exact h.ids hold
    · exact hid
  names := by
    intro i j d e hd he hname
    rcases ClassTable.get?_push hd with hold | ⟨rfl, rfl⟩
    · rcases ClassTable.get?_push he with hold' | ⟨rfl, rfl⟩
      · exact h.names hold hold' hname
      · exact absurd hname (ClassTable.name_ne_of_find? hnew (ClassTable.mem_of_get? hold))
    · rcases ClassTable.get?_push he with hold' | ⟨rfl, rfl⟩
      · exact absurd hname.symm (ClassTable.name_ne_of_find? hnew (ClassTable.mem_of_get? hold'))
      · rfl
  fits := by
    intro i d hd
    rcases ClassTable.get?_push hd with hold | ⟨rfl, rfl⟩
    · exact (h.fits hold).mono (fun hget => ClassTable.get?_push_of_get? hget c)
    · exact hfits.mono (fun hget => ClassTable.get?_push_of_get? hget d)

/-- The last class that is put down under a name is the one that it leads to. -/
theorem ClassTable.find?_push (t : ClassTable) (c : Class) (name : String) :
    (t.push c).find? name = if name == c.name then some c else t.find? name := by
  unfold ClassTable.find? ClassTable.push ClassTable.insert ClassTable.get?
  rw [List.lookup_cons]
  cases name == c.name with
  | true => exact Array.getElem?_push_size
  | false =>
    -- The places of before lead to the classes of before.
    cases hplace : t.places.lookup name with
    | none => rfl
    | some i =>
      obtain ⟨d, hd, _⟩ := t.found hplace
      obtain ⟨hlt, rfl⟩ := Array.getElem?_eq_some_iff.mp hd
      exact (Array.getElem?_push_lt hlt).trans hd.symm

/-- A class with a new name does not get in the way of others. -/
theorem ClassTable.find?_push_of_find? {name : String} {d : Class} (h : t.find? name = some c)
    (hnew : t.find? d.name = none) : (t.push d).find? name = some c := by
  have hne : (name == d.name) = false := by
    rw [beq_eq_false_iff_ne]
    rintro rfl
    rw [h] at hnew
    cases hnew
  rw [ClassTable.find?_push, hne]
  exact h

namespace ClassTable.Linked

variable {i j : ClassId} (h : t.Linked)

include h

/-- Classes are found by their names. -/
theorem find?_eq_some_iff {name : String} :
    t.find? name = some c ↔ t.get? c.id = some c ∧ c.name = name := by
  constructor
  · intro hfind
    exact ⟨ClassTable.get?_id h.ids (ClassTable.mem_of_find? hfind), ClassTable.name_of_find? hfind⟩
  · rintro ⟨hget, rfl⟩
    cases hfind : t.find? c.name with
    | none => exact absurd rfl (ClassTable.name_ne_of_find? hfind (ClassTable.mem_of_get? hget))
    | some d =>
      have hd := ClassTable.get?_id h.ids (ClassTable.mem_of_find? hfind)
      have hid := h.names hget hd (ClassTable.name_of_find? hfind).symm
      rw [← hid, hget] at hd
      exact hd.symm

/-- The places by name are exactly the places of the classes. -/
theorem places_eq_some_iff {name : String} :
    t.places.lookup name = some i ↔ ∃ c, t.get? i = some c ∧ c.name = name := by
  constructor
  · exact t.found
  · rintro ⟨c, hc, rfl⟩
    obtain ⟨j, hj⟩ := t.known hc
    obtain ⟨d, hd, hname⟩ := t.found hj
    rw [hj, h.names hd hc hname]

theorem lt_of_below (hij : t.Below i j) : j < i := by
  obtain ⟨c, hc, hsuper | hinterface⟩ := hij
  · exact h.ids hc ▸ ((h.fits hc).superclass hsuper).1
  · exact h.ids hc ▸ ((h.fits hc).interfaces hinterface).1

/-- Supertypes stand before their subtypes, however far up. -/
theorem lt_of_transGen_below (hij : TransGen t.Below i j) : j < i := by
  induction hij with
  | single hij => exact h.lt_of_below hij
  | tail _ hjk ih => exact Nat.lt_trans (h.lt_of_below hjk) ih

/-- The list of superclasses is the superclass chain. -/
theorem superclassChain (hc : t.get? i = some c) : t.SuperclassChain i c.superclasses := by
  -- By induction on the place: the superclass stands before the class.
  induction i using Nat.strongRecOn generalizing c with
  | ind i ih =>
    rcases (h.fits hc).superclasses with ⟨hroot, he⟩ | ⟨s, d, hs, hd, he⟩
    · rw [he]
      exact .root hc hroot
    · rw [he]
      have hlt := ((h.fits hc).superclass hs).1
      rw [h.ids hc] at hlt
      exact .subclass hc hs (ih s hlt hd)

/-- The list of superclasses holds what can be reached through superclasses. -/
theorem mem_superclasses (hc : t.get? i = some c) :
    j ∈ c.superclasses ↔ TransGen t.Extends i j := by
  induction i using Nat.strongRecOn generalizing c with
  | ind i ih =>
    rcases (h.fits hc).superclasses with ⟨hroot, he⟩ | ⟨s, d, hs, hd, he⟩
    · rw [he]
      refine ⟨fun hj => (List.not_mem_nil hj).elim, fun hij => ?_⟩
      obtain ⟨k, ⟨c', hc', hk⟩, _⟩ := TransGen.head'_iff.mp hij
      rw [hc, Option.some.injEq] at hc'
      rw [← hc', hroot] at hk
      cases hk
    · have hlt := ((h.fits hc).superclass hs).1
      rw [h.ids hc] at hlt
      rw [he, List.mem_append, List.mem_singleton, ih s hlt hd]
      -- The first step up leads to the superclass, and nowhere else.
      constructor
      · rintro (hsj | rfl)
        · exact TransGen.head ⟨c, hc, hs⟩ hsj
        · exact TransGen.single ⟨c, hc, hs⟩
      · intro hij
        obtain ⟨k, ⟨c', hc', hk⟩, hkj⟩ := TransGen.head'_iff.mp hij
        rw [hc, Option.some.injEq] at hc'
        rw [← hc', hs, Option.some.injEq] at hk
        subst hk
        exact (reflTransGen_iff_eq_or_transGen.mp hkj).symm.imp_right id

/-- The interface table holds the interfaces that can be reached. -/
theorem mem_itable (hc : t.get? i = some c) :
    j ∈ c.itable ↔ t.HasInterface j ∧ TransGen t.Below i j := by
  induction i using Nat.strongRecOn generalizing c with
  | ind i ih =>
    have hfits := h.fits hc
    -- One step up leads to a place before this one, for which the statement is known.
    have hup : ∀ {k}, k ∈ c.interfaces ∨ c.superclass = some k → t.Below i k ∧ k < i := by
      intro k hk
      have hbelow : t.Below i k := ⟨c, hc, hk.symm⟩
      exact ⟨hbelow, h.lt_of_below hbelow⟩
    rw [hfits.itable]
    constructor
    · rintro (hj | ⟨k, d, hk, hd, hj⟩)
      · exact ⟨(hfits.interfaces hj).2, TransGen.single (hup (Or.inl hj)).1⟩
      · obtain ⟨hinterface, hkj⟩ := (ih k (hup hk).2 hd).mp hj
        exact ⟨hinterface, TransGen.head (hup hk).1 hkj⟩
    · rintro ⟨hinterface, hij⟩
      obtain ⟨k, ⟨c', hc', hk⟩, hkj⟩ := TransGen.head'_iff.mp hij
      rw [hc, Option.some.injEq] at hc'
      subst hc'
      -- The interface is a direct supertype, or one of a direct supertype.
      rcases reflTransGen_iff_eq_or_transGen.mp hkj with rfl | hkj
      · rcases hk with hsuper | hlisted
        · -- A superclass is no interface.
          obtain ⟨_, d, hd, hordinary⟩ := hfits.superclass hsuper
          obtain ⟨d', hd', htrue⟩ := hinterface
          rw [hd, Option.some.injEq] at hd'
          rw [← hd', hordinary.1] at htrue
          cases htrue
        · exact Or.inl hlisted
      · have hlt := (hup hk.symm).2
        have hd : ∃ d, t.get? k = some d := by
          obtain ⟨_, ⟨d, hd, _⟩, _⟩ := TransGen.head'_iff.mp hkj
          exact ⟨d, hd⟩
        obtain ⟨d, hd⟩ := hd
        exact Or.inr ⟨k, d, hk.symm, hd, (ih k hlt hd).mpr ⟨hinterface, hkj⟩⟩

/-- `isSubclassOf` decides whether one class is reached from another through
    superclasses. -/
theorem isSubclassOf_iff (hc : t.get? i = some c) :
    c.isSubclassOf j = true ↔ ReflTransGen t.Extends i j := by
  rw [reflTransGen_iff_eq_or_transGen, ← h.mem_superclasses hc]
  unfold Class.isSubclassOf
  rw [Bool.or_eq_true, beq_iff_eq, List.contains_iff_mem, h.ids hc, eq_comm]

/-- `implements` decides whether an interface is reached from a class. -/
theorem implements_iff (hc : t.get? i = some c) :
    c.implements j = true ↔ j = i ∨ t.HasInterface j ∧ TransGen t.Below i j := by
  rw [← h.mem_itable hc]
  unfold Class.implements
  rw [Bool.or_eq_true, beq_iff_eq, List.contains_iff_mem, h.ids hc, eq_comm]

end ClassTable.Linked

end Linkage
