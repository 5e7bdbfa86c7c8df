import Linkage.Proofs.Enumerations
import Linkage.Proofs.FieldOffsets

/-! # Searching for fields

    A field is looked for in a class, then above its interfaces, and then above its
    superclass. An enumeration lists the fields of the class, of its superclasses and of
    its interface table. The two go different ways, and agree.

    * `ClassTable.FieldSearch`: the search as it is without a bound on its steps.
    * `ClassTable.Linked.fieldSearch`: in a linked table the search ends.
    * `ClassTable.PlainInterfaces`: interfaces extend at most the root. Then going up from
      a class through supertypes of any kind leads to no more classes than are listed,
      except to the root, which declares no fields (`ClassTable.Started.listed_of_above`).
    * `fieldSearch_agrees`: a field is found exactly if one is listed, it is one of those
      listed, and it is declared as near as the order of the search demands. -/

namespace Linkage

open Relation Link

variable {rule : Discipline} {m : Machine} {t : ClassTable} {c d : Class} {i : ClassId}
  {name : String} {signature : Option String}

/-! ## Fields of a class -/

/-- The field has the name and, if one is asked for, the descriptor. -/
def Field.Suits (f : Field) (name : String) (signature : Option String) : Prop :=
  f.name = name ∧ ∀ s, signature = some s → f.type.render = s

theorem Field.isCalled_iff_suits {f : Field} :
    f.isCalled name signature = true ↔ f.Suits name signature := by
  cases signature <;> simp [Field.isCalled, Field.Suits]

/-- The class declares a field that suits. -/
def Class.DeclaresField (c : Class) (name : String) (signature : Option String) : Prop :=
  ∃ f ∈ c.fields, f.Suits name signature

theorem Class.findField?_eq_some {index : UInt16} (h : c.findField? name signature = some index) :
    ∃ place f, index = UInt16.ofNat place ∧ c.fields[place]? = some f ∧ f.Suits name signature := by
  obtain ⟨place, hplace, rfl⟩ := Option.map_eq_some_iff.mp h
  obtain ⟨hlt, hcalled, _⟩ := Array.findIdx?_eq_some_iff_getElem.mp hplace
  exact ⟨place, _, rfl, Array.getElem?_eq_getElem hlt, Field.isCalled_iff_suits.mp hcalled⟩

theorem Class.findField?_eq_none_iff :
    c.findField? name signature = none ↔ ¬ c.DeclaresField name signature := by
  unfold Class.findField? Class.DeclaresField
  rw [Option.map_eq_none_iff, Array.findIdx?_eq_none_iff]
  simp only [← Field.isCalled_iff_suits, not_exists, not_and, Bool.not_eq_true]

/-! ## The search -/

/-- The interfaces of a class and then its superclass. -/
def ClassTable.above (t : ClassTable) (c : Class) : List Class :=
  (c.interfaces ++ c.superclass.toList).filterMap t.get?

/-- A field is looked for in the classes of a list, from the first on. Where a class
    declares none that suits, the classes above it take its place. The search ends with a
    field, or without one if no classes are left. -/
inductive ClassTable.FieldSearch (t : ClassTable) (name : String) (signature : Option String) :
    List Class → Option FieldRef → Prop where
  | nowhere : t.FieldSearch name signature [] none
  | here {c : Class} {rest : List Class} {index : UInt16}
      (own : c.findField? name signature = some index) :
      t.FieldSearch name signature (c :: rest) (some { owner := c.id, index })
  | above {c : Class} {rest : List Class} {r : Option FieldRef}
      (own : c.findField? name signature = none)
      (next : t.FieldSearch name signature (t.above c ++ rest) r) :
      t.FieldSearch name signature (c :: rest) r

theorem ClassTable.mem_above (hlinked : t.Linked) (hc : t.get? c.id = some c) :
    d ∈ t.above c ↔ t.get? d.id = some d ∧ t.Below c.id d.id := by
  unfold ClassTable.above ClassTable.Below
  rw [List.mem_filterMap]
  constructor
  · rintro ⟨k, hk, hd⟩
    have hid := hlinked.ids hd
    subst hid
    refine ⟨hd, c, hc, ?_⟩
    rw [List.mem_append, Option.mem_toList] at hk
    exact hk.symm
  · -- The class at this place is the one that the search is in.
    rintro ⟨hd, c', hc', hk⟩
    rw [hc, Option.some.injEq] at hc'
    subst hc'
    refine ⟨d.id, ?_, hd⟩
    rw [List.mem_append, Option.mem_toList]
    exact hk.symm

/-- Searches through one class after the other make up a search through all of them. -/
theorem ClassTable.FieldSearch.of_findSome? {search : Class → Option FieldRef}
    {ids : List ClassId} {rest : List Class} {r : Option FieldRef}
    (hone : ∀ k ∈ ids, ∀ d, t.get? k = some d → ∀ {rest r}, t.FieldSearch name signature rest r →
      t.FieldSearch name signature (d :: rest) ((search d).or r))
    (hrest : t.FieldSearch name signature rest r) :
    t.FieldSearch name signature (ids.filterMap t.get? ++ rest)
      ((ids.findSome? fun k => (t.get? k).bind search).or r) := by
  induction ids with
  | nil => exact hrest
  | cons k ids ih =>
    have hothers := ih (fun k' hk' => hone k' (List.mem_cons_of_mem k hk'))
    cases hk : t.get? k with
    | none =>
      rw [List.filterMap_cons_none hk, List.findSome?_cons, hk]
      exact hothers
    | some d =>
      have hfirst := hone k List.mem_cons_self d hk hothers
      rw [← Option.or_assoc] at hfirst
      rw [List.filterMap_cons_some hk, List.cons_append, List.findSome?_cons, hk, Option.bind_some]
      -- What is found in the first class is the result, and else the rest decides.
      cases hd : search d with
      | none => rwa [hd] at hfirst
      | some found => rwa [hd] at hfirst

/-- With more steps than there are classes before the class, the bound is not felt. -/
theorem ClassTable.Linked.fieldSearchWithin (hlinked : t.Linked) {limit : Nat}
    (hc : t.get? i = some c) (hlimit : i < limit) {rest : List Class} {r : Option FieldRef}
    (hrest : t.FieldSearch name signature rest r) :
    t.FieldSearch name signature (c :: rest)
      ((t.searchFieldWithin name signature limit c).or r) := by
  -- By induction on the bound: each class above stands before this one.
  induction limit generalizing i c rest r with
  | zero => cases hlimit
  | succ limit ih =>
    unfold searchFieldWithin
    cases hown : c.findField? name signature with
    | some index => exact .here hown
    | none =>
      refine .above hown (FieldSearch.of_findSome? ?_ hrest)
      intro k hk d hd rest r
      have hbelow : t.Below i k := by
        rw [List.mem_append, Option.mem_toList] at hk
        exact ⟨c, hc, hk.symm⟩
      exact ih hd (Nat.lt_of_lt_of_le (hlinked.lt_of_below hbelow) (Nat.le_of_lt_succ hlimit))

/-- In a linked table the search ends. -/
theorem ClassTable.Linked.fieldSearch (hlinked : t.Linked) (hc : t.get? i = some c)
    (name : String) (signature : Option String) :
    t.FieldSearch name signature [c] (t.searchField c name signature) := by
  have hend : t.FieldSearch name signature [] none := .nowhere
  have hsearch := hlinked.fieldSearchWithin hc (ClassTable.lt_size_of_get? hc) hend
  rwa [Option.or_none] at hsearch

/-! ## What is found -/

theorem ClassTable.Linked.get?_of_below (hlinked : t.Linked) {j : ClassId} (h : t.Below i j) :
    ∃ d, t.get? j = some d ∧ d.id = j := by
  obtain ⟨c, hc, hsuper | hlisted⟩ := h
  · obtain ⟨_, d, hd, _⟩ := (hlinked.fits hc).superclass hsuper
    exact ⟨d, hd, hlinked.ids hd⟩
  · obtain ⟨_, d, hd, _⟩ := (hlinked.fits hc).interfaces hlisted
    exact ⟨d, hd, hlinked.ids hd⟩

/-- The classes that remain to be searched are classes of the table. -/
theorem ClassTable.get?_of_mem_above (hlinked : t.Linked) {rest : List Class}
    (hcs : ∀ k ∈ c :: rest, t.get? k.id = some k) :
    ∀ k ∈ t.above c ++ rest, t.get? k.id = some k := by
  intro k hk
  rcases List.mem_append.mp hk with hk | hk
  · exact ((mem_above hlinked (hcs c List.mem_cons_self)).mp hk).1
  · exact hcs k (List.mem_cons_of_mem c hk)

namespace ClassTable.FieldSearch

variable {cs as bs : List Class} {r : Option FieldRef}

/-- What is found is a field that suits of a class at or above one of the list. -/
theorem found (hlinked : t.Linked) (hcs : ∀ k ∈ cs, t.get? k.id = some k)
    (h : t.FieldSearch name signature cs r) {x : FieldRef} (hr : r = some x) :
    ∃ c ∈ cs, ∃ d, t.get? d.id = some d ∧ ReflTransGen t.Below c.id d.id ∧
      x.owner = d.id ∧ d.findField? name signature = some x.index := by
  induction h with
  | nowhere => cases hr
  | @here c rest index own =>
    cases hr
    exact ⟨c, List.mem_cons_self, c, hcs c List.mem_cons_self, .refl, rfl, own⟩
  | @above c rest r own _ ih =>
    obtain ⟨k, hk, d, hd, habove, hfound⟩ := ih (get?_of_mem_above hlinked hcs) hr
    rcases List.mem_append.mp hk with hk | hk
    · have hbelow := ((mem_above hlinked (hcs c List.mem_cons_self)).mp hk).2
      exact ⟨c, List.mem_cons_self, d, hd, .head hbelow habove, hfound⟩
    · exact ⟨k, List.mem_cons_of_mem c hk, d, hd, habove, hfound⟩

/-- If nothing is found, then there is nothing to be found. -/
theorem not_declaresField (hlinked : t.Linked) (hcs : ∀ k ∈ cs, t.get? k.id = some k)
    (h : t.FieldSearch name signature cs r) (hr : r = none) (hc : c ∈ cs)
    (hd : t.get? d.id = some d) (habove : ReflTransGen t.Below c.id d.id) :
    ¬ d.DeclaresField name signature := by
  induction h generalizing c with
  | nowhere => cases hc
  | here => cases hr
  | @above c' rest r own _ ih =>
    have hc' := hcs c' List.mem_cons_self
    have hnext := get?_of_mem_above hlinked hcs
    rcases List.mem_cons.mp hc with rfl | hc
    · -- The class itself has none, so the declaring class is further up.
      rcases ReflTransGen.cases_head habove with hsame | ⟨j, hj, hrest⟩
      · rw [← hsame, hc', Option.some.injEq] at hd
        rw [← hd]
        exact Class.findField?_eq_none_iff.mp own
      · obtain ⟨k, hk, rfl⟩ := hlinked.get?_of_below hj
        exact ih hnext hr (List.mem_append_left _ ((mem_above hlinked hc').mpr ⟨hk, hj⟩)) hrest
    · exact ih hnext hr (List.mem_append_right _ hc) habove

/-- A search through two lists finds something in the first, or goes through the second. -/
theorem append_cases (h : t.FieldSearch name signature (as ++ bs) r) :
    (∃ x, r = some x ∧ t.FieldSearch name signature as (some x)) ∨
      t.FieldSearch name signature as none ∧ t.FieldSearch name signature bs r := by
  generalize hcs : as ++ bs = cs at h
  induction h generalizing as with
  | nowhere =>
    obtain ⟨rfl, rfl⟩ := List.append_eq_nil_iff.mp hcs
    exact Or.inr ⟨.nowhere, .nowhere⟩
  | @here c rest index own =>
    -- The class where the search ends, or goes on, is in the first list unless this is empty.
    cases as with
    | nil =>
      obtain rfl : bs = c :: rest := hcs
      exact Or.inr ⟨.nowhere, .here own⟩
    | cons a as =>
      cases hcs
      exact Or.inl ⟨_, rfl, .here own⟩
  | @above c rest r own next ih =>
    cases as with
    | nil =>
      obtain rfl : bs = c :: rest := hcs
      exact Or.inr ⟨.nowhere, .above own next⟩
    | cons a as =>
      cases hcs
      rcases ih (List.append_assoc _ _ _) with ⟨x, hx, hfirst⟩ | ⟨hfirst, hsecond⟩
      · exact Or.inl ⟨x, hx, .above own hfirst⟩
      · exact Or.inr ⟨.above own hfirst, hsecond⟩

end ClassTable.FieldSearch

/-! ## Classes that are listed -/

/-- Interfaces have the root as their superclass, or none. -/
def ClassTable.PlainInterfaces (t : ClassTable) : Prop :=
  ∀ c ∈ t.classes, c.isInterface = true → ∀ s, c.superclass = some s →
    (t.get? s).map Class.name = some ClassDeclaration.objectName

/-- The class itself, one of its superclasses, or an interface of its table. -/
def Class.Lists (c d : Class) : Prop :=
  d.id = c.id ∨ d.id ∈ c.superclasses ∨ d.id ∈ c.itable

/-- The root has no supertypes, and no fields. -/
theorem ClassTable.Started.root (h : t.Started) (hd : t.get? d.id = some d)
    (hname : d.name = ClassDeclaration.objectName) :
    d.superclass = none ∧ d.interfaces = [] ∧ d.fields = #[] := by
  obtain ⟨t₀, root, _, hmade, hroot⟩ :=
    h.declared CoreClasses.object (by simp [CoreClasses.declarations])
  have hfind : t.find? CoreClasses.object.name = some d :=
    h.toLinked.find?_eq_some_iff.mpr ⟨hd, hname⟩
  rw [hroot, Option.some.injEq] at hfind
  subst hfind
  obtain ⟨layout, classObject, hlaid, _, _, rfl⟩ := hmade
  obtain ⟨_, hsuperclass, hinterfaces, hfields, _⟩ := Layout.ofDeclaration_eq_ok hlaid
  have hnone : layout.superclass = none := hsuperclass
  have hempty : layout.interfaces = [] := hinterfaces
  have hstart : FieldLayout.start none = layout.fields := Except.ok.inj hfields
  simp [Layout.toClass, hnone, hempty, ← hstart, FieldLayout.start]

/-- Going up from a class, only the root is met beside the classes that it lists. -/
theorem ClassTable.Started.listed_of_above (h : t.Started) (hplain : t.PlainInterfaces)
    (hc : t.get? c.id = some c) {j : ClassId} (habove : ReflTransGen t.Below c.id j) :
    (j = c.id ∨ j ∈ c.superclasses) ∨ j ∈ c.itable ∨
      ∃ d, t.get? j = some d ∧ d.name = ClassDeclaration.objectName := by
  have hlinked := h.toLinked
  -- By induction on the way up: above the class are its superclasses and interfaces, above
  -- an interface are interfaces and the root, and nothing is above the root.
  induction habove with
  | refl => exact Or.inl (Or.inl rfl)
  | @tail j k hij hjk ih =>
    have hik : TransGen t.Below c.id k := TransGen.tail' hij hjk
    obtain ⟨d, hd, hup⟩ := hjk
    have hid := hlinked.ids hd
    have hlisted : k ∈ d.interfaces → k ∈ c.itable := fun hk =>
      (hlinked.mem_itable hc).mpr ⟨((hlinked.fits hd).interfaces hk).2, hik⟩
    rcases ih with hclass | hinterface | ⟨root, hroot, hname⟩
    · rcases hup with hsuper | hk
      · refine Or.inl (Or.inr ((hlinked.mem_superclasses hc).mpr ?_))
        refine TransGen.tail' (reflTransGen_iff_eq_or_transGen.mpr ?_) ⟨d, hd, hsuper⟩
        exact hclass.imp_right (hlinked.mem_superclasses hc).mp
      · exact Or.inr (Or.inl (hlisted hk))
    · rcases hup with hsuper | hk
      · obtain ⟨⟨d', hd', hkind⟩, _⟩ := (hlinked.mem_itable hc).mp hinterface
        rw [hd, Option.some.injEq] at hd'
        obtain ⟨root, hroot, hname⟩ := Option.map_eq_some_iff.mp
          (hplain d (ClassTable.mem_of_get? hd) (hd' ▸ hkind) k hsuper)
        exact Or.inr (Or.inr ⟨root, hroot, hname⟩)
      · exact Or.inr (Or.inl (hlisted hk))
    · rw [hd, Option.some.injEq] at hroot
      subst hroot
      obtain ⟨hnone, hempty, _⟩ := h.root (hid.symm ▸ hd) hname
      rcases hup with hsuper | hk
      · rw [hnone] at hsuper
        cases hsuper
      · rw [hempty] at hk
        cases hk

/-- A class that is listed is above. -/
theorem ClassTable.Linked.above_of_lists (hlinked : t.Linked) (hc : t.get? c.id = some c)
    (h : c.Lists d) : ReflTransGen t.Below c.id d.id := by
  rcases h with hself | hsuperclass | hinterface
  · rw [hself]
  · have hextends := (hlinked.mem_superclasses hc).mp hsuperclass
    have hup : t.Extends ≤ t.Below := by
      rintro a b ⟨k, hk, hsuper⟩
      exact ⟨k, hk, Or.inl hsuper⟩
    exact (TransGen.mono hup _ _ hextends).to_reflTransGen
  · exact ((hlinked.mem_itable hc).mp hinterface).2.to_reflTransGen

theorem ClassTable.Started.lists_of_declaresField (h : t.Started) (hplain : t.PlainInterfaces)
    (hc : t.get? c.id = some c) (hd : t.get? d.id = some d)
    (habove : ReflTransGen t.Below c.id d.id) (hdeclares : d.DeclaresField name signature) :
    c.Lists d := by
  rcases h.listed_of_above hplain hc habove with hclass | hinterface | ⟨root, hroot, hname⟩
  · exact hclass.imp_right Or.inl
  · exact Or.inr (Or.inr hinterface)
  · rw [hd, Option.some.injEq] at hroot
    obtain ⟨f, hf, _⟩ := hdeclares
    rw [(h.root hd (hroot ▸ hname)).2.2] at hf
    cases Array.not_mem_empty f hf

/-! ## Fields that are listed -/

/-- Fields are asked for, here and in all supertypes. -/
def MatchFlags.allFields : MatchFlags :=
  { fields := true, superclasses := true, interfaces := true }

theorem ClassTable.mem_searchOrder (hlinked : t.Linked) (hc : t.get? c.id = some c) :
    d ∈ t.searchOrder c .allFields ↔ t.get? d.id = some d ∧ c.Lists d := by
  -- A class in the table stands at its own place.
  have hat : ∀ {places : List ClassId}, d ∈ places.filterMap t.get? ↔
      t.get? d.id = some d ∧ d.id ∈ places := by
    intro places
    rw [List.mem_filterMap]
    constructor
    · rintro ⟨k, hk, hd⟩
      rw [hlinked.ids hd]
      exact ⟨hd, hk⟩
    · rintro ⟨hd, hk⟩
      exact ⟨d.id, hk, hd⟩
  have hself : d = c ↔ t.get? d.id = some d ∧ d.id = c.id := by
    constructor
    · rintro rfl
      exact ⟨hc, rfl⟩
    · rintro ⟨hd, hid⟩
      rw [hid, hc] at hd
      exact (Option.some.inj hd).symm
  simp only [searchOrder, MatchFlags.allFields, if_true, List.mem_append, List.mem_singleton, hat,
    List.mem_reverse, hself, Class.Lists, and_or_left, or_assoc]

/-- The members of a class that match are its fields that suit. -/
theorem MemberFilter.mem_declared {member : MatchedMember} :
    member ∈ (make (some name) signature .allFields).declared c ↔
      ∃ place f, c.fields[place]? = some f ∧ f.Suits name signature ∧
        member = .field { owner := c.id, index := UInt16.ofNat place } := by
  -- Methods are not asked for, and fields are if name and signature fit.
  have hmethod : ∀ method index,
      (make (some name) signature .allFields).matchMethod? c.id method index = none := by
    intro method index
    simp [matchMethod?, make, MatchFlags.allFields]
  have hsuits : ∀ f : Field, (MatchFlags.allFields.fields &&
      (fitsText (some name) f.name && fitsText signature f.type.render)) = true ↔
      f.Suits name signature := by
    intro f
    cases signature <;>
      simp [fitsText, Field.Suits, MatchFlags.allFields, @eq_comm _ name, @eq_comm _ f.type.render]
  have hfield : ∀ (f : Field) index,
      (make (some name) signature .allFields).matchField? c.id f index = some member ↔
        f.Suits name signature ∧
          member = .field { owner := c.id, index := UInt16.ofNat index } := by
    intro f index
    unfold matchField?
    rw [fields_make, ← hsuits, Option.ite_none_right_eq_some, Option.some.injEq,
      @eq_comm _ member]
  unfold declared
  simp only [hmethod, List.mem_append, List.mem_filterMap, reduceCtorEq, and_false, exists_false,
    or_false, Prod.exists, hfield, List.mk_mem_zipIdx_iff_getElem?, Array.getElem?_toList]
  exact exists_comm

theorem ClassTable.mem_matchingMembers (hlinked : t.Linked) (hc : t.get? c.id = some c)
    (hkind : c.kind = .object) {member : MatchedMember} :
    member ∈ t.matchingMembers c (.make (some name) signature .allFields) .allFields ↔
      ∃ d place f, t.get? d.id = some d ∧ c.Lists d ∧ d.fields[place]? = some f ∧
        f.Suits name signature ∧
        member = .field { owner := d.id, index := UInt16.ofNat place } := by
  have hsearched : (c.isPrimitive || c.isArray) = false := by
    simp [Class.isPrimitive, Class.isArray, hkind]
  unfold matchingMembers
  rw [hsearched, if_neg Bool.false_ne_true, List.mem_flatMap]
  simp only [mem_searchOrder hlinked hc, MemberFilter.mem_declared]
  constructor
  · rintro ⟨d, ⟨hd, hlists⟩, place, f, hf, hsuits, hmember⟩
    exact ⟨d, place, f, hd, hlists, hf, hsuits, hmember⟩
  · rintro ⟨d, place, f, hd, hlists, hf, hsuits, hmember⟩
    exact ⟨d, ⟨hd, hlists⟩, place, f, hf, hsuits, hmember⟩

/-! ## The search and the list -/

section Agreement

variable {r : FieldRef}

/-- What a class finds is declared by a class that it lists. -/
theorem ClassTable.Started.lists_of_searchField (h : t.Started) (hplain : t.PlainInterfaces)
    (hc : t.get? c.id = some c) (hr : t.searchField c name signature = some r) :
    ∃ d place f, t.get? d.id = some d ∧ c.Lists d ∧ d.fields[place]? = some f ∧
      f.Suits name signature ∧ r = { owner := d.id, index := UInt16.ofNat place } := by
  have hlinked := h.toLinked
  obtain ⟨_, hmem, d, hd, habove, howner, hfind⟩ := (hlinked.fieldSearch hc name signature).found
    hlinked (fun k hk => by rw [List.mem_singleton.mp hk]; exact hc) hr
  rw [List.mem_singleton.mp hmem] at habove
  obtain ⟨place, f, hindex, hf, hsuits⟩ := Class.findField?_eq_some hfind
  refine ⟨d, place, f, hd, ?_, hf, hsuits, ?_⟩
  · exact h.lists_of_declaresField hplain hc hd habove ⟨f, Array.mem_of_getElem? hf, hsuits⟩
  · cases r
    rw [← howner, ← hindex]

/-- If a class above declares a field that suits, then one is found. -/
theorem ClassTable.Linked.isSome_searchField (hlinked : t.Linked) (hc : t.get? c.id = some c)
    (hd : t.get? d.id = some d) (habove : ReflTransGen t.Below c.id d.id)
    (hdeclares : d.DeclaresField name signature) :
    (t.searchField c name signature).isSome = true := by
  cases hr : t.searchField c name signature with
  | some r => rfl
  | none =>
    refine absurd hdeclares ((hlinked.fieldSearch hc name signature).not_declaresField hlinked
      (fun k hk => ?_) hr List.mem_cons_self hd habove)
    rw [List.mem_singleton.mp hk]
    exact hc

/-- A class that declares a field that suits finds its own. -/
theorem ClassTable.Linked.searchField_own (hlinked : t.Linked) (hc : t.get? c.id = some c)
    (hown : c.DeclaresField name signature) :
    ∃ r, t.searchField c name signature = some r ∧ r.owner = c.id := by
  have hsearch := hlinked.fieldSearch hc name signature
  generalize t.searchField c name signature = found at hsearch
  cases hsearch with
  | here _ => exact ⟨_, rfl, rfl⟩
  | above hnone _ => exact absurd hown (Class.findField?_eq_none_iff.mp hnone)

/-- What can be found above the interfaces is found there. -/
theorem ClassTable.Linked.searchField_interfaces (hlinked : t.Linked)
    (hc : t.get? c.id = some c) (hown : ¬ c.DeclaresField name signature)
    (hi : i ∈ c.interfaces) (hd : t.get? d.id = some d) (habove : ReflTransGen t.Below i d.id)
    (hdeclares : d.DeclaresField name signature) :
    ∃ r, t.searchField c name signature = some r ∧
      ∃ j ∈ c.interfaces, ReflTransGen t.Below j r.owner := by
  have hsearch := hlinked.fieldSearch hc name signature
  generalize t.searchField c name signature = found at hsearch
  have hplaces : ∀ k ∈ c.interfaces.filterMap t.get?,
      t.get? k.id = some k ∧ k.id ∈ c.interfaces := by
    intro k hk
    obtain ⟨j, hj, hk⟩ := List.mem_filterMap.mp hk
    rw [hlinked.ids hk]
    exact ⟨hk, hj⟩
  have hget := fun k hk => (hplaces k hk).1
  cases hsearch with
  | here hsome =>
    rw [Class.findField?_eq_none_iff.mpr hown] at hsome
    cases hsome
  | above _ next =>
    rw [List.append_nil, above, List.filterMap_append] at next
    rcases next.append_cases with ⟨r, rfl, hfirst⟩ | ⟨hnothing, _⟩
    · obtain ⟨k, hk, e, _, hke, howner, _⟩ := hfirst.found hlinked hget rfl
      exact ⟨r, rfl, k.id, (hplaces k hk).2, howner ▸ hke⟩
    · -- Had the search passed the interfaces, there would be nothing above them.
      obtain ⟨k, hk, rfl⟩ := hlinked.get?_of_below ⟨c, hc, Or.inr hi⟩
      exact absurd hdeclares (hnothing.not_declaresField hlinked hget rfl
        (List.mem_filterMap.mpr ⟨k.id, hi, hk⟩) hd habove)

end Agreement

/-- In every reachable machine whose interfaces extend at most the root and whose classes
    have at most 65536 fields, for every class that is declared: The search for a field ends.
    It finds one exactly if a class that is listed declares one that suits, which is exactly
    if an enumeration of the fields lists any, and counts any if it comes to its end; and what
    is found is one of those that are listed. A field of the class itself comes first, and
    then one from above its interfaces. -/
theorem fieldSearch_agrees (hm : m.Reachable rule) (hplain : m.classes.PlainInterfaces)
    (hfields : ∀ k ∈ m.classes.classes, k.fields.size ≤ 65536) (hc : m.classes.get? c.id = some c)
    (hkind : c.kind = .object) (name : String) (signature : Option String) :
    ∃ found members, found = m.classes.searchField c name signature ∧
      members = m.classes.matchingMembers c (.make (some name) signature .allFields) .allFields ∧
      m.classes.FieldSearch name signature [c] found ∧
      (found.isSome = true ↔
        ∃ d, m.classes.get? d.id = some d ∧ c.Lists d ∧ d.DeclaresField name signature) ∧
      (found.isSome = true ↔ members ≠ []) ∧
      (∀ r, found = some r → .field r ∈ members ∧
        ∃ f, m.classes.field? r = some f ∧ f.Suits name signature) ∧
      (c.DeclaresField name signature → ∃ r, found = some r ∧ r.owner = c.id) ∧
      (¬ c.DeclaresField name signature →
        (∃ i ∈ c.interfaces, ∃ d, m.classes.get? d.id = some d ∧
          ReflTransGen m.classes.Below i d.id ∧ d.DeclaresField name signature) →
        ∃ r, found = some r ∧ ∃ i ∈ c.interfaces, ReflTransGen m.classes.Below i r.owner) ∧
      ∀ {env : Environment} {request : EnumerationRequest} {slots : List Handle}
        {e : Enumeration} {m' : Machine}, request.MadeFor m c (some name) signature slots →
        request.flags = .allFields → enumerateMembers env request m = (.ok e, m') →
        ∃ count, e = .found count ∧ (count ≠ 0 ↔ found.isSome = true) := by
  have hstarted := hm.started
  have hlinked := hstarted.toLinked
  have hmem := fun member =>
    @ClassTable.mem_matchingMembers _ _ name signature hlinked hc hkind member
  -- What is found is listed since interfaces have only the root above them.
  have hiff : (m.classes.searchField c name signature).isSome = true ↔
      ∃ d, m.classes.get? d.id = some d ∧ c.Lists d ∧ d.DeclaresField name signature := by
    constructor
    · intro hsome
      obtain ⟨r, hr⟩ := Option.isSome_iff_exists.mp hsome
      obtain ⟨d, place, f, hd, hlists, hf, hsuits, _⟩ :=
        hstarted.lists_of_searchField hplain hc hr
      exact ⟨d, hd, hlists, f, Array.mem_of_getElem? hf, hsuits⟩
    · rintro ⟨d, hd, hlists, hdeclares⟩
      exact hlinked.isSome_searchField hc hd (hlinked.above_of_lists hc hlists) hdeclares
  -- An enumeration lists the fields of the same classes.
  have hiff' : (m.classes.searchField c name signature).isSome = true ↔
      m.classes.matchingMembers c (.make (some name) signature .allFields) .allFields ≠ [] := by
    rw [hiff, Ne, List.eq_nil_iff_forall_not_mem, not_forall]
    simp only [not_not, hmem]
    constructor
    · rintro ⟨d, hd, hlists, f, hf, hsuits⟩
      obtain ⟨place, hplace⟩ := Array.mem_iff_getElem?.mp hf
      exact ⟨_, d, place, f, hd, hlists, hplace, hsuits, rfl⟩
    · rintro ⟨_, d, place, f, hd, hlists, hplace, hsuits, _⟩
      exact ⟨d, hd, hlists, f, Array.mem_of_getElem? hplace, hsuits⟩
  refine ⟨_, _, rfl, rfl, hlinked.fieldSearch hc name signature, hiff, hiff', ?_,
    hlinked.searchField_own hc, ?_, ?_⟩
  · intro r hr
    obtain ⟨d, place, f, hd, hlists, hf, hsuits, rfl⟩ := hstarted.lists_of_searchField hplain hc hr
    refine ⟨(hmem _).mpr ⟨d, place, f, hd, hlists, hf, hsuits, rfl⟩, f, ?_, hsuits⟩
    -- With at most 65536 fields the index of a field is not cut off.
    have hplace := toNat_ofNat_of_found (hfields d (ClassTable.mem_of_get? hd)) hf
    simp [ClassTable.field?, hd, Class.field?, hplace, hf]
  · rintro hown ⟨i, hi, d, hd, habove, hdeclares⟩
    exact hlinked.searchField_interfaces hc hown hi hd habove hdeclares
  · intro env request slots e m' hrequest hflags hrun
    obtain ⟨he, _⟩ := fillings_of_enumerateMembers hm.sound.heap hrequest hrun
      (by rw [hflags])
    exact ⟨_, he, by rw [hiff', Ne, List.length_eq_zero_iff]⟩

/-- The constant of the interface hides the static field of the superclass. -/
theorem dot_fieldSearch_agrees :
    ∃ (m m' : Machine) (c : Class), m.Reachable (fun _ {_} _ => True) ∧
      m.classes.PlainInterfaces ∧ (∀ k ∈ m.classes.classes, k.fields.size ≤ 65536) ∧
      m.classes.get? c.id = some c ∧ c.kind = .object ∧ c.isInterface = false ∧
      m.classes.FieldSearch "count" none [c] (some ⟨36, 0⟩) ∧
      m.classes.FieldSearch "count" (some "I") [c] (some ⟨34, 2⟩) ∧
      (∃ i ∈ c.interfaces, ReflTransGen m.classes.Below i 36) ∧
      enumerateMembers Sample.bare Sample.counting m = (.ok (.found 2), m') ∧
      (2 ≠ 0 ↔ (m.classes.searchField c "count" none).isSome = true) := by
  obtain ⟨m₀, hstart, -, hclasses, hmark, hdot, hobjects, hcount⟩ :=
    Sample.drawing_and_marking_succeed
  -- The sample is made in two parts.
  have hreachable : (Sample.marked m₀).Reachable (fun _ {_} _ => True) := by
    have hdrawing : Run (fun _ {_} _ => True) m₀ (m₀.perform Sample.bare Sample.drawing) :=
      Run.perform (fun _ h => by cases h) (fun _ _ _ => trivial) m₀
    exact ⟨Sample.bare, {}, m₀, hstart,
      hdrawing.trans (Run.perform (fun _ h => by cases h) (fun _ _ _ => trivial) _)⟩
  generalize Sample.marked m₀ = m at hclasses hmark hdot hobjects hcount hreachable
  obtain ⟨c, hc, hparts⟩ := Option.map_eq_some_iff.mp hdot
  obtain ⟨mark, hget, hmark⟩ := Option.map_eq_some_iff.mp hmark
  simp only [Prod.mk.injEq, List.map_cons, List.map_nil, List.cons.injEq] at hparts hmark
  obtain ⟨⟨hid, hkind, hclass, hinterfaces, hsize⟩, hfound, hfound', _⟩ := hparts
  have hplain : m.classes.PlainInterfaces := fun k hk hinterface s hs =>
    (hclasses k hk.val).2 hinterface s hs
  have hfields : ∀ k ∈ m.classes.classes, k.fields.size ≤ 65536 := fun k hk => (hclasses k hk.val).1
  have hc' : m.classes.get? c.id = some c := hid ▸ hc
  obtain ⟨_, _, rfl, _, hsearch, _, _, _, _, hinterface, hcounts⟩ :=
    fieldSearch_agrees hreachable hplain hfields hc' hkind "count" none
  obtain ⟨_, _, rfl, _, hsearch', _⟩ :=
    fieldSearch_agrees hreachable hplain hfields hc' hkind "count" (some "I")
  -- The class has no field of that name itself, and its interface has one.
  have hown : ¬ c.DeclaresField "count" none := by
    rintro ⟨f, hf, _⟩
    rw [Array.size_eq_zero_iff.mp hsize] at hf
    exact Array.not_mem_empty f hf
  have hmarks : mark.DeclaresField "count" none := by
    obtain ⟨f, hf, hname⟩ := List.map_eq_singleton_iff.mp hmark.2
    refine ⟨f, Array.mem_toList_iff.mp (by rw [hf]; exact List.mem_singleton_self f), hname, ?_⟩
    intro s hs
    cases hs
  obtain ⟨r, hr, i, hi, habove⟩ := hinterface hown
    ⟨36, by rw [hinterfaces]; exact List.mem_singleton_self 36, mark, hmark.1 ▸ hget,
      by rw [hmark.1], hmarks⟩
  rw [hfound, Option.some.injEq] at hr
  subst hr
  -- The array of the request is empty: matches are only counted.
  have hrequest : Sample.counting.MadeFor m c (some "count") none [] :=
    { clazz := ⟨⟨37⟩, rfl, by rw [hid]; exact (hobjects (⟨37⟩, .classObject 37) (by simp)).eq_ok,
        hc'⟩
      name := ⟨(hobjects (⟨38⟩, .string "count") (by simp)).eq_ok, by decide⟩
      signature := ⟨trivial, by decide⟩
      caller := fun _ hcaller => by cases hcaller
      fields := by rw [hclass]; rfl
      results := ⟨⟨39⟩, { component := 0, elements := #[] }, rfl,
        (hobjects (⟨39⟩, .array { component := 0, elements := #[] }) (by simp)).eq_ok, rfl⟩
      names := fun _ hslot => absurd hslot List.not_mem_nil
      distinct := List.nodup_nil }
  have hrun : enumerateMembers Sample.bare Sample.counting m =
      (.ok (.found 2), (enumerateMembers Sample.bare Sample.counting m).2) :=
    Prod.ext hcount.eq_ok rfl
  obtain ⟨count, he, hiff⟩ := hcounts hrequest rfl hrun
  cases he
  exact ⟨m, _, c, hreachable, hplain, hfields, hc', hkind, hclass, hfound ▸ hsearch,
    hfound' ▸ hsearch', ⟨i, hi, habove⟩, hrun, hiff⟩

end Linkage
