import Mathlib.Data.List.Nodup
import Linkage.ClassFile.Encoding
import Linkage.Proofs.Dispatch

/-! # Maximally specific methods

    Which method a search finds is said by the hierarchy alone: by what can be reached by
    going up (`ClassTable.Extends`, `ClassTable.Below`) and by which classes declare a
    method of the name and descriptor. The search itself goes through lists that were
    computed when the classes were defined.

    * `ClassTable.Nearest`: the declaration in the class or the nearest superclass.
    * `ClassTable.Offered`, `ClassTable.MaximallySpecific`: the methods of interfaces, and
      those among them that no subinterface declares again.
    * `ClassTable.chain_spec`, `ClassTable.mem_specificMethods`: the lists hold these.
    * `ClassTable.Picks`: which of the maximally specific methods is chosen. -/

namespace Linkage

open Relation

namespace ClassTable

/-! ## What the hierarchy says -/

section Hierarchy

variable (t : ClassTable)

/-- There is a method with that name and descriptor. -/
def Declares (name descriptor : String) (r : MethodRef) : Prop :=
  ∃ m, t.method? r = some m ∧ m.name = name ∧ m.descriptor.render = descriptor

/-- Every class has at most one method with a given name and descriptor, and no more
    methods than there are places. -/
structure Unambiguous : Prop where
  methods : ∀ c ∈ t.classes, c.methods.size ≤ 65536
  distinct : ∀ c ∈ t.classes, ∀ {i j : Nat} {m m' : Method}, c.methods[i]? = some m →
    c.methods[j]? = some m' → m.name = m'.name →
    m.descriptor.render = m'.descriptor.render → i = j

/-- The method is declared by the class or a superclass, and every other such
    declaration is further up. -/
structure Nearest (i : ClassId) (name descriptor : String) (r : MethodRef) : Prop where
  declares : t.Declares name descriptor r
  above : ReflTransGen t.Extends i r.owner
  nearest : ∀ r', t.Declares name descriptor r' → ReflTransGen t.Extends i r'.owner →
    ReflTransGen t.Extends r.owner r'.owner

/-- The method is declared by an interface above the class, neither static nor private. -/
structure Offered (i : ClassId) (name descriptor : String) (r : MethodRef) : Prop where
  declares : t.Declares name descriptor r
  inherited : ∀ m, t.method? r = some m → m.isStatic = false ∧ m.isPrivate = false
  interface : t.HasInterface r.owner
  above : ReflTransGen t.Below i r.owner

/-- No other interface that offers such a method is below the one that declares it. -/
structure MaximallySpecific (i : ClassId) (name descriptor : String) (r : MethodRef) : Prop
    extends t.Offered i name descriptor r where
  maximal : ∀ r', t.Offered i name descriptor r' → r'.owner ≠ r.owner →
    ¬ TransGen t.Below r'.owner r.owner

/-- There is such a method, and it is not abstract. -/
def HasBody (r : MethodRef) : Prop :=
  ∃ m, t.method? r = some m ∧ m.isAbstract = false

/-- The result is what the interfaces above the class offer. -/
structure Picks (c : Class) (name descriptor : String) (detectConflicts : Bool)
    (result : Except LinkError (Option MethodRef)) : Prop where
  none_iff : result = .ok none ↔ ∀ r, ¬ t.Offered c.id name descriptor r
  specific : ∀ {r}, result = .ok (some r) → t.MaximallySpecific c.id name descriptor r
  /-- The only maximally specific method with a body is preferred. -/
  single : ∀ {r}, t.MaximallySpecific c.id name descriptor r → t.HasBody r →
    (∀ r', t.MaximallySpecific c.id name descriptor r' → t.HasBody r' → r' = r) →
      result = .ok (some r)
  bodiless : (∃ r, t.Offered c.id name descriptor r) →
    (∀ r, t.MaximallySpecific c.id name descriptor r → ¬ t.HasBody r) →
      ∃ r m, result = .ok (some r) ∧ t.method? r = some m ∧ m.isAbstract = true
  /-- Two of them are an error, or the one counts that comes first in the interface table. -/
  conflict : ∀ {r r'}, t.MaximallySpecific c.id name descriptor r → t.HasBody r →
    t.MaximallySpecific c.id name descriptor r' → t.HasBody r' → r ≠ r' →
      (detectConflicts = true →
        ∃ e, result = .error e ∧ e.kind = .incompatibleClassChange) ∧
      (detectConflicts = false →
        ∃ first before after, result = .ok (some first) ∧
          t.MaximallySpecific c.id name descriptor first ∧ t.HasBody first ∧
          c.itable = before ++ first.owner :: after ∧
          ∀ s, t.MaximallySpecific c.id name descriptor s → t.HasBody s → s.owner ∉ before)

end Hierarchy

variable {t : ClassTable} {c : Class} {k : ClassId} {name descriptor : String} {r : MethodRef}

theorem isConcrete_iff : t.isConcrete r = true ↔ t.HasBody r := by
  unfold isConcrete HasBody
  cases t.method? r <;> simp

/-! ## Declarations -/

section Search

variable (hlinked : t.Linked) (hdistinct : t.Unambiguous)

include hlinked hdistinct

/-- A class that declares the method finds it under its name and descriptor. -/
theorem declaredMethod?_eq_some_iff (hc : t.get? k = some c) :
    declaredMethod? c name (some descriptor) = some r ↔
      r.owner = k ∧ t.Declares name descriptor r := by
  have hmem := mem_of_get? hc
  have hsize := hdistinct.methods c hmem
  constructor
  · intro h
    obtain ⟨i, m, rfl, hm, hcalled⟩ := declaredMethod?_eq_some h
    refine ⟨hlinked.ids hc, m, ?_, Method.isCalled_iff.mp hcalled⟩
    unfold ClassTable.method? Class.method?
    rw [hlinked.ids hc, hc, Option.bind_some, toNat_ofNat_of_found hsize hm, hm]
  · rintro ⟨howner, m, hm, hname, hdescriptor⟩
    unfold ClassTable.method? at hm
    rw [howner, hc, Option.bind_some] at hm
    have hcalled : m.isCalled name (some descriptor) = true :=
      Method.isCalled_iff.mpr ⟨hname, hdescriptor⟩
    cases hfound : declaredMethod? c name (some descriptor) with
    | none =>
      rw [not_isCalled_of_declaredMethod? hfound hm] at hcalled
      cases hcalled
    | some r' =>
      -- What is found is called alike, so it is at the same place.
      obtain ⟨j, m', rfl, hm', hcalled'⟩ := declaredMethod?_eq_some hfound
      obtain ⟨hname', hdescriptor'⟩ := Method.isCalled_iff.mp hcalled'
      have hplace : j = r.index.toNat := hdistinct.distinct c hmem hm' hm
        (hname'.trans hname.symm) (hdescriptor'.trans hdescriptor.symm)
      rw [hplace, UInt16.ofNat_toNat, hlinked.ids hc, ← howner]

/-- The search through the class and its superclasses finds the nearest declaration. -/
theorem chain_spec (hc : t.get? k = some c) :
    (∀ r, (declaredMethod? c name (some descriptor)).or
        (t.superclassMethod? c name (some descriptor)) = some r →
      t.Nearest k name descriptor r) ∧
    ((declaredMethod? c name (some descriptor)).or
        (t.superclassMethod? c name (some descriptor)) = none →
      ∀ r', t.Declares name descriptor r' → ¬ ReflTransGen t.Extends k r'.owner) := by
  -- By induction on the place: beyond the class, the search is that of the superclass.
  induction k using Nat.strongRecOn generalizing c with
  | ind k ih =>
    have hiff {r : MethodRef} : declaredMethod? c name (some descriptor) = some r ↔
        r.owner = k ∧ t.Declares name descriptor r :=
      declaredMethod?_eq_some_iff hlinked hdistinct hc
    cases hdeclared : declaredMethod? c name (some descriptor) with
    | some found =>
      rw [Option.some_or]
      refine ⟨?_, fun h => (by cases h)⟩
      intro r h
      cases h
      obtain ⟨howner, hdeclares⟩ := hiff.mp hdeclared
      refine ⟨hdeclares, ?_, ?_⟩
      · rw [howner]
      · intro r' _ habove
        rw [howner]
        exact habove
    | none =>
      rw [Option.none_or]
      have hown : ∀ r', t.Declares name descriptor r' → r'.owner ≠ k := by
        intro r' hr' howner
        rw [hiff.mpr ⟨howner, hr'⟩] at hdeclared
        cases hdeclared
      rcases (hlinked.fits hc).superclasses with ⟨hroot, hempty⟩ | ⟨s, d, hs, hd, hsuper⟩
      · unfold superclassMethod?
        rw [hempty]
        refine ⟨fun r h => (by cases h), ?_⟩
        intro _ r' hr' habove
        rcases habove.cases_head with he | ⟨j, ⟨c', hc', hj⟩, _⟩
        · exact hown r' hr' he.symm
        · rw [hc, Option.some.injEq] at hc'
          rw [← hc', hroot] at hj
          cases hj
      · have hstep : t.Extends k s := ⟨c, hc, hs⟩
        -- All declarations are above the superclass.
        have hup : ∀ r', t.Declares name descriptor r' → ReflTransGen t.Extends k r'.owner →
            ReflTransGen t.Extends s r'.owner := by
          intro r' hr' habove
          rcases habove.cases_head with he | ⟨j, ⟨c', hc', hj⟩, hrest⟩
          · exact absurd he.symm (hown r' hr')
          · rw [hc, Option.some.injEq] at hc'
            rw [← hc', hs, Option.some.injEq] at hj
            rw [hj]
            exact hrest
        rw [superclassMethod?_eq hsuper hd]
        obtain ⟨hsome, hnone⟩ := ih s (hlinked.superclass_lt hc hs hd).1 hd
        constructor
        · intro r h
          have hnearest := hsome r h
          exact ⟨hnearest.declares, .head hstep hnearest.above,
            fun r' hr' habove => hnearest.nearest r' hr' (hup r' hr' habove)⟩
        · intro h r' hr' habove
          exact hnone h r' hr' (hup r' hr' habove)

/-! ## Interfaces -/

/-- What an interface offers is its method with that name and descriptor. -/
theorem offeredMethod?_eq_some_iff (hc : t.get? k = some c) :
    offeredMethod? c name (some descriptor) = some r ↔
      r.owner = k ∧ t.Declares name descriptor r ∧
        ∀ m, t.method? r = some m → m.isStatic = false ∧ m.isPrivate = false := by
  -- Names and descriptors are not declared twice, so that what is declared first is the only one.
  have hiff {r : MethodRef} : declaredMethod? c name (some descriptor) = some r ↔
      r.owner = k ∧ t.Declares name descriptor r :=
    declaredMethod?_eq_some_iff hlinked hdistinct hc
  constructor
  · intro h
    unfold offeredMethod? at h
    cases hdeclared : declaredMethod? c name (some descriptor) with
    | none =>
      rw [hdeclared] at h
      cases h
    | some found =>
      obtain ⟨howner, m, hm, hcalled⟩ := hiff.mp hdeclared
      have hplace : c.method? found.index = some m := by
        unfold ClassTable.method? at hm
        rw [howner, hc, Option.bind_some] at hm
        exact hm
      simp only [hdeclared, hplace] at h
      -- Methods that are static or private are not passed on.
      split at h
      · cases h
      · rename_i hplain
        cases h
        rw [Bool.or_eq_true, not_or, Bool.not_eq_true, Bool.not_eq_true] at hplain
        refine ⟨howner, ⟨m, hm, hcalled⟩, ?_⟩
        intro m' hm'
        rw [hm, Option.some.injEq] at hm'
        exact hm' ▸ hplain
  · rintro ⟨howner, ⟨m, hm, hcalled⟩, hplain⟩
    have hdeclared := hiff.mpr ⟨howner, m, hm, hcalled⟩
    obtain ⟨hstatic, hprivate⟩ := hplain m hm
    unfold ClassTable.method? at hm
    rw [howner, hc, Option.bind_some] at hm
    simp [offeredMethod?, hdeclared, hm, hstatic, hprivate]

/-- The methods that the search collects are those that interfaces offer, unless the
    class declares one itself. -/
theorem mem_interfaceMethods (hc : t.get? k = some c)
    (hown : ∀ r', t.Declares name descriptor r' → r'.owner ≠ k) :
    r ∈ t.interfaceMethods c name (some descriptor) ↔ t.Offered k name descriptor r := by
  unfold interfaceMethods
  rw [List.mem_filterMap]
  constructor
  · rintro ⟨id, hid, hoffer⟩
    obtain ⟨i, hi, hoffered⟩ := Option.bind_eq_some_iff.mp hoffer
    obtain ⟨howner, hdeclares, hplain⟩ :=
      (offeredMethod?_eq_some_iff hlinked hdistinct hi).mp hoffered
    obtain ⟨hinterface, habove⟩ := (hlinked.mem_itable hc).mp hid
    exact ⟨hdeclares, hplain, howner ▸ hinterface, howner ▸ habove.to_reflTransGen⟩
  · rintro ⟨hdeclares, hplain, hinterface, habove⟩
    obtain ⟨i, hi, _⟩ := id hinterface
    -- The class declares none itself, so the interface is strictly above it.
    have hstrict : TransGen t.Below k r.owner :=
      (reflTransGen_iff_eq_or_transGen.mp habove).resolve_left (hown r hdeclares)
    refine ⟨r.owner, (hlinked.mem_itable hc).mpr ⟨hinterface, hstrict⟩, ?_⟩
    exact Option.bind_eq_some_iff.mpr
      ⟨i, hi, (offeredMethod?_eq_some_iff hlinked hdistinct hi).mpr ⟨rfl, hdeclares, hplain⟩⟩

omit hdistinct in
/-- A method is left out if another one is declared further down. -/
theorem isShadowed_iff {methods : List MethodRef} (hr : t.HasInterface r.owner)
    (hmethods : ∀ r' ∈ methods, t.HasInterface r'.owner) :
    t.isShadowed methods r = true ↔
      ∃ r' ∈ methods, r'.owner ≠ r.owner ∧ TransGen t.Below r'.owner r.owner := by
  unfold isShadowed
  rw [List.any_eq_true]
  refine exists_congr fun r' => and_congr_right fun hr' => ?_
  obtain ⟨i, hi, _⟩ := hmethods r' hr'
  rw [hi, Bool.and_eq_true, bne_iff_ne]
  refine and_congr_right fun hne => ?_
  rw [hlinked.implements_iff hi]
  constructor
  · rintro (he | ⟨_, hbelow⟩)
    · exact absurd he.symm hne
    · exact hbelow
  · intro hbelow
    exact Or.inr ⟨hr, hbelow⟩

theorem mem_specificMethods (hc : t.get? k = some c)
    (hown : ∀ r', t.Declares name descriptor r' → r'.owner ≠ k) :
    r ∈ t.specificMethods c name (some descriptor) ↔ t.MaximallySpecific k name descriptor r := by
  have hmem {r' : MethodRef} := mem_interfaceMethods (r := r') hlinked hdistinct hc hown
  -- Only interfaces offer methods, and between these shadowing is being below.
  have hinterfaces : ∀ r' ∈ t.interfaceMethods c name (some descriptor),
      t.HasInterface r'.owner := fun r' hr' => (hmem.mp hr').interface
  unfold specificMethods
  rw [List.mem_filter, hmem, Bool.not_eq_true', ← Bool.not_eq_true]
  constructor
  · rintro ⟨hoffered, hplain⟩
    rw [isShadowed_iff hlinked hoffered.interface hinterfaces] at hplain
    exact ⟨hoffered, fun r' hr' hne hbelow => hplain ⟨r', hmem.mpr hr', hne, hbelow⟩⟩
  · intro hspecific
    refine ⟨hspecific.toOffered, ?_⟩
    rw [isShadowed_iff hlinked hspecific.interface hinterfaces]
    rintro ⟨r', hr', hne, hbelow⟩
    exact hspecific.maximal r' (hmem.mp hr') hne hbelow

omit hdistinct in
/-- Where there is a method, there is a maximally specific one: subinterfaces are further
    back in the table, which ends somewhere. -/
theorem exists_maximallySpecific (h : t.Offered k name descriptor r) :
    ∃ r', t.MaximallySpecific k name descriptor r' := by
  induction hn : t.size - r.owner using Nat.strongRecOn generalizing r with
  | ind n ih =>
    by_cases hmaximal : ∃ r', t.Offered k name descriptor r' ∧ r'.owner ≠ r.owner ∧
        TransGen t.Below r'.owner r.owner
    · obtain ⟨r', hr', _, hbelow⟩ := hmaximal
      have hlt := hlinked.lt_of_transGen_below hbelow
      obtain ⟨i, hi, _⟩ := hr'.interface
      have hsize := lt_size_of_get? hi
      have hless : t.size - r'.owner < n :=
        hn ▸ Nat.sub_lt_sub_left (Nat.lt_trans hlt hsize) hlt
      exact ih _ hless hr' rfl
    · exact ⟨r, h, fun r' hr' hne hbelow => hmaximal ⟨r', hr', hne, hbelow⟩⟩

/-- An interface gives one method at most, so none is collected twice. -/
theorem nodup_specificMethods (hc : t.get? k = some c) :
    (t.specificMethods c name (some descriptor)).Nodup := by
  refine List.Nodup.filter _ (List.Nodup.filterMap ?_ (hlinked.fits hc).nodup)
  intro id id' r hr hr'
  obtain ⟨i, hi, hoffered⟩ := Option.bind_eq_some_iff.mp hr
  obtain ⟨i', hi', hoffered'⟩ := Option.bind_eq_some_iff.mp hr'
  have howner := ((offeredMethod?_eq_some_iff hlinked hdistinct hi).mp hoffered).1
  have howner' := ((offeredMethod?_eq_some_iff hlinked hdistinct hi').mp hoffered').1
  exact howner.symm.trans howner'

/-- The first of the collected methods with a property comes first in the interface table,
    too. -/
theorem itable_of_filter_specificMethods (hc : t.get? k = some c)
    (hown : ∀ r', t.Declares name descriptor r' → r'.owner ≠ k) {p : MethodRef → Bool}
    {first : MethodRef} {rest : List MethodRef}
    (h : (t.specificMethods c name (some descriptor)).filter p = first :: rest) :
    ∃ before after, c.itable = before ++ first.owner :: after ∧
      ∀ s, t.MaximallySpecific k name descriptor s → p s = true → s.owner ∉ before := by
  have hmem {s : MethodRef} := mem_specificMethods (r := s) hlinked hdistinct hc hown
  simp only [specificMethods, interfaceMethods, List.filter_filter] at h hmem
  -- The first method that is kept comes from the first interface whose method is kept.
  rw [List.filter_filterMap, List.filterMap_eq_cons_iff] at h
  obtain ⟨before, id, after, htable, hbefore, hfirst, _⟩ := h
  obtain ⟨hoffer, _⟩ := Option.filter_eq_some_iff.mp hfirst
  obtain ⟨i, hi, hoffered⟩ := Option.bind_eq_some_iff.mp hoffer
  have howner := ((offeredMethod?_eq_some_iff hlinked hdistinct hi).mp hoffered).1
  refine ⟨before, after, by rw [howner]; exact htable, ?_⟩
  intro s hs hp hsbefore
  obtain ⟨j, hj, _⟩ := hs.interface
  have hoffer' : (t.get? s.owner).bind (fun i => offeredMethod? i name (some descriptor)) =
      some s :=
    Option.bind_eq_some_iff.mpr ⟨j, hj, (offeredMethod?_eq_some_iff hlinked hdistinct hj).mpr
      ⟨rfl, hs.declares, hs.inherited⟩⟩
  -- A method of an earlier interface would have been kept too.
  have hnone := hbefore s.owner hsbefore
  have hplain := (List.mem_filter.mp (hmem.mpr hs)).2
  rw [hoffer', Option.filter_some, hp, hplain] at hnone
  cases hnone

/-- The list holds the maximally specific methods in the order of the interface table. -/
structure Lists (t : ClassTable) (c : Class) (name descriptor : String)
    (methods : List MethodRef) : Prop where
  mem_iff : ∀ {r}, r ∈ methods ↔ t.MaximallySpecific c.id name descriptor r
  nodup : methods.Nodup
  first : ∀ {p : MethodRef → Bool} {first rest}, methods.filter p = first :: rest →
    ∃ before after, c.itable = before ++ first.owner :: after ∧
      ∀ s, t.MaximallySpecific c.id name descriptor s → p s = true → s.owner ∉ before
  nil_iff : methods = [] ↔ ∀ r, ¬ t.Offered c.id name descriptor r

theorem lists_specificMethods (hc : t.get? c.id = some c)
    (hown : ∀ r', t.Declares name descriptor r' → r'.owner ≠ c.id) :
    t.Lists c name descriptor (t.specificMethods c name (some descriptor)) := by
  have hmem {r : MethodRef} := mem_specificMethods (r := r) hlinked hdistinct hc hown
  refine ⟨hmem, nodup_specificMethods hlinked hdistinct hc,
    itable_of_filter_specificMethods hlinked hdistinct hc hown, ?_⟩
  rw [List.eq_nil_iff_forall_not_mem]
  constructor
  · intro hempty r hoffered
    obtain ⟨r', hr'⟩ := exists_maximallySpecific hlinked hoffered
    exact hempty r' (hmem.mpr hr')
  · intro hno r hr
    exact hno r (hmem.mp hr).toOffered

end Search

/-! ## The choice -/

namespace Lists

variable {methods : List MethodRef} (h : t.Lists c name descriptor methods)

include h

theorem mem_filter_isConcrete : r ∈ methods.filter t.isConcrete ↔
    t.MaximallySpecific c.id name descriptor r ∧ t.HasBody r := by
  rw [List.mem_filter, h.mem_iff, isConcrete_iff]

/-- No method has a body: the first one is chosen, and it is abstract. -/
theorem picks_of_bodiless (hbodies : methods.filter t.isConcrete = []) {detectConflicts : Bool} :
    t.Picks c name descriptor detectConflicts (.ok methods.head?) := by
  -- Nothing is maximally specific and has a body.
  have hno : ∀ r, t.MaximallySpecific c.id name descriptor r → ¬ t.HasBody r := by
    intro r hr hbody
    have hmem := h.mem_filter_isConcrete.mpr ⟨hr, hbody⟩
    rw [hbodies] at hmem
    cases hmem
  refine ⟨?_, ?_, ?_, ?_, ?_⟩
  · rw [Except.ok.injEq, List.head?_eq_none_iff, h.nil_iff]
  · intro r hr
    exact h.mem_iff.mp (List.mem_of_head? (Except.ok.inj hr))
  · intro r hr hbody _
    exact absurd hbody (hno r hr)
  · rintro ⟨r, hoffered⟩ _
    cases methods with
    | nil => exact absurd hoffered (h.nil_iff.mp rfl r)
    | cons head tail =>
      have hhead := h.mem_iff.mp List.mem_cons_self
      obtain ⟨m, hm, _⟩ := hhead.declares
      refine ⟨head, m, rfl, hm, ?_⟩
      by_contra habstract
      exact hno head hhead ⟨m, hm, by simpa using habstract⟩
  · intro r r' hr hbody
    exact absurd hbody (hno r hr)

/-- One method has a body, and it is chosen. -/
theorem picks_of_single {only : MethodRef} (hbodies : methods.filter t.isConcrete = [only])
    {detectConflicts : Bool} : t.Picks c name descriptor detectConflicts (.ok (some only)) := by
  -- There is one, so each that has a body is this one.
  have hiff {r : MethodRef} : t.MaximallySpecific c.id name descriptor r ∧ t.HasBody r ↔
      r = only := by
    rw [← h.mem_filter_isConcrete, hbodies, List.mem_singleton]
  obtain ⟨hspecific, hbody⟩ := hiff.mpr rfl
  refine ⟨?_, ?_, ?_, ?_, ?_⟩
  · constructor
    · intro hnone
      cases hnone
    · intro hno
      exact absurd hspecific.toOffered (hno only)
  · intro r hr
    cases hr
    exact hspecific
  · intro r hr hrbody _
    rw [hiff.mp ⟨hr, hrbody⟩]
  · intro _ hno
    exact absurd hbody (hno only hspecific)
  · intro r r' hr hrbody hr' hrbody' hne
    exact absurd ((hiff.mp ⟨hr, hrbody⟩).trans (hiff.mp ⟨hr', hrbody'⟩).symm) hne

/-- Several methods have a body: they are in conflict, or the first of them is chosen. -/
theorem picks_of_conflict {first second : MethodRef} {rest : List MethodRef}
    (hbodies : methods.filter t.isConcrete = first :: second :: rest) {e : LinkError}
    (he : e.kind = .incompatibleClassChange) (detectConflicts : Bool) :
    t.Picks c name descriptor detectConflicts
      (if detectConflicts then .error e else .ok (some first)) := by
  have hmem {r : MethodRef} (hr : r ∈ first :: second :: rest) :
      t.MaximallySpecific c.id name descriptor r ∧ t.HasBody r :=
    h.mem_filter_isConcrete.mp (hbodies ▸ hr)
  obtain ⟨hspecific, hbody⟩ := hmem List.mem_cons_self
  obtain ⟨hspecific', hbody'⟩ := hmem (List.mem_cons_of_mem first List.mem_cons_self)
  -- The methods are listed once each.
  have hne : first ≠ second := by
    have hnodup := List.Nodup.filter t.isConcrete h.nodup
    rw [hbodies] at hnodup
    intro heq
    exact (List.nodup_cons.mp hnodup).1 (heq ▸ List.mem_cons_self)
  refine ⟨?_, ?_, ?_, ?_, ?_⟩
  · constructor
    · intro hnone
      cases detectConflicts <;> cases hnone
    · intro hno
      exact absurd hspecific.toOffered (hno first)
  · intro r hr
    cases detectConflicts with
    | true => cases hr
    | false =>
      cases hr
      exact hspecific
  · intro r _ _ hunique
    exact absurd ((hunique first hspecific hbody).trans (hunique second hspecific' hbody').symm)
      hne
  · intro _ hno
    exact absurd hbody (hno first hspecific)
  · intro r r' _ _ _ _ _
    -- Conflicts are reported if they are looked for; if not, the first interface in the table wins.
    constructor
    · rintro rfl
      exact ⟨e, rfl, he⟩
    · rintro rfl
      obtain ⟨before, after, htable, hbefore⟩ := h.first hbodies
      exact ⟨first, before, after, rfl, hspecific, hbody, htable,
        fun s hs hsbody => hbefore s hs (isConcrete_iff.mpr hsbody)⟩

theorem picks_chooseMethod (detectConflicts : Bool) :
    t.Picks c name descriptor detectConflicts (t.chooseMethod detectConflicts name methods) := by
  unfold chooseMethod
  split
  · rename_i hbodies
    exact h.picks_of_bodiless hbodies
  · rename_i only hbodies
    exact h.picks_of_single hbodies
  · rename_i first second rest hbodies
    exact h.picks_of_conflict hbodies rfl detectConflicts

end Lists

end ClassTable

/-- A search with the whole descriptor: first the class and its superclasses, then the
    interfaces. -/
theorem ClassTable.searchMethod_eq_elim {t : ClassTable} {c : Class} {name descriptor : String}
    {options : LookupOptions} (hname : Method.isInitializerName name = false)
    (hexact : options.partialSignature = false) :
    t.searchMethod c name (some descriptor) options =
      ((declaredMethod? c name (some descriptor)).or
        (t.superclassMethod? c name (some descriptor))).elim
        (t.chooseMethod options.detectConflicts name
          (t.specificMethods c name (some descriptor)))
        (fun r => .ok (some r)) := by
  unfold ClassTable.searchMethod
  simp only [hexact, hname, Bool.false_eq_true, if_false]
  cases declaredMethod? c name (some descriptor) with
  | some r => rfl
  | none => cases t.superclassMethod? c name (some descriptor) <;> rfl

/-- In every reachable machine in which no class declares a method twice, the search for a
    method by name and descriptor finds the nearest declaration among the class and its
    superclasses, or else picks one of the maximally specific methods of its interfaces. -/
theorem search_picks_specific {rule : Discipline} {m : Machine} (h : m.Reachable rule)
    (hdistinct : m.classes.Unambiguous) {c : Class} (hc : c ∈ m.classes.classes)
    {name : String} (hname : Method.isInitializerName name = false) (descriptor : String)
    (options : LookupOptions) (hexact : options.partialSignature = false) :
    ((∃ r, m.classes.Declares name descriptor r ∧
        ReflTransGen m.classes.Extends c.id r.owner) →
      ∃ r, m.classes.Nearest c.id name descriptor r ∧
        m.classes.searchMethod c name (some descriptor) options = .ok (some r)) ∧
    ((∀ r, m.classes.Declares name descriptor r →
        ¬ ReflTransGen m.classes.Extends c.id r.owner) →
      m.classes.Picks c name descriptor options.detectConflicts
        (m.classes.searchMethod c name (some descriptor) options)) := by
  have hlinked := h.started.toLinked
  have hget := ClassTable.get?_id hlinked.ids hc
  rw [ClassTable.searchMethod_eq_elim hname hexact]
  -- The chain of superclasses comes first, and only then the interfaces.
  cases hfound : (ClassTable.declaredMethod? c name (some descriptor)).or
      (m.classes.superclassMethod? c name (some descriptor)) with
  | some found =>
    have hnearest := (ClassTable.chain_spec hlinked hdistinct hget).1 found hfound
    refine ⟨fun _ => ⟨found, hnearest, rfl⟩, ?_⟩
    intro hno
    exact absurd hnearest.above (hno found hnearest.declares)
  | none =>
    have hno := (ClassTable.chain_spec hlinked hdistinct hget).2 hfound
    constructor
    · rintro ⟨r, hdeclares, habove⟩
      exact absurd habove (hno r hdeclares)
    · intro _
      have hown : ∀ r', m.classes.Declares name descriptor r' → r'.owner ≠ c.id :=
        fun r' hr' howner => hno r' hr' (howner ▸ .refl)
      exact (ClassTable.lists_specificMethods hlinked hdistinct hget hown).picks_chooseMethod _

/-- Names and descriptors of the methods can be compared class by class. -/
theorem ClassTable.unambiguous_of_nodup {t : ClassTable}
    (h : ∀ c ∈ t.classes, c.methods.size ≤ 65536 ∧
      (c.methods.toList.map (fun m => (m.name, m.descriptor.render))).Nodup) : t.Unambiguous where
  methods := fun c hc => (h c hc).1
  distinct := by
    intro c hc i j m m' hm hm' hname hdescriptor
    have hi : (c.methods.toList.map (fun m => (m.name, m.descriptor.render)))[i]? =
        some (m.name, m.descriptor.render) := by simp [hm]
    have hj : (c.methods.toList.map (fun m => (m.name, m.descriptor.render)))[j]? =
        some (m.name, m.descriptor.render) := by simp [hm', hname, hdescriptor]
    exact (List.getElem?_inj (List.getElem?_eq_some_iff.mp hi).1 (h c hc).2).mp (hi.trans hj.symm)

namespace Sample

/-- The file of a class or interface with one method, and with interfaces that the given
    constants name. -/
def portFile (name : String) (access : UInt16) (named : List Constant) (interfaces : List UInt16)
    (method : String) (methodAccess : UInt16) : ClassFile :=
  { minor := 0
    major := 61
    pool := #[.utf8 name, .classRef 1, .utf8 "java/lang/Object", .classRef 3, .utf8 method,
      .utf8 "()V"] ++ named.toArray
    access
    thisClass := 2
    superClass := 4
    interfaces
    fields := []
    methods := [⟨methodAccess, 5, 6, []⟩]
    attributes := []
    bootstrapMethods := [] }

/-- An interface, two interfaces below it that implement its method, and a class below
    these two with a method of its own. -/
def portFiles : List ClassFile :=
  [portFile "port/Crane" 0x601 [] [] "lift" 0x401,
   portFile "port/Fast" 0x601 [.utf8 "port/Crane", .classRef 7] [8] "lift" 0x1,
   portFile "port/Heavy" 0x601 [.utf8 "port/Crane", .classRef 7] [8] "lift" 0x1,
   portFile "port/Dock" 0x21
     [.utf8 "port/Fast", .classRef 7, .utf8 "port/Heavy", .classRef 9] [8, 10] "open" 0x1]

/-- A name for the method of the class. -/
def nameOfOpen : MemberName :=
  { flags := (MemberFlags.make .method .invokeVirtual 0).encode
    name := some ⟨37⟩
    type := some ⟨38⟩
    clazz := some ⟨36⟩ }

/-- The machine with the classes of these files. -/
def port (m : Machine) : Machine :=
  m.perform env (portFiles.map (fun file => ⟨_, .deriveClass file.encode⟩))

/-- Then the name of the method is resolved. -/
def portWithName (m : Machine) : Machine :=
  (port m).perform env
    [⟨_, .intern "open"⟩, ⟨_, .intern "()V"⟩, ⟨_, .allocate (.memberName nameOfOpen)⟩,
     ⟨_, .resolveMemberName ⟨39⟩ none false⟩]

/-- What the run comes to, from a machine with the core classes. -/
abbrev PortFacts (m : Machine) : Prop :=
  ((∀ c ∈ (portWithName m).classes.classes.toList, c.methods.size ≤ 65536 ∧
      (c.methods.toList.map (fun m => (m.name, m.descriptor.render))).Nodup) ∧
    (portWithName m).classes.size = (port m).classes.size) ∧
  (((portWithName m).classes.get? 36).map (fun c => (c.id,
      decide (Succeeds ((portWithName m).classes.searchMethod c "lift" (some "()V")
        { detectConflicts := true }) (fun _ => True)),
      decide (Succeeds ((portWithName m).classes.searchMethod c "lift" (some "()V") {})
        (· = some ⟨34, 0⟩)),
      decide (Succeeds ((portWithName m).classes.searchMethod c "open" (some "()V") {})
        (· = some ⟨36, 0⟩)))) =
    some (36, false, true, true)) ∧
  (Succeeds ((portWithName m).heap.read ⟨39⟩) (fun object =>
      object.memberName?.map MemberName.vmindex = some 1) ∧
    (portWithName m).members.get? 1 = some (.method ⟨36, 0⟩) ∧
    ((portWithName m).classes.method? ⟨36, 0⟩).map (fun method =>
      (method.name, method.descriptor.render, method.dispatch)) =
      some ("open", "()V", .virtual 4) ∧
    ((portWithName m).classes.get? 36).bind (fun c => c.vtable[4]?) = some ⟨36, 0⟩ ∧
    (portWithName m).heap.live + 2 ≤ (portWithName m).heap.config.capacity)

set_option maxRecDepth 100000 in
set_option synthInstance.maxSize 1000 in
theorem port_succeeds : Succeeds (Machine.start env {}) PortFacts := by
  decide +kernel

/-- The discipline is the one that allows everything. -/
theorem run_portWithName (m : Machine) :
    Run (fun _ {_} _ => True) (port m) (portWithName m) :=
  Run.perform (invoker_runs (fun _ => trivial)) (fun _ _ _ => trivial) (port m)

theorem reachable_port {m : Machine} (hstart : Machine.start env {} = .ok m) :
    (portWithName m).Reachable (fun _ {_} _ => True) := by
  have hport : Run (fun _ {_} _ => True) m (port m) :=
    Run.perform (invoker_runs (fun _ => trivial)) (fun _ _ _ => trivial) m
  exact ⟨env, {}, m, hstart, hport.trans (run_portWithName m)⟩

end Sample

/-- The two default methods of the port are in conflict. The first one is found where
    conflicts are not detected. -/
theorem dock_search_picks_specific :
    ∃ (m : Machine) (c : Class), m.Reachable (fun _ {_} _ => True) ∧ m.classes.Unambiguous ∧
      c ∈ m.classes.classes ∧ Method.isInitializerName "lift" = false ∧
      (∀ r, m.classes.Declares "lift" "()V" r →
        ¬ ReflTransGen m.classes.Extends c.id r.owner) ∧
      m.classes.Picks c "lift" "()V" true
        (m.classes.searchMethod c "lift" (some "()V") { detectConflicts := true }) ∧
      m.classes.Picks c "lift" "()V" false (.ok (some ⟨34, 0⟩)) ∧
      m.classes.Nearest c.id "open" "()V" ⟨36, 0⟩ := by
  obtain ⟨m, hstart, ⟨hmethods, _⟩, hsearches, _, _, hopen, _⟩ := Sample.port_succeeds
  obtain ⟨c, hget, hparts⟩ := Option.map_eq_some_iff.mp hsearches
  simp only [Prod.mk.injEq, decide_eq_false_iff_not, decide_eq_true_eq] at hparts
  obtain ⟨hid, hconflict, hfirst, hown⟩ := hparts
  have hreachable := Sample.reachable_port hstart
  have hdistinct := ClassTable.unambiguous_of_nodup (fun c hc => hmethods c hc.val)
  have hc := ClassTable.mem_of_get? hget
  have hlift : Method.isInitializerName "lift" = false := by decide
  obtain ⟨hdeclared, hpicks⟩ := search_picks_specific hreachable hdistinct hc hlift "()V"
    { detectConflicts := true } rfl
  -- A declaration further up would have been found, but the search fails.
  have hno : ∀ r, (Sample.portWithName m).classes.Declares "lift" "()V" r →
      ¬ ReflTransGen (Sample.portWithName m).classes.Extends c.id r.owner := by
    intro r hr habove
    obtain ⟨r', _, hfound⟩ := hdeclared ⟨r, hr, habove⟩
    exact hconflict ⟨_, hfound, trivial⟩
  have hpicks' := (search_picks_specific hreachable hdistinct hc hlift "()V" {} rfl).2 hno
  rw [hfirst.eq_ok] at hpicks'
  obtain ⟨method, hmethod, hcalled⟩ := Option.map_eq_some_iff.mp hopen
  simp only [Prod.mk.injEq] at hcalled
  have hopens : (Sample.portWithName m).classes.Declares "open" "()V" ⟨36, 0⟩ :=
    ⟨method, hmethod, hcalled.1, hcalled.2.1⟩
  have hnamed : Method.isInitializerName "open" = false := by decide
  obtain ⟨r, hnearest, hfound⟩ :=
    (search_picks_specific hreachable hdistinct hc hnamed "()V" {} rfl).1 ⟨_, hopens, hid ▸ .refl⟩
  rw [hown.eq_ok, Except.ok.injEq, Option.some.injEq] at hfound
  exact ⟨_, c, hreachable, hdistinct, hc, hlift, hno, hpicks hno, hpicks', hfound ▸ hnearest⟩

end Linkage
