import Linkage.Proofs.Declared

/-! # Vtables and method searches

    A virtual call goes to the vtable of the receiver's class, at the position that
    the search for the method has found. Both agree in every machine that a run
    reaches, as long as positions and places fit 16 bits.

    * While a class is laid out, each position of its vtable holds the inherited
      method or one of its own that overrides it, and each of its virtual methods
      keeps the position it was given (`MethodLayout.Overlays`).
    * `Class.Overlays` is what this comes to for the class; every class that the table
      admits has it, so every class of a reachable machine has.
    * By induction on the place of the class, its vtable holds what a search from the
      class finds (`ClassTable.vtable_of_search`). -/

namespace Linkage

variable {t t' : ClassTable} {c : Class}

/-! ## Layout -/

/-- The vtable under construction, over the one that is inherited. -/
structure MethodLayout.Overlays (l : MethodLayout) (t : ClassTable) (base : Array MethodRef) :
    Prop where
  /-- An inherited position holds the inherited method or one that overrides it. -/
  kept : ∀ {p : Nat} {r : MethodRef}, base[p]? = some r →
    l.vtable[p]? = some (.inherited r) ∨
      ∃ i m inherited, l.vtable[p]? = some (.own (UInt16.ofNat i)) ∧ l.methods[i]? = some m ∧
        t.method? r = some inherited ∧ m.overrides inherited = true
  /-- A position holds what is inherited there, or a method with that position. -/
  stored : ∀ {p : Nat} {slot : VtableSlot}, l.vtable[p]? = some slot →
    (∃ r, slot = .inherited r ∧ base[p]? = some r) ∨
      ∃ i m, slot = .own (UInt16.ofNat i) ∧ l.methods[i]? = some m ∧
        m.dispatch = .virtual (UInt16.ofNat p)
  /-- A method with a position stands there. -/
  placed : ∀ {i : Nat} {m : Method} {q : UInt16}, l.methods[i]? = some m →
    m.dispatch = .virtual q →
      ∃ p, q = UInt16.ofNat p ∧ l.vtable[p]? = some (.own (UInt16.ofNat i))

/-- The vtable that a class with this superclass starts from. -/
def inheritedVtable : Option Class → Array MethodRef
  | some s => s.vtable
  | none => #[]

theorem MethodLayout.overlays_start (t : ClassTable) (superclass : Option Class) :
    (MethodLayout.start superclass false).Overlays t (inheritedVtable superclass) := by
  -- At the start every position is inherited.
  have hvtable : (MethodLayout.start superclass false).vtable =
      (inheritedVtable superclass).map VtableSlot.inherited := by
    cases superclass with
    | none => exact Array.map_empty.symm
    | some s => rfl
  refine ⟨?_, ?_, ?_⟩
  · intro p r hr
    rw [hvtable]
    simp [hr]
  · intro p slot hslot
    rw [hvtable, Array.getElem?_map, Option.map_eq_some_iff] at hslot
    obtain ⟨r, hr, rfl⟩ := hslot
    exact Or.inl ⟨r, rfl, hr⟩
  · intro i m q hm
    simp [MethodLayout.start] at hm

/-- A method goes to a new position, or to one with an inherited method that it
    overrides. The other positions stay. -/
theorem MethodLayout.assign_spec {vtable vtable' : Array VtableSlot} {m : Method} {index : UInt16}
    {slot : Nat} (h : assign t vtable m index = (slot, vtable')) :
    (∀ p : Nat, vtable'[p]? = if p = slot then some (.own index) else vtable[p]?) ∧
    (vtable[slot]? = none ∨
      ∃ r inherited, vtable[slot]? = some (.inherited r) ∧ t.method? r = some inherited ∧
        m.overrides inherited = true) := by
  unfold assign at h
  cases hfound : vtable.findIdx? (takesOver t m) with
  | none =>
    rw [hfound] at h
    cases h
    refine ⟨fun p => Array.getElem?_push, Or.inl ?_⟩
    exact Array.getElem?_eq_none (Nat.le_refl _)
  | some found =>
    rw [hfound] at h
    cases h
    obtain ⟨hlt, htakes, _⟩ := Array.findIdx?_eq_some_iff_getElem.mp hfound
    constructor
    · intro p
      rw [Array.getElem?_setIfInBounds]
      by_cases hp : p = slot
      · subst hp
        simp [hlt]
      · rw [if_neg hp, if_neg (Ne.symm hp)]
    · refine Or.inr ?_
      rw [Array.getElem?_eq_getElem hlt]
      -- A position that is taken over holds an inherited method, never one of the class itself.
      cases hslot : vtable[slot] with
      | own j =>
        rw [hslot] at htakes
        cases htakes
      | inherited r =>
        rw [hslot] at htakes
        unfold takesOver at htakes
        dsimp only at htakes
        cases hr : t.method? r with
        | none =>
          rw [hr] at htakes
          cases htakes
        | some inherited =>
          rw [hr] at htakes
          exact ⟨r, inherited, rfl, hr, htakes⟩

/-- One more method of a class: it has no position, or it is assigned one. -/
theorem MethodLayout.add_class {className : String} {l l' : MethodLayout} {d : MethodDeclaration}
    (h : MethodLayout.add t className false l d = .ok l') :
    ∃ m : Method, l' = ⟨l.methods.push { m with dispatch := .direct }, l.vtable⟩ ∨
      ∃ slot vtable, assign t l.vtable m (UInt16.ofNat l.methods.size) = (slot, vtable) ∧
        l' = ⟨l.methods.push { m with dispatch := .virtual (UInt16.ofNat slot) }, vtable⟩ := by
  unfold MethodLayout.add at h
  split at h
  · cases h
  · rename_i descriptor _
    dsimp only at h
    refine ⟨Method.declared className d descriptor, ?_⟩
    split at h
    · cases h
      exact Or.inl rfl
    · cases h
      exact Or.inr ⟨_, _, rfl, rfl⟩

theorem getElem?_push_of_getElem? {α : Type} {as : Array α} {i : Nat} {a : α}
    (h : as[i]? = some a) (b : α) : (as.push b)[i]? = some a := by
  obtain ⟨hi, ha⟩ := Array.getElem?_eq_some_iff.mp h
  rw [Array.getElem?_push_lt hi, ha]

/-- A method without a position leaves the vtable as it is. -/
theorem MethodLayout.Overlays.push_direct {base : Array MethodRef} {l : MethodLayout}
    (hl : l.Overlays t base) {m : Method} (hm : m.dispatch = .direct) :
    MethodLayout.Overlays ⟨l.methods.push m, l.vtable⟩ t base where
  kept := by
    intro p r hr
    rcases hl.kept hr with hsame | ⟨i, own, inherited, hslot, hown, hinherited, hover⟩
    · exact Or.inl hsame
    · exact Or.inr ⟨i, own, inherited, hslot, getElem?_push_of_getElem? hown _, hinherited, hover⟩
  stored := by
    intro p slot hslot
    rcases hl.stored hslot with hbase | ⟨i, own, hi, hown, hdispatch⟩
    · exact Or.inl hbase
    · exact Or.inr ⟨i, own, hi, getElem?_push_of_getElem? hown _, hdispatch⟩
  placed := by
    intro i own q hown hdispatch
    rw [Array.getElem?_push] at hown
    -- The new method has no position, and the others keep theirs.
    split at hown
    · rw [Option.some.injEq] at hown
      rw [← hown, hm] at hdispatch
      cases hdispatch
    · exact hl.placed hown hdispatch

/-- A method that is assigned a position stands there from now on. -/
theorem MethodLayout.Overlays.push_virtual {base : Array MethodRef} {l : MethodLayout}
    (hl : l.Overlays t base) {m : Method} {slot : Nat} {vtable : Array VtableSlot}
    (hassign : assign t l.vtable m (UInt16.ofNat l.methods.size) = (slot, vtable)) :
    MethodLayout.Overlays
      ⟨l.methods.push { m with dispatch := .virtual (UInt16.ofNat slot) }, vtable⟩ t base := by
  obtain ⟨hentry, hfree⟩ := MethodLayout.assign_spec hassign
  have hnew : (l.methods.push { m with dispatch := .virtual (UInt16.ofNat slot) })[l.methods.size]?
      = some { m with dispatch := .virtual (UInt16.ofNat slot) } := Array.getElem?_push_size
  refine ⟨?_, ?_, ?_⟩
  · intro p r hr
    by_cases hp : p = slot
    · subst hp
      refine Or.inr ?_
      rcases hfree with hnone | ⟨r', inherited, hslot, hinherited, hover⟩
      · -- Inherited positions are not beyond the end of the vtable.
        rcases hl.kept hr with hsome | ⟨_, _, _, hsome, _⟩
        · rw [hnone] at hsome
          cases hsome
        · rw [hnone] at hsome
          cases hsome
      · rcases hl.stored hslot with ⟨r'', hr', hbase⟩ | ⟨_, _, hown, _⟩
        · cases hr'
          rw [hr, Option.some.injEq] at hbase
          subst hbase
          exact ⟨l.methods.size, _, inherited, by rw [hentry, if_pos rfl], hnew, hinherited, hover⟩
        · cases hown
    · rcases hl.kept hr with hsame | ⟨i, own, inherited, hslot, hown, hinherited, hover⟩
      · exact Or.inl (by rw [hentry, if_neg hp]; exact hsame)
      · exact Or.inr ⟨i, own, inherited, by rw [hentry, if_neg hp]; exact hslot,
          getElem?_push_of_getElem? hown _, hinherited, hover⟩
  · intro p entry hp
    rw [hentry] at hp
    split at hp
    · rename_i hpslot
      rw [Option.some.injEq] at hp
      subst hpslot
      exact Or.inr ⟨l.methods.size, _, hp.symm, hnew, rfl⟩
    · rcases hl.stored hp with hbase | ⟨i, own, hi, hown, hdispatch⟩
      · exact Or.inl hbase
      · exact Or.inr ⟨i, own, hi, getElem?_push_of_getElem? hown _, hdispatch⟩
  · intro i own q hown hdispatch
    rw [Array.getElem?_push] at hown
    split at hown
    · rename_i hi
      rw [Option.some.injEq] at hown
      rw [← hown] at hdispatch
      cases hdispatch
      exact ⟨slot, rfl, by rw [hentry, if_pos rfl, hi]⟩
    · obtain ⟨p, hq, hp⟩ := hl.placed hown hdispatch
      -- Positions of the class's own methods are not taken over.
      have hne : p ≠ slot := by
        intro he
        rw [he] at hp
        rcases hfree with hnone | ⟨r', _, hslot, _⟩
        · rw [hnone] at hp
          cases hp
        · rw [hslot] at hp
          cases hp
      exact ⟨p, hq, by rw [hentry, if_neg hne]; exact hp⟩

theorem MethodLayout.overlays_add {className : String} {base : Array MethodRef}
    {l l' : MethodLayout} {d : MethodDeclaration}
    (h : MethodLayout.add t className false l d = .ok l') (hl : l.Overlays t base) :
    l'.Overlays t base := by
  obtain ⟨m, rfl | ⟨slot, vtable, hassign, rfl⟩⟩ := MethodLayout.add_class h
  · exact hl.push_direct rfl
  · exact hl.push_virtual hassign

/-! ## Classes -/

/-- The vtable of a class, over the one that is inherited. -/
structure Class.Overlays (c : Class) (t : ClassTable) (base : Array MethodRef) : Prop where
  kept : ∀ {p : Nat} {r : MethodRef}, base[p]? = some r →
    c.vtable[p]? = some r ∨
      ∃ i m inherited, c.vtable[p]? = some ⟨c.id, UInt16.ofNat i⟩ ∧ c.methods[i]? = some m ∧
        t.method? r = some inherited ∧ m.overrides inherited = true
  stored : ∀ {p : Nat} {r : MethodRef}, c.vtable[p]? = some r →
    base[p]? = some r ∨
      ∃ i m, r = ⟨c.id, UInt16.ofNat i⟩ ∧ c.methods[i]? = some m ∧
        m.dispatch = .virtual (UInt16.ofNat p)
  placed : ∀ {i : Nat} {m : Method} {q : UInt16}, c.methods[i]? = some m →
    m.dispatch = .virtual q →
      ∃ p, q = UInt16.ofNat p ∧ c.vtable[p]? = some ⟨c.id, UInt16.ofNat i⟩

/-- The vtable of the superclass, if there is one. -/
inductive Class.Inherits (c : Class) (t : ClassTable) : Array MethodRef → Prop where
  | root (hroot : c.superclass = none) : c.Inherits t #[]
  | subclass {s : ClassId} {d : Class} (hs : c.superclass = some s) (hd : t.get? s = some d) :
      c.Inherits t d.vtable

theorem Class.Inherits.eq_vtable {base : Array MethodRef} (h : c.Inherits t base) {s : ClassId}
    {d : Class} (hs : c.superclass = some s) (hd : t.get? s = some d) : base = d.vtable := by
  cases h with
  | root hroot =>
    rw [hroot] at hs
    cases hs
  | subclass hs' hd' =>
    rw [hs, Option.some.injEq] at hs'
    subst hs'
    rw [hd, Option.some.injEq] at hd'
    rw [hd']

/-- The vtable of the class is laid over that of its superclass. -/
def Class.Dispatches (c : Class) (t : ClassTable) : Prop :=
  ∃ base, c.Inherits t base ∧ c.Overlays t base

theorem ClassTable.method?_mono (hget : ∀ {i d}, t.get? i = some d → t'.get? i = some d)
    {r : MethodRef} {m : Method} (h : t.method? r = some m) : t'.method? r = some m := by
  obtain ⟨d, hd, hm⟩ := Option.bind_eq_some_iff.mp h
  exact Option.bind_eq_some_iff.mpr ⟨d, hget hd, hm⟩

/-- More classes change nothing about the vtable. -/
theorem Class.Dispatches.mono (h : c.Dispatches t)
    (hget : ∀ {i d}, t.get? i = some d → t'.get? i = some d) : c.Dispatches t' := by
  obtain ⟨base, hinherits, hover⟩ := h
  refine ⟨base, ?_, ?_, hover.stored, hover.placed⟩
  · cases hinherits with
    | root hroot => exact .root hroot
    | subclass hs hd => exact .subclass hs (hget hd)
  · intro p r hr
    rcases hover.kept hr with hsame | ⟨i, m, inherited, hslot, hm, hinherited, ho⟩
    · exact Or.inl hsame
    · exact Or.inr ⟨i, m, inherited, hslot, hm, ClassTable.method?_mono hget hinherited, ho⟩

/-- The entry of a laid out slot in the vtable of the class at the given place. -/
def VtableSlot.entry (id : ClassId) : VtableSlot → MethodRef
  | .inherited r => r
  | .own index => { owner := id, index }

theorem Layout.getElem?_vtable (layout : Layout) (id : ClassId) (classObject : Handle) (p : Nat) :
    (layout.toClass id classObject).vtable[p]? =
      (layout.methods.vtable[p]?).map (VtableSlot.entry id) := by
  have hvtable : (layout.toClass id classObject).vtable =
      layout.methods.vtable.map (VtableSlot.entry id) := by
    refine congrArg (layout.methods.vtable.map ·) (funext fun slot => ?_)
    cases slot <;> rfl
  rw [hvtable, Array.getElem?_map]

theorem Layout.overlays_toClass {layout : Layout} {base : Array MethodRef}
    (h : layout.methods.Overlays t base) (id : ClassId) (classObject : Handle) :
    (layout.toClass id classObject).Overlays t base where
  kept := by
    intro p r hr
    rw [Layout.getElem?_vtable]
    rcases h.kept hr with hsame | ⟨i, m, inherited, hslot, hm, hinherited, ho⟩
    · exact Or.inl (by rw [hsame]; rfl)
    · exact Or.inr ⟨i, m, inherited, by rw [hslot]; rfl, hm, hinherited, ho⟩
  stored := by
    intro p r hr
    rw [Layout.getElem?_vtable, Option.map_eq_some_iff] at hr
    obtain ⟨slot, hslot, rfl⟩ := hr
    rcases h.stored hslot with ⟨r, rfl, hbase⟩ | ⟨i, m, rfl, hm, hdispatch⟩
    · exact Or.inl hbase
    · exact Or.inr ⟨i, m, rfl, hm, hdispatch⟩
  placed := by
    intro i m q hm hdispatch
    obtain ⟨p, hq, hp⟩ := h.placed hm hdispatch
    exact ⟨p, hq, by rw [Layout.getElem?_vtable, hp]; rfl⟩

/-- The vtable of a class that the table admits is laid over that of its superclass. -/
theorem ClassTable.Admits.dispatches (h : t.Admits c)
    (hids : ∀ {i c}, t.get? i = some c → c.id = i) (hclass : c.isInterface = false) :
    c.Dispatches t := by
  cases h with
  | @declared d superclass interfaces layout _ hsuper _ hlaid classObject =>
    obtain ⟨hd, hs, _, _, hmethods⟩ := Layout.ofDeclaration_eq_ok hlaid
    have hinterface : d.access.has Access.interfaceFlag = false := by
      rw [← hd]
      exact hclass
    rw [hinterface] at hmethods
    have hover := foldlM_keeps (P := fun l => l.Overlays t (inheritedVtable superclass))
      MethodLayout.overlays_add hmethods (MethodLayout.overlays_start t superclass)
    refine ⟨inheritedVtable superclass, ?_, Layout.overlays_toClass hover _ _⟩
    cases superclass with
    | none => exact .root (by simp [Layout.toClass, hs])
    | some s =>
      exact .subclass (by simp [Layout.toClass, hs]) (ClassTable.get?_id hids (hsuper s rfl).1)
  | primitive p _ classObject =>
    refine ⟨#[], .root rfl, ?_, ?_, ?_⟩
    · intro p r hr; simp at hr
    · intro p r hr; simp [Class.ofPrimitive] at hr
    · intro i m q hm; simp [Class.ofPrimitive] at hm
  | @array name component object _ _ _ _ _ hobject _ _ classObject =>
    -- An array class has the vtable of the root and declares no methods.
    have hget := ClassTable.get?_id hids (ClassTable.mem_of_find? hobject)
    refine ⟨object.vtable, .subclass rfl hget, Or.inl, Or.inl, ?_⟩
    intro i m q hm
    simp [Class.ofArray] at hm

/-! ## Machines -/

/-- The vtables of all classes are laid over those of their superclasses. -/
def ClassTable.Dispatches (t : ClassTable) : Prop :=
  ∀ i c, t.get? i = some c → c.isInterface = false → c.Dispatches t

theorem Change.dispatches {rule : Discipline} {m m' : Machine} (h : Change rule m m')
    (hsound : m.Sound) (hm : m.classes.Dispatches) : m'.classes.Dispatches := by
  rcases h.classes_cases with he | ⟨d, hadmits, he⟩
  · rw [he]
    exact hm
  · rw [he]
    intro i c hc hclass
    have hgrows : ∀ {i c}, m.classes.get? i = some c → (m.classes.push d).get? i = some c :=
      fun hget => ClassTable.get?_push_of_get? hget d
    rcases ClassTable.get?_push hc with hold | ⟨rfl, rfl⟩
    · exact (hm i c hold hclass).mono hgrows
    · exact (hadmits.dispatches hsound.ids hclass).mono hgrows

theorem Machine.Reachable.dispatches {rule : Discipline} {m : Machine} (h : m.Reachable rule) :
    m.classes.Dispatches := by
  refine h.of_changes (P := fun m => m.classes.Dispatches) ?_ Change.dispatches
  intro config i c hc
  simp [Machine.bare, ClassTable.empty, ClassTable.get?] at hc

/-! ## Agreement with searches -/

/-- Positions of vtables and places of methods fit 16 bits. -/
structure ClassTable.Narrow (t : ClassTable) : Prop where
  vtables : ∀ c ∈ t.classes, c.vtable.size ≤ 65536
  methods : ∀ c ∈ t.classes, c.methods.size ≤ 65536

/-- A method with a position is an instance method of a class that subclasses see. -/
theorem Method.Dispatched.of_virtual {m : Method} {isInterface : Bool}
    (h : m.Dispatched isInterface) {q : UInt16} (hq : m.dispatch = .virtual q) :
    (m.isStatic = false ∧ m.isPrivate = false ∧ m.isInitializer = false) ∧
      isInterface = false := by
  unfold Method.Dispatched Method.isDirect at h
  rw [hq] at h
  simp only [Bool.or_eq_false_iff] at h
  obtain ⟨⟨⟨hstatic, hprivate⟩, hinitializer⟩, hclass⟩ := h
  exact ⟨⟨hstatic, hprivate, hinitializer⟩, hclass⟩

/-- A declared method is found by its place. -/
theorem ClassTable.Narrow.method? (hnarrow : t.Narrow) (hids : ∀ {i c}, t.get? i = some c → c.id = i)
    {k : ClassId} (hc : t.get? k = some c) {i : Nat} {m : Method} (hm : c.methods[i]? = some m) :
    t.method? ⟨c.id, UInt16.ofNat i⟩ = some m := by
  have hsize := hnarrow.methods c (ClassTable.mem_of_get? hc)
  unfold ClassTable.method? Class.method?
  rw [hids hc, hc, Option.bind_some, toNat_ofNat_of_found hsize hm, hm]

/-- The superclasses of a class are those of its superclass, and that one. -/
theorem ClassTable.Linked.superclasses_eq (h : t.Linked) {k s : ClassId} {d : Class}
    (hc : t.get? k = some c) (hs : c.superclass = some s) (hd : t.get? s = some d) :
    c.superclasses = d.superclasses ++ [s] := by
  rcases (h.fits hc).superclasses with ⟨hroot, _⟩ | ⟨s', d', hs', hd', he⟩
  · rw [hs] at hroot
    cases hroot
  · rw [hs, Option.some.injEq] at hs'
    subst hs'
    rw [hd, Option.some.injEq] at hd'
    rw [hd', he]

/-- The superclass of a class stands before it, and is no interface. -/
theorem ClassTable.Linked.superclass_lt (h : t.Linked) {k s : ClassId} {d : Class}
    (hc : t.get? k = some c) (hs : c.superclass = some s) (hd : t.get? s = some d) :
    s < k ∧ d.isInterface = false := by
  obtain ⟨hlt, d', hd', hordinary⟩ := (h.fits hc).superclass hs
  rw [hd, Option.some.injEq] at hd'
  rw [h.ids hc] at hlt
  exact ⟨hlt, hd' ▸ hordinary.1⟩

theorem ClassTable.declaredMethod?_eq_some {name : String} {descriptor : Option String}
    {r : MethodRef} (h : declaredMethod? c name descriptor = some r) :
    ∃ i m, r = ⟨c.id, UInt16.ofNat i⟩ ∧ c.methods[i]? = some m ∧
      m.isCalled name descriptor = true := by
  unfold ClassTable.declaredMethod? Class.findMethod? at h
  rw [Option.map_map, Option.map_eq_some_iff] at h
  obtain ⟨i, hi, rfl⟩ := h
  obtain ⟨hlt, hcalled, _⟩ := Array.findIdx?_eq_some_iff_getElem.mp hi
  exact ⟨i, _, rfl, Array.getElem?_eq_getElem hlt, hcalled⟩

theorem ClassTable.not_isCalled_of_declaredMethod? {name : String} {descriptor : Option String}
    (h : declaredMethod? c name descriptor = none) {i : Nat} {m : Method}
    (hm : c.methods[i]? = some m) : m.isCalled name descriptor = false := by
  unfold ClassTable.declaredMethod? Class.findMethod? at h
  rw [Option.map_map, Option.map_eq_none_iff, Array.findIdx?_eq_none_iff] at h
  exact h m (Array.mem_of_getElem? hm)

/-- The search through the superclasses goes on from the superclass. -/
theorem ClassTable.superclassMethod?_eq {s : ClassId} {d : Class} {name : String}
    {descriptor : Option String} (hsuper : c.superclasses = d.superclasses ++ [s])
    (hd : t.get? s = some d) :
    t.superclassMethod? c name descriptor =
      (declaredMethod? d name descriptor).or (t.superclassMethod? d name descriptor) := by
  unfold ClassTable.superclassMethod?
  rw [hsuper, List.reverse_append, List.reverse_singleton, List.singleton_append,
    List.findSome?_cons, hd, Option.bind_some]
  cases declaredMethod? d name descriptor <;> rfl

/-- An override is called like the inherited method. -/
theorem Method.isCalled_of_overrides {m inherited : Method} {name : String}
    {descriptor : Option String} (ho : m.overrides inherited = true)
    (hi : inherited.isCalled name descriptor = true) : m.isCalled name descriptor = true := by
  simp only [Method.overrides, Bool.and_eq_true, beq_iff_eq] at ho
  obtain ⟨⟨hname, hdescriptor⟩, _⟩ := ho
  unfold Method.isCalled at hi ⊢
  rw [hname, hdescriptor]
  exact hi

section Agreement

variable (hlinked : t.Linked) (hdispatches : t.Dispatches) (hnarrow : t.Narrow)

include hlinked hdispatches hnarrow

/-- Every position of a vtable holds a method of the class or of a superclass, and it
    is the position of that method. -/
theorem ClassTable.vtable_entry {k : ClassId} (hc : t.get? k = some c)
    (hclass : c.isInterface = false) {p : Nat} {r : MethodRef} (hr : c.vtable[p]? = some r) :
    (r.owner = c.id ∨ r.owner ∈ c.superclasses) ∧
      ∃ m, t.method? r = some m ∧ m.dispatch = .virtual (UInt16.ofNat p) := by
  -- By induction on the place: what is inherited stands in the vtable of the superclass.
  induction k using Nat.strongRecOn generalizing c with
  | ind k ih =>
    obtain ⟨base, hinherits, hover⟩ := hdispatches k c hc hclass
    rcases hover.stored hr with hbase | ⟨i, m, rfl, hm, hdispatch⟩
    · cases hinherits with
      | root => simp at hbase
      | @subclass s d hs hd =>
        obtain ⟨hlt, hclass'⟩ := hlinked.superclass_lt hc hs hd
        obtain ⟨howner, hmethod⟩ := ih s hlt hd hclass' hbase
        refine ⟨Or.inr ?_, hmethod⟩
        rw [hlinked.superclasses_eq hc hs hd, List.mem_append, List.mem_singleton,
          ← hlinked.ids hd]
        exact howner.symm
    · exact ⟨Or.inl rfl, m, hnarrow.method? hlinked.ids hc hm, hdispatch⟩

/-- The vtable of the superclass is kept, up to methods of the class that are named and
    typed alike. -/
theorem ClassTable.vtable_inherited {k : ClassId} (hc : t.get? k = some c)
    (hclass : c.isInterface = false) {s : ClassId} {d : Class} (hs : c.superclass = some s)
    (hd : t.get? s = some d) {p : Nat} {r : MethodRef} (hr : d.vtable[p]? = some r) :
    c.vtable[p]? = some r ∨
      ∃ r' m overridden, c.vtable[p]? = some r' ∧ r'.owner = c.id ∧ t.method? r' = some m ∧
        t.method? r = some overridden ∧ m.name = overridden.name ∧
        m.descriptor = overridden.descriptor := by
  obtain ⟨base, hinherits, hover⟩ := hdispatches k c hc hclass
  rw [← hinherits.eq_vtable hs hd] at hr
  rcases hover.kept hr with hsame | ⟨i, m, overridden, hslot, hm, hoverridden, ho⟩
  · exact Or.inl hsame
  · simp only [Method.overrides, Bool.and_eq_true, beq_iff_eq] at ho
    have hmethod := hnarrow.method? hlinked.ids hc hm
    exact Or.inr ⟨_, m, overridden, hslot, rfl, hmethod, hoverridden, ho.1.1, ho.1.2⟩

/-- A virtual method that the class or the nearest superclass declares stands at its
    position in the vtable of the class. -/
theorem ClassTable.vtable_of_chain {k : ClassId} (hc : t.get? k = some c)
    (hclass : c.isInterface = false) {name : String} {descriptor : Option String} {r : MethodRef}
    (hfound : (declaredMethod? c name descriptor).or (t.superclassMethod? c name descriptor) =
      some r)
    {m : Method} {q : UInt16} (hm : t.method? r = some m) (hq : m.dispatch = .virtual q) :
    m.isCalled name descriptor = true ∧ c.vtable[q.toNat]? = some r := by
  induction k using Nat.strongRecOn generalizing c with
  | ind k ih =>
    obtain ⟨base, hinherits, hover⟩ := hdispatches k c hc hclass
    cases hdeclared : declaredMethod? c name descriptor with
    | some r' =>
      rw [hdeclared] at hfound
      cases hfound
      obtain ⟨i, m', rfl, hm', hcalled⟩ := ClassTable.declaredMethod?_eq_some hdeclared
      rw [hnarrow.method? hlinked.ids hc hm', Option.some.injEq] at hm
      subst hm
      obtain ⟨p, rfl, hp⟩ := hover.placed hm' hq
      have hsize := hnarrow.vtables c (ClassTable.mem_of_get? hc)
      exact ⟨hcalled, by rw [toNat_ofNat_of_found hsize hp]; exact hp⟩
    | none =>
      rw [hdeclared, Option.none_or] at hfound
      cases hinherits with
      | root hroot =>
        rcases (hlinked.fits hc).superclasses with ⟨_, hempty⟩ | ⟨s, _, hs, _⟩
        · unfold ClassTable.superclassMethod? at hfound
          rw [hempty] at hfound
          cases hfound
        · rw [hroot] at hs
          cases hs
      | @subclass s d hs hd =>
        rw [ClassTable.superclassMethod?_eq (hlinked.superclasses_eq hc hs hd) hd] at hfound
        obtain ⟨hlt, hclass'⟩ := hlinked.superclass_lt hc hs hd
        obtain ⟨hcalled, hbase⟩ := ih s hlt hd hclass' hfound
        refine ⟨hcalled, ?_⟩
        rcases hover.kept hbase with hsame | ⟨i, own, inherited, _, hown, hinherited, ho⟩
        · exact hsame
        · -- An override would have been found in the class itself.
          rw [hm, Option.some.injEq] at hinherited
          subst hinherited
          have hother := ClassTable.not_isCalled_of_declaredMethod? hdeclared hown
          rw [Method.isCalled_of_overrides ho hcalled] at hother
          cases hother

end Agreement

/-- The chosen method is one of those to choose from. -/
theorem ClassTable.chooseMethod_mem {detectConflicts : Bool} {name : String}
    {methods : List MethodRef} {r : MethodRef}
    (h : t.chooseMethod detectConflicts name methods = .ok (some r)) : r ∈ methods := by
  -- What is chosen among the concrete methods is one of all of them.
  have hconcrete : ∀ {first rest}, methods.filter t.isConcrete = first :: rest →
      first ∈ methods := by
    intro first rest hfilter
    have hmem : first ∈ methods.filter t.isConcrete := by
      rw [hfilter]
      exact List.mem_cons_self
    exact (List.mem_filter.mp hmem).1
  unfold ClassTable.chooseMethod at h
  split at h
  · rw [Except.ok.injEq] at h
    exact List.mem_of_head? h
  · rename_i first hfilter
    rw [Except.ok.injEq, Option.some.injEq] at h
    exact h ▸ hconcrete hfilter
  · rename_i first second rest hfilter
    split at h
    · cases h
    · rw [Except.ok.injEq, Option.some.injEq] at h
      exact h ▸ hconcrete hfilter

/-- The methods that interfaces offer are not virtual. -/
theorem ClassTable.not_virtual_of_interfaceMethods (hlinked : t.Linked)
    (hlaid : ∀ {c}, c ∈ t.classes → c.Laid) {k : ClassId} (hc : t.get? k = some c) {name : String}
    {descriptor : Option String} {r : MethodRef}
    (hr : r ∈ t.interfaceMethods c name descriptor) {m : Method} (hm : t.method? r = some m)
    (q : UInt16) : m.dispatch ≠ .virtual q := by
  obtain ⟨id, hid, hoffer⟩ := List.mem_filterMap.mp hr
  obtain ⟨i, hi, hoffered⟩ := Option.bind_eq_some_iff.mp hoffer
  -- The owner of the method is an interface.
  obtain ⟨⟨i', hi', hinterface⟩, _⟩ := (hlinked.mem_itable hc).mp hid
  rw [hi, Option.some.injEq] at hi'
  subst hi'
  have howner : r.owner = id := by
    unfold ClassTable.offeredMethod? at hoffered
    split at hoffered
    · rename_i r' hdeclared
      obtain ⟨_, _, hr', _⟩ := ClassTable.declaredMethod?_eq_some hdeclared
      split at hoffered
      · split at hoffered
        · cases hoffered
        · rw [Option.some.injEq] at hoffered
          rw [← hoffered, hr', hlinked.ids hi]
      · cases hoffered
    · cases hoffered
  obtain ⟨i', hi', hmethod⟩ := Option.bind_eq_some_iff.mp hm
  rw [howner, hi, Option.some.injEq] at hi'
  subst hi'
  have hdispatched := (hlaid (ClassTable.mem_of_get? hi)).methods m (Array.mem_of_getElem? hmethod)
  intro hq
  rw [hinterface] at hdispatched
  cases (hdispatched.of_virtual hq).2

/-- The vtable holds what a search finds, at its position. -/
theorem ClassTable.vtable_of_search (hlinked : t.Linked) (hdispatches : t.Dispatches)
    (hlaid : ∀ {c}, c ∈ t.classes → c.Laid) (hnarrow : t.Narrow) {k : ClassId}
    (hc : t.get? k = some c) (hclass : c.isInterface = false) {name : String}
    {signature : Option String} {options : LookupOptions} {r : MethodRef} {m : Method}
    {q : UInt16} (hsearch : t.searchMethod c name signature options = .ok (some r))
    (hm : t.method? r = some m) (hq : m.dispatch = .virtual q) : c.vtable[q.toNat]? = some r := by
  unfold ClassTable.searchMethod at hsearch
  dsimp only at hsearch
  generalize (if options.partialSignature then none else signature) = descriptor at hsearch
  -- A method of the class or of a superclass is found along the chain, where the vtable holds it.
  have hchain : (declaredMethod? c name descriptor).or (t.superclassMethod? c name descriptor) =
      some r → c.vtable[q.toNat]? = some r :=
    fun hfound => (ClassTable.vtable_of_chain hlinked hdispatches hnarrow hc hclass hfound hm hq).2
  cases hdeclared : declaredMethod? c name descriptor with
  | some r' =>
    rw [hdeclared] at hsearch
    cases hsearch
    exact hchain (by rw [hdeclared]; rfl)
  | none =>
    rw [hdeclared] at hsearch
    dsimp only at hsearch
    split at hsearch
    · cases hsearch
    · cases hsuper : t.superclassMethod? c name descriptor with
      | some r' =>
        rw [hsuper] at hsearch
        cases hsearch
        exact hchain (by rw [hdeclared, hsuper]; rfl)
      | none =>
        rw [hsuper] at hsearch
        dsimp only at hsearch
        -- What only an interface offers has no vtable position at all.
        have hmem := ClassTable.chooseMethod_mem hsearch
        have hr : r ∈ t.interfaceMethods c name descriptor := (List.mem_filter.mp hmem).1
        exact absurd hq (ClassTable.not_virtual_of_interfaceMethods hlinked hlaid hc hr hm q)

/-- The vtable of a class agrees with the hierarchy and with searches from the class. -/
structure Machine.VtableAgrees (m : Machine) (c : Class) : Prop where
  /-- The vtable extends that of the superclass, where methods of the class itself may
      stand in for methods of the same name and descriptor. -/
  inherited : ∀ {s : ClassId} {d : Class} {p : Nat} {r : MethodRef},
    c.superclass = some s → m.classes.get? s = some d →
    d.vtable[p]? = some r → c.vtable[p]? = some r ∨
      ∃ r' method overridden, c.vtable[p]? = some r' ∧ r'.owner = c.id ∧
        m.classes.method? r' = some method ∧ m.classes.method? r = some overridden ∧
        method.name = overridden.name ∧ method.descriptor = overridden.descriptor
  /-- A position holds a method that is called virtually at that position. -/
  entry : ∀ {p : Nat} {r : MethodRef}, c.vtable[p]? = some r →
    (r.owner = c.id ∨ r.owner ∈ c.superclasses) ∧
    ∃ method i, m.classes.method? r = some method ∧ method.isStatic = false ∧
      method.isPrivate = false ∧ method.isInitializer = false ∧
      method.dispatch = .virtual i ∧ i.toNat = p
  /-- What a search finds is what a virtual call reaches. -/
  search : ∀ {name : String} {signature : Option String} {options : LookupOptions}
    {r : MethodRef} {method : Method} {i : UInt16},
    m.classes.searchMethod c name signature options = .ok (some r) →
    m.classes.method? r = some method → method.dispatch = .virtual i →
    c.vtable[i.toNat]? = some r

/-- In every reachable machine whose vtables and method lists fit 16 bits, the vtable of
    every class that is no interface agrees with searches. -/
theorem vtable_agrees_with_search {rule : Discipline} {m : Machine} (h : m.Reachable rule)
    (hnarrow : m.classes.Narrow) {c : Class} (hc : c ∈ m.classes.classes)
    (hclass : c.isInterface = false) : m.VtableAgrees c := by
  have hlinked := h.started.toLinked
  have hdispatches := h.dispatches
  have hsound := h.sound
  have hget := ClassTable.get?_id hlinked.ids hc
  refine ⟨?_, ?_, ?_⟩
  · intro s d p r hs hd hr
    exact ClassTable.vtable_inherited hlinked hdispatches hnarrow hget hclass hs hd hr
  · intro p r hr
    obtain ⟨howner, method, hmethod, hdispatch⟩ :=
      ClassTable.vtable_entry hlinked hdispatches hnarrow hget hclass hr
    -- The method is declared by the class that its reference names, and that class is laid out.
    obtain ⟨d, hd, hdeclared⟩ := Option.bind_eq_some_iff.mp hmethod
    have hdispatched := (hsound.laid (ClassTable.mem_of_get? hd)).methods method
      (Array.mem_of_getElem? hdeclared)
    obtain ⟨⟨hstatic, hprivate, hinitializer⟩, _⟩ := hdispatched.of_virtual hdispatch
    have hposition := toNat_ofNat_of_found (hnarrow.vtables c hc) hr
    exact ⟨howner, method, _, hmethod, hstatic, hprivate, hinitializer, hdispatch, hposition⟩
  · intro name signature options r method i hsearch hmethod hdispatch
    exact ClassTable.vtable_of_search hlinked hdispatches hsound.laid hnarrow hget hclass hsearch
      hmethod hdispatch

namespace Sample

/-- A class with a method that it declares twice, and a class below it that declares the
    method again, and once more as a static one. -/
def shapes : List ((α : Type) × Operation α) :=
  [⟨_, .defineClass
      { ClassDeclaration.plain "Shape" with
        methods :=
          [{ access := Access.publicFlag, name := "area", descriptor := "()I" },
           { access := Access.publicFlag, name := "area", descriptor := "()I" }] }⟩,
   ⟨_, .defineClass
      { ClassDeclaration.plain "Square" with
        superclass := some "Shape"
        methods :=
          [{ access := Access.publicFlag, name := "area", descriptor := "()I" },
           { access := Access.publicFlag ||| Access.staticFlag, name := "area",
             descriptor := "(I)I" }] }⟩]

/-- No class files and no bootstrap methods. -/
def bare : Environment := ⟨⟨[]⟩, none⟩

/-- The class `Square` has taken over the position of the first method. There are no
    classes `Left` and `Right`. -/
abbrev ShapesFacts (m : Machine) : Prop :=
  (∀ c ∈ (m.perform bare shapes).classes.classes.toList,
    c.vtable.size ≤ 65536 ∧ c.methods.size ≤ 65536) ∧
  ((m.perform bare shapes).classes.get? 34).map (fun c => (c.isInterface, c.vtable.toList.drop 4)) =
    some (false, [⟨34, 0⟩, ⟨33, 1⟩]) ∧
  ∀ name ∈ ["Left", "pkg.Right", "pkg/Right"],
    ((m.perform bare shapes).classes.find? name).isNone = true

set_option maxRecDepth 100000 in
theorem shapes_succeed : Succeeds (Machine.start bare {}) ShapesFacts := by
  decide +kernel

/-- The discipline is the one that allows everything. -/
theorem reachable_shapes {m : Machine} (hstart : Machine.start bare {} = .ok m) :
    (m.perform bare shapes).Reachable (fun _ {_} _ => True) :=
  ⟨bare, {}, m, hstart, Run.perform (fun _ h => by cases h) (fun _ _ _ => trivial) m⟩

end Sample

theorem square_vtable_agrees :
    ∃ (m : Machine) (c : Class), m.Reachable (fun _ {_} _ => True) ∧ m.classes.Narrow ∧
      c ∈ m.classes.classes ∧ c.isInterface = false ∧
      c.vtable.toList.drop 4 = [⟨34, 0⟩, ⟨33, 1⟩] ∧ m.VtableAgrees c := by
  obtain ⟨m₀, hstart, hsizes, hsquare, _⟩ := Sample.shapes_succeed
  obtain ⟨c, hc, hparts⟩ := Option.map_eq_some_iff.mp hsquare
  rw [Prod.mk.injEq] at hparts
  have hreachable := Sample.reachable_shapes hstart
  have hnarrow : (m₀.perform Sample.bare Sample.shapes).classes.Narrow :=
    ⟨fun c hc => (hsizes c hc.val).1, fun c hc => (hsizes c hc.val).2⟩
  have hmem := ClassTable.mem_of_get? hc
  exact ⟨_, c, hreachable, hnarrow, hmem, hparts.1, hparts.2,
    vtable_agrees_with_search hreachable hnarrow hmem hparts.1⟩

end Linkage
