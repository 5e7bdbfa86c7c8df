import Linkage.Proofs.ClassOrigins
import Linkage.Proofs.MethodHandles
import Linkage.Proofs.SpecificMethods

/-! # Reported dispatch indices

    For a member name that stands for a virtual method, the machine reports a position in
    the vtable of the class that declares the method. The position is kept in 16 bits with
    the method, so what is reported is the position modulo 65536.

    * `MethodLayout.Seated`: while a class is laid out, each of its methods has one
      position at most; `Class.Seated` is what this comes to for the class.
    * `Machine.Reachable.exists_position`: the position of a virtual method.
    * `Machine.Informs`: the array in which the position is reported. -/

namespace Linkage

open Link

variable {t : ClassTable} {c : Class}

/-! ## Positions -/

/-- The vtable under construction, over the one that is inherited: a method of the class
    has one position, as long as the places of methods fit 16 bits. -/
structure MethodLayout.Seated (l : MethodLayout) (base : Array MethodRef) : Prop where
  inherited : ∀ {p : Nat} {r : MethodRef}, l.vtable[p]? = some (.inherited r) →
    base[p]? = some r
  declared : l.methods.size ≤ 65536 → ∀ {p : Nat} {i : UInt16},
    l.vtable[p]? = some (.own i) → i.toNat < l.methods.size
  once : l.methods.size ≤ 65536 → ∀ {p p' : Nat} {i : UInt16},
    l.vtable[p]? = some (.own i) → l.vtable[p']? = some (.own i) → p = p'

theorem MethodLayout.seated_start (superclass : Option Class) (isInterface : Bool) :
    (MethodLayout.start superclass isInterface).Seated (inheritedVtable superclass) := by
  -- A class starts with the vtable of its superclass, and an interface with none.
  have hslots : ∀ {p : Nat} {slot : VtableSlot},
      (MethodLayout.start superclass isInterface).vtable[p]? = some slot →
        ∃ r, slot = .inherited r ∧ (inheritedVtable superclass)[p]? = some r := by
    intro p slot hslot
    cases superclass with
    | none => simp [MethodLayout.start] at hslot
    | some s =>
      cases isInterface with
      | true => simp [MethodLayout.start] at hslot
      | false =>
        simp only [MethodLayout.start, Bool.false_eq_true, if_false, Array.getElem?_map,
          Option.map_eq_some_iff] at hslot
        obtain ⟨r, hr, rfl⟩ := hslot
        exact ⟨r, rfl, hr⟩
  refine ⟨?_, ?_, ?_⟩
  · intro p r hr
    obtain ⟨r', he, hbase⟩ := hslots hr
    cases he
    exact hbase
  · intro _ p i hi
    obtain ⟨r, he, _⟩ := hslots hi
    cases he
  · intro _ p p' i hi
    obtain ⟨r, he, _⟩ := hslots hi
    cases he

/-- One more method: the vtable stays, or the method is assigned a position. -/
theorem MethodLayout.add_vtable {className : String} {isInterface : Bool} {l l' : MethodLayout}
    {d : MethodDeclaration} (h : MethodLayout.add t className isInterface l d = .ok l') :
    l'.methods.size = l.methods.size + 1 ∧
      (l'.vtable = l.vtable ∨
        ∃ m slot, assign t l.vtable m (UInt16.ofNat l.methods.size) = (slot, l'.vtable)) := by
  unfold MethodLayout.add at h
  split at h
  · cases h
  · dsimp only at h
    split at h
    · cases h
      exact ⟨Array.size_push _, Or.inl rfl⟩
    · split at h
      · cases h
        exact ⟨Array.size_push _, Or.inl rfl⟩
      · cases h
        exact ⟨Array.size_push _, Or.inr ⟨_, _, rfl⟩⟩

theorem MethodLayout.seated_add {className : String} {isInterface : Bool} {base : Array MethodRef}
    {l l' : MethodLayout} {d : MethodDeclaration}
    (h : MethodLayout.add t className isInterface l d = .ok l') (hl : l.Seated base) :
    l'.Seated base := by
  obtain ⟨hsize, hsame | ⟨m, slot, hassign⟩⟩ := MethodLayout.add_vtable h
  · refine ⟨?_, ?_, ?_⟩
    · rw [hsame]
      exact hl.inherited
    · intro hfit p i hi
      rw [hsame] at hi
      have hlt := hl.declared (by omega) hi
      omega
    · intro hfit
      rw [hsame]
      exact hl.once (by omega)
  · obtain ⟨hentry, -⟩ := MethodLayout.assign_spec hassign
    -- The new method has a place that none of the others has.
    have hplace : l'.methods.size ≤ 65536 →
        (UInt16.ofNat l.methods.size).toNat = l.methods.size := by
      intro hfit
      have hlt : l.methods.size < 65536 := by omega
      exact UInt16.toNat_ofNat_of_lt hlt
    have hnew : l'.methods.size ≤ 65536 → ∀ {p : Nat}, p ≠ slot →
        l'.vtable[p]? ≠ some (.own (UInt16.ofNat l.methods.size)) := by
      intro hfit p hp hown
      rw [hentry, if_neg hp] at hown
      have hlt := hl.declared (by omega) hown
      rw [hplace hfit] at hlt
      exact Nat.lt_irrefl _ hlt
    refine ⟨?_, ?_, ?_⟩
    · intro p r hr
      rw [hentry] at hr
      split at hr
      · cases hr
      · exact hl.inherited hr
    · intro hfit p i hi
      rw [hentry] at hi
      split at hi
      · cases hi
        rw [hplace hfit]
        omega
      · have hlt := hl.declared (by omega) hi
        omega
    · intro hfit p p' i hi hi'
      by_cases hp : p = slot
      · by_cases hp' : p' = slot
        · rw [hp, hp']
        · rw [hentry, if_pos hp] at hi
          cases hi
          exact absurd hi' (hnew hfit hp')
      · by_cases hp' : p' = slot
        · rw [hentry p', if_pos hp'] at hi'
          cases hi'
          exact absurd hi (hnew hfit hp)
        · rw [hentry, if_neg hp] at hi
          rw [hentry, if_neg hp'] at hi'
          exact hl.once (by omega) hi hi'

/-- The vtable holds methods of the class, one position for each, and of classes before
    it. -/
structure Class.Seated (c : Class) : Prop where
  behind : ∀ {p : Nat} {r : MethodRef}, c.vtable[p]? = some r → r.owner ≤ c.id
  once : c.methods.size ≤ 65536 → ∀ {p p' : Nat} {i : UInt16},
    c.vtable[p]? = some ⟨c.id, i⟩ → c.vtable[p']? = some ⟨c.id, i⟩ → p = p'

theorem Layout.seated_toClass {layout : Layout} {base : Array MethodRef}
    (h : layout.methods.Seated base) {id : ClassId}
    (hbase : ∀ {p : Nat} {r : MethodRef}, base[p]? = some r → r.owner < id)
    (classObject : Handle) : (layout.toClass id classObject).Seated := by
  -- Inherited methods have other owners, so a position of the class is one of its own.
  have hown : ∀ {p : Nat} {i : UInt16},
      (layout.toClass id classObject).vtable[p]? = some ⟨id, i⟩ →
        layout.methods.vtable[p]? = some (.own i) := by
    intro p i hp
    rw [Layout.getElem?_vtable, Option.map_eq_some_iff] at hp
    obtain ⟨slot, hslot, hentry⟩ := hp
    cases slot with
    | own j =>
      cases hentry
      exact hslot
    | inherited r =>
      have hlt := hbase (h.inherited hslot)
      have hr : r = ⟨id, i⟩ := hentry
      rw [hr] at hlt
      exact absurd hlt (Nat.lt_irrefl _)
  refine ⟨?_, ?_⟩
  · intro p r hp
    rw [Layout.getElem?_vtable, Option.map_eq_some_iff] at hp
    obtain ⟨slot, hslot, rfl⟩ := hp
    cases slot with
    | own j => exact Nat.le_refl _
    | inherited r => exact Nat.le_of_lt (hbase (h.inherited hslot))
  · intro hfit p p' i hp hp'
    exact h.once hfit (hown hp) (hown hp')

/-- The vtable of a class that the table admits. -/
theorem ClassTable.Admits.seated (h : t.Admits c)
    (hids : ∀ {i c}, t.get? i = some c → c.id = i) (ht : ∀ c ∈ t.classes, c.Seated) :
    c.Seated := by
  -- What a class of the table has in its vtable is of classes before the new one.
  have hbefore : ∀ {s : Class}, s ∈ t.classes → ∀ {p : Nat} {r : MethodRef},
      s.vtable[p]? = some r → r.owner < t.size := by
    intro s hs p r hr
    have hlt : s.id < t.size := ClassTable.lt_size_of_get? (ClassTable.get?_id hids hs)
    exact Nat.lt_of_le_of_lt ((ht s hs).behind hr) hlt
  cases h with
  | @declared d superclass interfaces layout _ hsuper _ hlaid classObject =>
    obtain ⟨_, _, _, _, hmethods⟩ := Layout.ofDeclaration_eq_ok hlaid
    have hseated := foldlM_keeps (P := fun l => l.Seated (inheritedVtable superclass))
      MethodLayout.seated_add hmethods (MethodLayout.seated_start superclass _)
    refine Layout.seated_toClass hseated ?_ classObject
    intro p r hr
    cases superclass with
    | none => simp [inheritedVtable] at hr
    | some s => exact hbefore (hsuper s rfl).1 hr
  | primitive p _ classObject =>
    refine ⟨?_, ?_⟩
    · intro p r hr
      simp [Class.ofPrimitive] at hr
    · intro _ p p' i hp
      simp [Class.ofPrimitive] at hp
  | @array _ _ object _ _ _ _ _ hobject _ _ classObject =>
    have hmem := ClassTable.mem_of_find? hobject
    refine ⟨fun hr => Nat.le_of_lt (hbefore hmem hr), ?_⟩
    intro _ p p' i hp
    exact absurd (hbefore hmem hp) (Nat.lt_irrefl _)

theorem Machine.Reachable.seated {rule : Discipline} {m : Machine} (h : m.Reachable rule) :
    ∀ c ∈ m.classes.classes, c.Seated :=
  h.forall_classes ClassTable.Admits.seated

/-- A virtual method has a position in the vtable of its class, and its dispatch index is
    the position modulo 65536. It is the only position if the places of the methods of the
    class fit 16 bits. -/
theorem Machine.Reachable.exists_position {rule : Discipline} {m : Machine}
    (h : m.Reachable rule) {r : MethodRef} {method : Method} {q : UInt16}
    (hmethod : m.classes.method? r = some method) (hq : method.dispatch = .virtual q) :
    ∃ c p, m.classes.get? r.owner = some c ∧ c.vtable[p]? = some r ∧ q.toNat = p % 65536 ∧
      (c.methods.size ≤ 65536 → ∀ p', c.vtable[p']? = some r → p' = p) := by
  obtain ⟨c, hc, hplace⟩ := Option.bind_eq_some_iff.mp hmethod
  have hmem := ClassTable.mem_of_get? hc
  have hid : c.id = r.owner := h.sound.ids hc
  have hdispatched := (h.sound.laid hmem).methods method (Array.mem_of_getElem? hplace)
  obtain ⟨base, _, hover⟩ := h.dispatches _ c hc (hdispatched.of_virtual hq).2
  obtain ⟨p, rfl, hp⟩ := hover.placed hplace hq
  rw [UInt16.ofNat_toNat] at hp
  have hr : (⟨c.id, r.index⟩ : MethodRef) = r := by rw [hid]
  refine ⟨c, p, hc, hr ▸ hp, UInt16.toNat_ofNat', ?_⟩
  intro hfit p' hp'
  rw [← hr] at hp'
  exact (h.seated c hmem).once hfit hp' hp

/-! ## Reports -/

/-- The array `info` reports the index, and the member name that it is about. -/
def Machine.Informs (m : Machine) (info : Handle) (index : Int64) (mn : Handle) : Prop :=
  ∃ component position,
    m.heap.read info = .ok (.array { component, elements := #[some position, some mn] }) ∧
      m.heap.read position = .ok (.long index)

section Reports

variable {m : Machine} {mn : Handle} {n : MemberName}

/-- The index of a method is its dispatch index. -/
theorem vmInfo_of_method (mn : Handle) {r : MethodRef} {method : Method}
    (hmember : m.members.get? n.vmindex = some (.method r))
    (hmethod : m.classes.method? r = some method) :
    vmInfo mn n m = (.ok (method.dispatch.position, some mn), m) := by
  have hresolved : n.vmindex ≠ 0 := by
    intro hzero
    rw [hzero] at hmember
    cases hmember
  obtain ⟨c, hc, hplace⟩ := Option.bind_eq_some_iff.mp hmethod
  unfold vmInfo
  rw [if_neg (by simpa using hresolved), bind_of_ok (member?_run _ m), hmember]
  dsimp only
  rw [bind_of_ok (classAt_of_get? hc), hplace]
  rfl

/-- A report is made, or there is no room for its two objects. -/
theorem memberVMInfo_run {c : Class} {index : Int64} (hm : m.Sound)
    (hobject : m.classes.find? ClassDeclaration.objectName = some c)
    (hread : m.heap.read mn = .ok (.memberName n))
    (hinfo : vmInfo mn n m = (.ok (index, some mn), m)) :
    (∃ info m', memberVMInfo mn m = (.ok info, m') ∧ m'.Informs info index mn) ∨
    (m.heap.config.capacity < m.heap.live + 2 ∧
      ∃ m', memberVMInfo mn m = (.error (.thrown .outOfMemory), m')) := by
  have hcore : coreClass ClassDeclaration.objectName m = (.ok c, m) := by
    unfold coreClass
    rw [bind_of_ok (findClass_run _ m), hobject]
    rfl
  unfold memberVMInfo
  rw [bind_of_ok (readMemberName_of_read hread), bind_of_ok hinfo]
  dsimp only
  rw [bind_of_ok hcore]
  unfold newArray
  rcases allocate_outcome hm.heap (.array { component := c.id, elements := .replicate 2 none })
    with ⟨hfull, m', hfails⟩ | ⟨info, heap, harray, hw, hcapacity, hlive, hempty⟩
  · refine Or.inr ⟨?_, m', bind_of_error hfails _⟩
    omega
  rw [bind_of_ok harray]
  rcases allocate_outcome (m := { m with heap }) hw (.long index)
    with ⟨hfull, m', hfails⟩ | ⟨position, heap', hlong, hw', _, _, hindex⟩
  · refine Or.inr ⟨?_, m', bind_of_error hfails _⟩
    dsimp only at hfull
    omega
  rw [bind_of_ok hlong]
  have hempty' := read_of_allocate (m := { m with heap }) hw hempty hlong
  obtain ⟨heap'', hupdate, hset, hothers⟩ := update_of_read (m := { m with heap := heap' }) hw'
    hempty' (fun a => (a.setElement 0 (some position)).setElement 1 (some mn))
  -- An array is no number, so the index is not overwritten.
  have hne : position ≠ info := by
    rintro rfl
    rw [hindex] at hempty'
    cases hempty'
  refine Or.inl ⟨info, { m with heap := heap'' }, ?_, c.id, position, hset, ?_⟩
  · rw [bind_of_ok hupdate]
    rfl
  · exact hothers position _ hne hindex

end Reports

/-- In every reachable machine with classes from class files or from the start, a member
    name that stands for a virtual method is reported with the position of exactly that
    method in the vtable of its class, modulo 65536. So what is reported is the position
    if and only if that is below 65536. The report is made unless the heap is full. -/
theorem memberVMInfo_reports_position {rule : Discipline} {m : Machine} (h : m.Reachable rule)
    (horiginal : m.Original) {mn : Handle} {n : MemberName} {r : MethodRef} {method : Method}
    {q : UInt16} (hread : m.heap.read mn = .ok (.memberName n))
    (hmember : m.members.get? n.vmindex = some (.method r))
    (hmethod : m.classes.method? r = some method) (hq : method.dispatch = .virtual q) :
    ∃ c p, m.classes.get? r.owner = some c ∧ c.vtable[p]? = some r ∧
      (∀ p', c.vtable[p']? = some r → p' = p) ∧
      ((∃ info m', memberVMInfo mn m = (.ok info, m') ∧
          m'.Informs info (Int64.ofNat (p % 65536)) mn) ∨
        (m.heap.config.capacity < m.heap.live + 2 ∧
          ∃ m', memberVMInfo mn m = (.error (.thrown .outOfMemory), m'))) ∧
      (c.vtable[p % 65536]? = some r ↔ p < 65536) := by
  obtain ⟨c, p, hc, hp, hindex, honce⟩ := h.exists_position hmethod hq
  -- Classes of files have at most 65535 methods, which is what makes the position unique.
  have hsize := (horiginal c (ClassTable.mem_of_get? hc)).size_methods
  have hunique := honce (by omega)
  obtain ⟨object, hobject, _⟩ := (ClassTable.core_of_hasDeclared h.started.declared).object
  have hinfo := vmInfo_of_method mn hmember hmethod
  rw [hq, Dispatch.position, hindex] at hinfo
  refine ⟨c, p, hc, hp, hunique, memberVMInfo_run h.sound hobject hread hinfo, ?_⟩
  constructor
  · -- The remainder is a position of the method only if it is the one position that there is.
    intro hreported
    have hsame := hunique _ hreported
    have hlt := Nat.mod_lt p (by decide : 0 < 65536)
    omega
  · intro hlt
    rw [Nat.mod_eq_of_lt hlt]
    exact hp

namespace Sample

theorem original_perform_deriveClass {m : Machine} (hm : m.Original) (files : List ClassFile) :
    (m.perform env (files.map (fun file => ⟨_, .deriveClass file.encode⟩))).Original := by
  induction files generalizing m with
  | nil => exact hm
  | cons file files ih => exact ih (keeps_original_deriveClass env file.encode m hm)

/-- The resolution of the name has not led to further classes. -/
theorem original_portWithName {m : Machine} (hstart : Machine.start env {} = .ok m)
    (hsize : (portWithName m).classes.size = (port m).classes.size) :
    (portWithName m).Original := by
  have hport : (port m).Original :=
    original_perform_deriveClass (Machine.original_of_start hstart) portFiles
  have hclasses : (port m).classes.classes.toList = (portWithName m).classes.classes.toList :=
    (run_portWithName m).changes.classes_prefix.eq_of_length hsize.symm
  intro c hc
  refine hport c ?_
  rw [← Array.mem_toList_iff, hclasses, Array.mem_toList_iff]
  exact hc

end Sample

/-- The method of the dock is its first one, behind the four that it inherits. -/
theorem dock_open_reports_position :
    ∃ (m : Machine) (n : MemberName) (method : Method) (info : Handle) (m' : Machine),
      m.Reachable (fun _ {_} _ => True) ∧ m.Original ∧
      m.heap.read ⟨39⟩ = .ok (.memberName n) ∧
      m.members.get? n.vmindex = some (.method ⟨36, 0⟩) ∧
      m.classes.method? ⟨36, 0⟩ = some method ∧ method.dispatch = .virtual 4 ∧
      memberVMInfo ⟨39⟩ m = (.ok info, m') ∧ m'.Informs info 4 ⟨39⟩ := by
  obtain ⟨m, hstart, ⟨_, hsize⟩, _, ⟨object, hobject, hindex⟩, hmember, hopen, hposition, hroom⟩ :=
    Sample.port_succeeds
  obtain ⟨n, hn, hvmindex⟩ := Option.map_eq_some_iff.mp hindex
  have hread : (Sample.portWithName m).heap.read ⟨39⟩ = .ok (.memberName n) := by
    rw [hobject]
    cases object <;> cases hn
    rfl
  rw [← hvmindex] at hmember
  obtain ⟨method, hmethod, hcalled⟩ := Option.map_eq_some_iff.mp hopen
  simp only [Prod.mk.injEq] at hcalled
  have hreachable := Sample.reachable_port hstart
  have horiginal := Sample.original_portWithName hstart hsize
  obtain ⟨c, p, hc, hp, hunique, hreport, _⟩ := memberVMInfo_reports_position hreachable horiginal
    hread hmember hmethod hcalled.2.2
  rw [hc, Option.bind_some] at hposition
  -- The sample says at which position the method stands, and there is only one.
  obtain rfl := hunique 4 hposition
  rcases hreport with ⟨info, m', hrun, hinforms⟩ | ⟨hfull, _⟩
  · exact ⟨_, n, method, info, m', hreachable, horiginal, hread, hmember, hmethod, hcalled.2.2,
      hrun, hinforms⟩
  · omega

end Linkage
