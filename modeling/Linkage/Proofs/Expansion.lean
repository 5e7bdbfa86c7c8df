import Linkage.Proofs.Framing
import Linkage.Proofs.Reloading

/-! # Expanding member names

    A member name may lose its name, its type and, if it is for a method, its class. They are
    found again from the identity of the member.

    * `Machine.Identifies`: a member name leads to a declaration, which is where an expansion
      looks (`expandMemberName_of_identifies`).
    * `DeclaredMember.Settled`: the objects for name and type have been made before. Then they
      are found again, at any later time, and nothing is made (`DeclaredMember.Settled.later`).
    * `MemberName.Expanded`: an expansion gives what is absent, and that only.
    * `expand_restores`: a member name that was filled from a reflection object, and of which
      parts were erased, becomes what it was. -/

namespace Linkage

open Link

variable {rule : Discipline} {env : Environment} {m m' : Machine} {c : Class} {mn : Handle}
  {n n' : MemberName}

/-! ## Declared members -/

/-- A member as it is declared, a method with its class. -/
inductive DeclaredMember where
  | field (f : Field)
  | method (c : Class) (method : Method)

namespace DeclaredMember

def name : DeclaredMember → String
  | .field f => f.name
  | .method _ declared => declared.name

/-- The object that a member name has for the type: the class object for a field, and the
    descriptor for a method. -/
def typeObject (env : Environment) : DeclaredMember → Link Handle
  | .field f => do pure (← classOfType env f.type).classObject
  | .method _ declared => intern declared.descriptor.render

/-- The class that an expansion gives. Names of fields must have theirs. -/
def clazz? : DeclaredMember → Option Handle
  | .field _ => none
  | .method c _ => some c.classObject

end DeclaredMember

/-- Kind and identity of the member name lead to the declaration. -/
inductive Machine.Identifies (m : Machine) (n : MemberName) : DeclaredMember → Prop where
  | field {r : FieldRef} {c : Class} {f : Field}
      (kind : (MemberFlags.decode n.flags).kind = some .field) (placed : n.clazz.isSome = true)
      (identity : m.members.get? n.vmindex = some (.field r))
      (owner : m.classes.get? r.owner = some c) (declared : c.field? r.index = some f) :
      m.Identifies n (.field f)
  | method {r : MethodRef} {c : Class} {method : Method}
      (kind : (MemberFlags.decode n.flags).kind = some .method ∨
        (MemberFlags.decode n.flags).kind = some .constructor)
      (identity : m.members.get? n.vmindex = some (.method r))
      (owner : m.classes.get? r.owner = some c) (declared : c.method? r.index = some method) :
      m.Identifies n (.method c method)

namespace Machine.Identifies

variable {d : DeclaredMember}

theorem later (h : m.Identifies n d) (hlater : Changes rule m m') : m'.Identifies n d := by
  have hmembers : ∀ {id member}, m.members.get? id = some member →
      m'.members.get? id = some member := by
    intro id member hid
    exact hlater.keeps (P := fun m => m.members.get? id = some member)
      (fun hchange hm => hchange.member_kept hm) hid
  cases h with
  | field kind placed identity owner declared =>
    exact .field kind placed (hmembers identity) (hlater.get?_classes owner) declared
  | method kind identity owner declared =>
    exact .method kind (hmembers identity) (hlater.get?_classes owner) declared

/-- Name and type do not matter, nor does the class where an expansion gives it. -/
theorem congr (h : m.Identifies n d) (hflags : n'.flags = n.flags)
    (hindex : n'.vmindex = n.vmindex)
    (hclazz : d.clazz? = none → n.clazz.isSome = true → n'.clazz.isSome = true) :
    m.Identifies n' d := by
  cases h with
  | field kind placed identity owner declared =>
    exact .field (hflags ▸ kind) (hclazz rfl placed) (hindex ▸ identity) owner declared
  | method kind identity owner declared =>
    exact .method (hflags ▸ kind) (hindex ▸ identity) owner declared

end Machine.Identifies

/-! ## One expansion -/

/-- The member name with this name and type, and this class if it has none. -/
def MemberName.filledWith (n : MemberName) (name type : Handle) (clazz : Option Handle) :
    MemberName :=
  { n with name := some name, type := some type, clazz := n.clazz.or clazz }

/-- Give the member name what it lacks of the declaration. -/
def DeclaredMember.complete (env : Environment) (d : DeclaredMember) (mn : Handle)
    (n : MemberName) : Link Unit := do
  let name ← orMake n.name (intern d.name)
  let type ← orMake n.type (d.typeObject env)
  updateMemberName mn fun n => n.filledWith name type d.clazz?

/-- An expansion of a member name that leads to a declaration. -/
theorem expandMemberName_of_identifies {d : DeclaredMember}
    (hread : m.heap.read mn = .ok (.memberName n)) (h : m.Identifies n d) :
    expandMemberName env mn m = d.complete env mn n m := by
  unfold expandMemberName
  rw [bind_of_ok (readMemberName_of_read hread)]
  -- An identity that has been given out is not zero.
  have hindex : ∀ {member}, m.members.get? n.vmindex = some member → (n.vmindex == 0) = false := by
    intro member hmember
    rw [beq_eq_false_iff_ne]
    intro hzero
    rw [hzero] at hmember
    cases hmember
  cases h with
  | @field r c f kind placed identity owner declared =>
    have hclazz : n.clazz.isNone = false := by
      rw [← Option.not_isSome, placed]
      rfl
    simp only [kind]
    unfold expandField
    rw [hclazz, hindex identity, Bool.or_false, if_neg Bool.false_ne_true,
      bind_of_ok (member?_run _ m), identity]
    dsimp only
    rw [bind_of_ok (classAt_of_get? owner), declared, orFail_some, bind_of_ok (pure_run f m)]
    simp only [DeclaredMember.complete, DeclaredMember.name, DeclaredMember.typeObject,
      DeclaredMember.clazz?, MemberName.filledWith, Option.or_none]
  | @method r c method kind identity owner declared =>
    have hexpand : expandMethod mn n m = DeclaredMember.complete env (.method c method) mn n m := by
      unfold expandMethod
      rw [hindex identity, if_neg Bool.false_ne_true, bind_of_ok (member?_run _ m), identity]
      dsimp only
      rw [bind_of_ok (classAt_of_get? owner), declared, orFail_some,
        bind_of_ok (pure_run method m)]
      simp only [DeclaredMember.complete, DeclaredMember.name, DeclaredMember.typeObject,
        DeclaredMember.clazz?, MemberName.filledWith, Option.or_some]
    -- Methods and constructors are expanded in the same way.
    rcases kind with kind | kind
    · simp only [kind]
      exact hexpand
    · simp only [kind]
      exact hexpand

theorem classAt_cases (id : ClassId) (m : Machine) :
    (∃ e, classAt id m = (.error e, m)) ∨ ∃ c, m.classes.get? id = some c := by
  cases hget : m.classes.get? id with
  | none => exact Or.inl ⟨_, by rw [classAt_run, hget]⟩
  | some c => exact Or.inr ⟨c, rfl⟩

theorem expandField_cases (env : Environment) (mn : Handle) (n : MemberName) (m : Machine) :
    (∃ e, expandField env mn n m = (.error e, m)) ∨
      n.clazz.isSome = true ∧ ∃ r c f, m.members.get? n.vmindex = some (.field r) ∧
        m.classes.get? r.owner = some c ∧ c.field? r.index = some f := by
  unfold expandField
  -- Every check that fails leaves the machine as it is.
  by_cases hcheck : (n.clazz.isNone || n.vmindex == 0) = true
  · exact Or.inl ⟨_, by rw [if_pos hcheck]; rfl⟩
  · have hclazz : n.clazz.isSome = true := by
      rw [Bool.not_eq_true, Bool.or_eq_false_iff, Option.isNone_eq_false_iff] at hcheck
      exact hcheck.1
    rw [if_neg hcheck, bind_of_ok (member?_run _ m)]
    cases hmember : m.members.get? n.vmindex with
    | none => exact Or.inl ⟨_, rfl⟩
    | some member =>
      cases member with
      | method r => exact Or.inl ⟨_, rfl⟩
      | field r =>
        dsimp only
        rcases classAt_cases r.owner m with ⟨e, hfail⟩ | ⟨c, hget⟩
        · exact Or.inl ⟨e, bind_of_error hfail _⟩
        · rw [bind_of_ok (classAt_of_get? hget)]
          cases hfield : c.field? r.index with
          | none => exact Or.inl ⟨_, rfl⟩
          | some f => exact Or.inr ⟨hclazz, r, c, f, rfl, hget, hfield⟩

theorem expandMethod_cases (mn : Handle) (n : MemberName) (m : Machine) :
    (∃ e, expandMethod mn n m = (.error e, m)) ∨
      ∃ r c method, m.members.get? n.vmindex = some (.method r) ∧
        m.classes.get? r.owner = some c ∧ c.method? r.index = some method := by
  unfold expandMethod
  by_cases hcheck : (n.vmindex == 0) = true
  · exact Or.inl ⟨_, by rw [if_pos hcheck]; rfl⟩
  · rw [if_neg hcheck, bind_of_ok (member?_run _ m)]
    cases hmember : m.members.get? n.vmindex with
    | none => exact Or.inl ⟨_, rfl⟩
    | some member =>
      cases member with
      | field r => exact Or.inl ⟨_, rfl⟩
      | method r =>
        dsimp only
        rcases classAt_cases r.owner m with ⟨e, hfail⟩ | ⟨c, hget⟩
        · exact Or.inl ⟨e, bind_of_error hfail _⟩
        · rw [bind_of_ok (classAt_of_get? hget)]
          cases hmethod : c.method? r.index with
          | none => exact Or.inl ⟨_, rfl⟩
          | some method => exact Or.inr ⟨r, c, method, rfl, hget, hmethod⟩

/-- Nothing but a member name that leads to a declaration is expanded. -/
theorem expandMemberName_cases (env : Environment) (mn : Handle) (m : Machine) :
    (∃ e, expandMemberName env mn m = (.error e, m)) ∨
      ∃ n d, m.heap.read mn = .ok (.memberName n) ∧ m.Identifies n d := by
  -- Reading a member name changes nothing.
  have hstill : (readMemberName mn m).2 = m := keeps_readMemberName (P := (· = m)) mn m rfl
  unfold expandMemberName
  rcases bind_cases (readMemberName mn) _ m with ⟨e, k, hrun, hbind⟩ | ⟨n, k, hrun, hbind⟩
  · rw [hrun] at hstill
    subst hstill
    exact Or.inl ⟨e, hbind⟩
  · obtain ⟨hread, rfl⟩ := readMemberName_eq_ok_iff.mp hrun
    rw [hbind]
    cases hkind : (MemberFlags.decode n.flags).kind with
    | none => exact Or.inl ⟨_, rfl⟩
    | some kind =>
      cases kind with
      | field =>
        rcases expandField_cases env mn n k with hfail | ⟨hclazz, r, c, f, hmember, hget, hf⟩
        · exact Or.inl hfail
        · exact Or.inr ⟨n, _, hread, .field hkind hclazz hmember hget hf⟩
      | method =>
        rcases expandMethod_cases mn n k with hfail | ⟨r, c, method, hmember, hget, hmethod⟩
        · exact Or.inl hfail
        · exact Or.inr ⟨n, _, hread, .method (Or.inl hkind) hmember hget hmethod⟩
      | constructor =>
        rcases expandMethod_cases mn n k with hfail | ⟨r, c, method, hmember, hget, hmethod⟩
        · exact Or.inl hfail
        · exact Or.inr ⟨n, _, hread, .method (Or.inr hkind) hmember hget hmethod⟩
      | type => exact Or.inl ⟨_, rfl⟩

/-! ## What an expansion leaves alone -/

section

variable {P : Machine → Prop}

theorem keeps_orMake {make : Link Handle} (present : Option Handle) (hmake : Keeps P make) :
    Keeps P (orMake present make) := by
  cases present with
  | some handle => exact keeps_pure handle
  | none => exact hmake

theorem DeclaredMember.keeps_typeObject (hP : Framed P) (env : Environment) (d : DeclaredMember) :
    Keeps P (d.typeObject env) := by
  cases d with
  | field f => exact keeps_bind (keeps_classOfType hP env f.type) (fun c => keeps_pure _)
  | method c declared => exact keeps_intern hP _

end

/-- An expansion gives name and type, or fails before it has written anything. -/
theorem DeclaredMember.complete_cases (env : Environment) (d : DeclaredMember)
    (hw : m.heap.WellFormed) (hread : m.heap.read mn = .ok (.memberName n)) :
    (∃ e m', d.complete env mn n m = (.error e, m') ∧ m'.heap.read mn = .ok (.memberName n)) ∨
      ∃ name type m', d.complete env mn n m = (.ok (), m') ∧
        m'.heap.read mn = .ok (.memberName (n.filledWith name type d.clazz?)) ∧
        (∀ handle, n.name = some handle → name = handle) ∧
        ∀ handle, n.type = some handle → type = handle := by
  have hframed := framed_carries mn (· = Object.memberName n)
  have hcarries := Machine.carries_of_read (S := (· = Object.memberName n)) hw hread rfl
  -- Up to the last step the member name is carried along unchanged.
  have hback : ∀ {k : Machine}, k.Carries mn (· = Object.memberName n) →
      k.heap.read mn = .ok (.memberName n) := by
    intro k hk
    obtain ⟨object, hobject, rfl⟩ := hk.read
    exact hobject
  -- What is there already is not made again.
  have hpresent : ∀ {present : Option Handle} {make : Link Handle} {k k' : Machine}
      {made handle : Handle}, orMake present make k = (.ok made, k') → present = some handle →
      made = handle := by
    rintro present make k k' made handle hrun rfl
    cases hrun
    rfl
  unfold DeclaredMember.complete
  have hname := keeps_orMake n.name (keeps_intern hframed d.name) m hcarries
  rcases bind_cases (orMake n.name (intern d.name)) _ m with
    ⟨e, m₁, hrun, hbind⟩ | ⟨name, m₁, hrun, hbind⟩
  · rw [hrun] at hname
    exact Or.inl ⟨e, m₁, hbind, hback hname⟩
  · rw [hbind]
    rw [hrun] at hname
    have htype := keeps_orMake n.type (d.keeps_typeObject hframed env) m₁ hname
    rcases bind_cases (orMake n.type (d.typeObject env)) _ m₁ with
      ⟨e, m₂, hrun', hbind'⟩ | ⟨type, m₂, hrun', hbind'⟩
    · rw [hrun'] at htype
      exact Or.inl ⟨e, m₂, hbind', hback htype⟩
    · rw [hbind']
      rw [hrun'] at htype
      obtain ⟨heap, hupdate, hafter⟩ := updateMemberName_of_read htype.heap (hback htype)
        (fun n => n.filledWith name type d.clazz?)
      exact Or.inr ⟨name, type, _, hupdate, hafter, fun _ => hpresent hrun,
        fun _ => hpresent hrun'⟩

/-- An expansion writes to the member name only. -/
theorem carries_expandMemberName {other : Handle} {S : Object → Prop} (env : Environment)
    (hne : mn ≠ other) : Keeps (Machine.Carries other S) (expandMemberName env mn) := by
  intro m hm
  have hframed := framed_carries other S
  rcases expandMemberName_cases env mn m with ⟨e, hfail⟩ | ⟨n, d, hread, hidentifies⟩
  · rw [hfail]
    exact hm
  · rw [expandMemberName_of_identifies hread hidentifies]
    have hname := keeps_orMake n.name (keeps_intern hframed d.name)
    have htype := keeps_orMake n.type (d.keeps_typeObject hframed env)
    exact keeps_bind hname (fun _ => keeps_bind htype (fun _ =>
      carries_updateMemberName hne _)) m hm

/-! ## Writing what is there -/

theorem Heap.update_of_fixed {α : Type} {h : Heap α} (hw : h.WellFormed) {handle : Handle}
    {object : α} {f : α → α} (hread : h.read handle = .ok object) (hf : f object = object) :
    h.update handle f = (.ok (), h) := by
  rcases Heap.update_cases hw handle f with ⟨hnone, _⟩ | ⟨a, o, ht, ho, hupdate⟩
  · rw [Heap.read, Heap.resolve_eq_error hnone] at hread
    cases hread
  · have hcell := (Heap.cell?_eq_some_iff h a o).mpr ho
    rw [Heap.read, Heap.resolve_eq_ok ((Heap.address?_eq_some_iff h handle a).mpr ht)] at hread
    simp only [Heap.readAt_now, hcell, Except.ok.injEq] at hread
    have hcells : h.cells.modify a (Option.map f) = h.cells := by
      refine Array.ext_getElem? (fun i => ?_)
      rw [Array.getElem?_modify]
      split
      · next hi => rw [← hi, ho, hread, Option.map_some, Option.map_some, hf]
      · rfl
    rw [hupdate, hcells]

theorem updateMemberName_of_fixed (hw : m.heap.WellFormed)
    (hread : m.heap.read mn = .ok (.memberName n)) {f : MemberName → MemberName}
    (hf : f n = n) : updateMemberName mn f m = (.ok (), m) := by
  unfold updateMemberName
  rw [bind_of_ok (readMemberName_of_read hread), update_run,
    Heap.update_of_fixed hw hread (congrArg Object.memberName hf)]

/-! ## What a success gives -/

/-- The second member name is the first one with what was absent of its name, its type and,
    unless it is for a field, its class. -/
structure MemberName.Expanded (n n' : MemberName) : Prop where
  flags : n'.flags = n.flags
  vmindex : n'.vmindex = n.vmindex
  vmtarget : n'.vmtarget = n.vmtarget
  name : ∀ handle, n.name = some handle → n'.name = some handle
  type : ∀ handle, n.type = some handle → n'.type = some handle
  clazz : ∀ handle, n.clazz = some handle → n'.clazz = some handle
  fieldClass : (MemberFlags.decode n.flags).kind = some .field → n'.clazz = n.clazz
  complete : n'.name.isSome = true ∧ n'.type.isSome = true ∧ n'.clazz.isSome = true

theorem Machine.Identifies.expanded {d : DeclaredMember} {name type : Handle}
    (h : m.Identifies n d) (hname : ∀ handle, n.name = some handle → name = handle)
    (htype : ∀ handle, n.type = some handle → type = handle) :
    n.Expanded (n.filledWith name type d.clazz?) where
  flags := rfl
  vmindex := rfl
  vmtarget := rfl
  name := fun handle hhandle => congrArg some (hname handle hhandle)
  type := fun handle hhandle => congrArg some (htype handle hhandle)
  clazz := by
    intro handle hhandle
    simp [MemberName.filledWith, hhandle]
  fieldClass := by
    intro hfield
    -- A member name of a field leads to a field, and the class of a field is not filled in.
    cases h with
    | field kind placed => exact Option.or_none
    | method kind =>
      rw [hfield] at kind
      rcases kind with kind | kind
      · cases kind
      · cases kind
  complete := by
    refine ⟨rfl, rfl, ?_⟩
    cases h with
    | field kind placed => simpa [MemberName.filledWith, DeclaredMember.clazz?] using placed
    | method kind => simp [MemberName.filledWith, DeclaredMember.clazz?]

/-- A member name that has all its parts is expanded to itself. -/
theorem expandMemberName_of_complete {d : DeclaredMember} (hw : m.heap.WellFormed)
    (hread : m.heap.read mn = .ok (.memberName n)) (h : m.Identifies n d)
    (hcomplete : n.name.isSome = true ∧ n.type.isSome = true ∧ n.clazz.isSome = true) :
    expandMemberName env mn m = (.ok (), m) := by
  obtain ⟨name, hname⟩ := Option.isSome_iff_exists.mp hcomplete.1
  obtain ⟨type, htype⟩ := Option.isSome_iff_exists.mp hcomplete.2.1
  obtain ⟨clazz, hclazz⟩ := Option.isSome_iff_exists.mp hcomplete.2.2
  rw [expandMemberName_of_identifies hread h, DeclaredMember.complete, hname, htype, orMake, orMake,
    bind_of_ok (pure_run name m), bind_of_ok (pure_run type m)]
  refine updateMemberName_of_fixed hw hread ?_
  rw [MemberName.filledWith, ← hname, ← htype, hclazz, Option.some_or, ← hclazz]

/-- An expansion that fails has not written to the member name. -/
theorem read_of_expand_error {e : Failure} (hw : m.heap.WellFormed)
    (h : expandMemberName env mn m = (.error e, m')) : m'.heap.read mn = m.heap.read mn := by
  rcases expandMemberName_cases env mn m with ⟨_, hrun⟩ | ⟨n, d, hread, hidentifies⟩
  · rw [h] at hrun
    cases hrun
    rfl
  · rw [expandMemberName_of_identifies hread hidentifies] at h
    rcases d.complete_cases env hw hread with ⟨_, _, hrun, hafter⟩ | ⟨_, _, _, hrun, _⟩
    · rw [h] at hrun
      cases hrun
      rw [hafter, hread]
    · rw [h] at hrun
      cases hrun

theorem expanded_of_expand_ok (hw : m.heap.WellFormed)
    (h : expandMemberName env mn m = (.ok (), m')) :
    ∃ n n' d, m.heap.read mn = .ok (.memberName n) ∧ m'.heap.read mn = .ok (.memberName n') ∧
      n.Expanded n' ∧ m.Identifies n' d := by
  rcases expandMemberName_cases env mn m with ⟨_, hrun⟩ | ⟨n, d, hread, hidentifies⟩
  · rw [h] at hrun
    cases hrun
  · rw [expandMemberName_of_identifies hread hidentifies] at h
    rcases d.complete_cases env hw hread with
      ⟨_, _, hrun, _⟩ | ⟨name, type, _, hrun, hafter, hname, htype⟩
    · rw [h] at hrun
      cases hrun
    · rw [h] at hrun
      cases hrun
      have hexpanded := hidentifies.expanded hname htype
      exact ⟨n, _, d, hread, hafter, hexpanded, hidentifies.congr hexpanded.flags hexpanded.vmindex
        (fun _ _ => hexpanded.complete.2.2)⟩

/-! ## What is found again -/

/-- The objects for the name and the type of the member exist, and giving them out changes
    nothing. -/
structure DeclaredMember.Settled (d : DeclaredMember) (env : Environment) (name type : Handle)
    (m : Machine) : Prop where
  name : intern d.name m = (.ok name, m)
  type : d.typeObject env m = (.ok type, m)

theorem intern_later {text : String} {handle : Handle} {k : Machine}
    (h : intern text k = (.ok handle, m)) (hlater : Changes rule m m') :
    intern text m' = (.ok handle, m') :=
  intern_of_find? (hlater.find?_strings (find?_of_intern h))

theorem DeclaredMember.Settled.later {d : DeclaredMember} {name type : Handle}
    (h : d.Settled env name type m) (hm : m.Typed) (hlater : LoadsOnly rule m m') :
    d.Settled env name type m' := by
  refine ⟨intern_later h.name hlater.changes, ?_⟩
  have htype := h.type
  cases d with
  | field f =>
    obtain ⟨c, k, hclass, hpure⟩ := bind_eq_ok_iff.mp htype
    cases hpure
    exact bind_of_ok (classOfType_again hm hclass hlater) _
  | method c declared => exact intern_later htype hlater.changes

/-- The member name is complete, and its parts are what an expansion gives. -/
structure Machine.Restores (m : Machine) (env : Environment) (n : MemberName)
    (d : DeclaredMember) : Prop where
  identifies : m.Identifies n d
  settled : ∃ name type, d.Settled env name type m ∧ n.name = some name ∧ n.type = some type
  placed : n.clazz.isSome = true
  clazz : ∀ handle, d.clazz? = some handle → n.clazz = some handle

theorem Machine.Restores.later {d : DeclaredMember} (h : m.Restores env n d) (hm : m.Typed)
    (hlater : LoadsOnly rule m m') : m'.Restores env n d := by
  obtain ⟨name, type, hsettled, hparts⟩ := h.settled
  exact ⟨h.identifies.later hlater.changes, ⟨name, type, hsettled.later hm hlater, hparts⟩,
    h.placed, h.clazz⟩

/-- The member name without the parts that are marked. -/
def MemberName.without (n : MemberName) (name type clazz : Bool) : MemberName :=
  { n with
    name := if name then none else n.name
    type := if type then none else n.type
    clazz := if clazz then none else n.clazz }

theorem orMake_of_run {present : Option Handle} {make : Link Handle} {handle : Handle}
    (erased : Bool) (hpresent : present = some handle) (hmake : make m = (.ok handle, m)) :
    orMake (if erased then none else present) make m = (.ok handle, m) := by
  cases erased with
  | true => exact hmake
  | false =>
    rw [hpresent]
    rfl

/-- What was erased is restored. -/
theorem Machine.Restores.expand {d : DeclaredMember} {name type clazz : Bool}
    (h : m.Restores env n d) (hw : m.heap.WellFormed)
    (hclazz : clazz = true → d.clazz?.isSome = true)
    (hread : m.heap.read mn = .ok (.memberName (n.without name type clazz))) :
    ∃ m', expandMemberName env mn m = (.ok (), m') ∧
      m'.heap.read mn = .ok (.memberName n) := by
  obtain ⟨nameObject, typeObject, hsettled, hname, htype⟩ := h.settled
  -- The class is erased only if it can be filled in again, so the member is still found.
  have hidentifies : m.Identifies (n.without name type clazz) d := by
    refine h.identifies.congr rfl rfl ?_
    intro hfield hplaced
    cases clazz with
    | true => rw [hfield] at hclazz; cases hclazz rfl
    | false => exact hplaced
  have hwhole : (n.without name type clazz).filledWith nameObject typeObject d.clazz? = n := by
    -- An erased class is that of the member, and one that is left is kept.
    have hor : (if clazz then none else n.clazz).or d.clazz? = n.clazz := by
      cases clazz with
      | true =>
        obtain ⟨handle, hhandle⟩ := Option.isSome_iff_exists.mp (hclazz rfl)
        rw [h.clazz handle hhandle]
        exact hhandle
      | false =>
        obtain ⟨handle, hhandle⟩ := Option.isSome_iff_exists.mp h.placed
        simp [hhandle]
    rw [MemberName.filledWith, MemberName.without, hor, ← hname, ← htype]
  obtain ⟨heap, hupdate, hafter⟩ := updateMemberName_of_read hw hread
    (fun n => n.filledWith nameObject typeObject d.clazz?)
  rw [hwhole] at hafter
  refine ⟨{ m with heap }, ?_, hafter⟩
  rw [expandMemberName_of_identifies hread hidentifies]
  exact (bind_of_ok (orMake_of_run name hname hsettled.name) _).trans
    ((bind_of_ok (orMake_of_run type htype hsettled.type) _).trans hupdate)

/-! ## From a reflection object -/

theorem loadsOnly_allocate {object : Object} {handle : Handle} (hw : m.heap.WellFormed)
    (h : allocate object m = (.ok handle, m')) (hplain : object.Plain) :
    LoadsOnly rule m m' ∧ m'.heap.read handle = .ok object := by
  have hgoes : Goes rule (allocate object) m _ := goes_allocate hw hplain
  have hchanges := hgoes.1
  rw [h] at hchanges
  exact ⟨⟨hchanges, modest_allocate object h⟩, hgoes.2 handle m' h⟩

/-- A reflected field has the name and the type of the field. -/
theorem newReflectedField_eq_ok {r : FieldRef} {handle : Handle} (hm : m.Typed)
    (hw : m.heap.WellFormed) (h : newReflectedField env r m = (.ok handle, m')) :
    ∃ c f name type, m.classes.get? r.owner = some c ∧ c.field? r.index = some f ∧
      LoadsOnly rule m m' ∧ (DeclaredMember.field f).Settled env name type m' ∧
      m'.heap.read handle = .ok (.field
        { declaringClass := c.classObject, slot := r.index, name, type
          modifiers := f.access }) := by
  unfold newReflectedField at h
  rcases classAt_cases r.owner m with ⟨e, hfail⟩ | ⟨c, hget⟩
  · rw [bind_of_error hfail] at h
    cases h
  · rw [bind_of_ok (classAt_of_get? hget)] at h
    obtain ⟨f, k, hslot, hmake⟩ := bind_eq_ok_iff.mp h
    obtain ⟨hf, hk⟩ := orFail_eq_ok_iff.mp hslot
    subst k
    obtain ⟨type, m₁, htype, hrest⟩ := bind_eq_ok_iff.mp hmake
    obtain ⟨name, m₂, hname, hallocate⟩ := bind_eq_ok_iff.mp hrest
    -- The class of the type is loaded first, then the name is interned, then the object is stored.
    have hload : LoadsOnly rule m m₁ := loadsOnly_classOfType htype
    have hintern : LoadsOnly rule m₁ m₂ :=
      loadsOnly_of_run (changing_intern f.name) (modest_intern f.name) hname
    have hw₂ := (hload.trans hintern).changes.wellFormed hw
    obtain ⟨hstore, hread⟩ := loadsOnly_allocate hw₂ hallocate trivial
    have hagain := classOfType_again hm htype (hintern.trans hstore)
    exact ⟨c, f, name, type.classObject, hget, hf, (hload.trans hintern).trans hstore,
      ⟨intern_later hname hstore.changes, bind_of_ok hagain _⟩, hread⟩

/-- A reflected method has the name and the descriptor of the method. -/
theorem newReflectedMethod_eq_ok {r : MethodRef} {handle : Handle} (env : Environment)
    (hw : m.heap.WellFormed) (h : newReflectedMethod r m = (.ok handle, m')) :
    ∃ c method name type, m.classes.get? r.owner = some c ∧ c.method? r.index = some method ∧
      LoadsOnly rule m m' ∧ (DeclaredMember.method c method).Settled env name type m' ∧
      m'.heap.read handle = .ok (.method
        { declaringClass := c.classObject, slot := r.index, name := some name, signature := type
          modifiers := method.access }) := by
  unfold newReflectedMethod at h
  rcases classAt_cases r.owner m with ⟨e, hfail⟩ | ⟨c, hget⟩
  · rw [bind_of_error hfail] at h
    cases h
  · rw [bind_of_ok (classAt_of_get? hget)] at h
    obtain ⟨method, k, hslot, hmake⟩ := bind_eq_ok_iff.mp h
    obtain ⟨hmethod, hk⟩ := orFail_eq_ok_iff.mp hslot
    subst k
    obtain ⟨name, m₁, hname, hrest⟩ := bind_eq_ok_iff.mp hmake
    obtain ⟨type, m₂, htype, hallocate⟩ := bind_eq_ok_iff.mp hrest
    -- Interning twice and storing once; both texts are found again afterwards.
    have hfirst : LoadsOnly rule m m₁ :=
      loadsOnly_of_run (changing_intern _) (modest_intern _) hname
    have hsecond : LoadsOnly rule m₁ m₂ :=
      loadsOnly_of_run (changing_intern _) (modest_intern _) htype
    have hw₂ := (hfirst.trans hsecond).changes.wellFormed hw
    obtain ⟨hstore, hread⟩ := loadsOnly_allocate hw₂ hallocate trivial
    exact ⟨c, method, name, type, hget, hmethod, (hfirst.trans hsecond).trans hstore,
      ⟨intern_later hname (hsecond.changes.trans hstore.changes),
        intern_later htype hstore.changes⟩, hread⟩

/-- Filling a member name gives it an identity that leads back to the member, and loads
    nothing. -/
theorem initMemberName_settles {r : Handle} {member : MemberRef}
    {f : Nat → MemberName → MemberName} (hm : m.Steady)
    (hmn : m.heap.read mn = .ok (.memberName n))
    (hinit : initMemberName mn r m =
      (identify member >>= fun id => updateMemberName mn (f id)) m) :
    ∃ m' id, initMemberName mn r m = (.ok (), m') ∧
      m'.heap.read mn = .ok (.memberName (f id n)) ∧ m'.members.get? id = some member ∧
      LoadsOnly rule m m' := by
  obtain ⟨m', id, hrun, hafter, hid, hclasses⟩ := settle_eq hm.sound.heap hmn f member
  rw [hrun] at hinit
  have hidentity := MemberRegistry.get?_identify m'.members member
  rw [hid] at hidentity
  exact ⟨m', id, hinit, hafter, hidentity, (changing_initMemberName mn r).of_run hinit,
    by rw [hclasses]; exact .refl _⟩

/-- A member name that is filled from a reflected field has the parts that an expansion
    gives. -/
theorem restores_of_init_field {r : Handle} {reflected : ReflectedField} {f : Field}
    (hm : m.Steady) (htyped : m.Typed) (hget : m.classes.get? c.id = some c)
    (hr : m.heap.read r = .ok (.field reflected))
    (hclazz : reflected.declaringClass = c.classObject) (found : c.field? reflected.slot = some f)
    (hsettled : (DeclaredMember.field f).Settled env reflected.name reflected.type m)
    (hmn : m.heap.read mn = .ok (.memberName n)) :
    ∃ m' n', initMemberName mn r m = (.ok (), m') ∧ m'.heap.read mn = .ok (.memberName n') ∧
      LoadsOnly ClassObjectsKept m m' ∧ m'.Restores env n' (.field f) := by
  obtain ⟨m', id, hinit, hafter, hidentity, hlater⟩ :=
    initMemberName_settles hm hmn (initMemberName_field_eq hm hget hr hclazz found)
  refine ⟨m', _, hinit, hafter, hlater, ?_, ⟨_, _, hsettled.later htyped hlater, rfl, rfl⟩, rfl, ?_⟩
  · refine .field ?_ rfl hidentity (hlater.changes.get?_classes hget) found
    rw [MemberFlags.decode_encode]
    rfl
  · intro handle hnone
    cases hnone

theorem restores_of_init_method {r : Handle} {reflected : ReflectedMethod} {method : Method}
    {name : Handle} (hm : m.Steady) (htyped : m.Typed) (hget : m.classes.get? c.id = some c)
    (hr : m.heap.read r = .ok (.method reflected))
    (hclazz : reflected.declaringClass = c.classObject)
    (found : c.method? reflected.slot = some method) (hname : reflected.name = some name)
    (hsettled : (DeclaredMember.method c method).Settled env name reflected.signature m)
    (hmn : m.heap.read mn = .ok (.memberName n)) :
    ∃ m' n', initMemberName mn r m = (.ok (), m') ∧ m'.heap.read mn = .ok (.memberName n') ∧
      LoadsOnly ClassObjectsKept m m' ∧ m'.Restores env n' (.method c method) := by
  obtain ⟨m', id, hinit, hafter, hidentity, hlater⟩ :=
    initMemberName_settles hm hmn (initMemberName_method_eq hm hget hr hclazz found)
  refine ⟨m', _, hinit, hafter, hlater, ?_, ⟨_, _, hsettled.later htyped hlater, hname, rfl⟩, rfl,
    fun _ hclass => hclass⟩
  refine .method (Or.inl ?_) hidentity (hlater.changes.get?_classes hget) found
  rw [MemberFlags.decode_encode]
  rfl

/-- A member name that is filled from the reflection object of a field or a method, then or
    later, has the parts that an expansion gives. -/
theorem restores_of_init {member : MatchedMember} {r : Handle} {m₁ m₂ : Machine}
    (hm : m.Reachable ClassObjectsKept) (hmember : ∀ ref, member ≠ .constructor ref)
    (hreflect : reflectMember env member m = (.ok r, m₁))
    (hlater : LoadsOnly ClassObjectsKept m₁ m₂) (hr : m₂.heap.read r = m₁.heap.read r)
    (hmn : m₂.heap.read mn = .ok (.memberName n)) :
    ∃ m₃ n' d, initMemberName mn r m₂ = (.ok (), m₃) ∧ m₃.heap.read mn = .ok (.memberName n') ∧
      m₃.Typed ∧ m₃.heap.WellFormed ∧ m₃.Restores env n' d ∧
      ((∀ ref, member ≠ .field ref) → d.clazz?.isSome = true) := by
  have hsteady := hm.steady
  -- What holds where the reflection object is made holds where the member name is filled.
  have hthen : LoadsOnly ClassObjectsKept m m₁ → m₂.Steady ∧ m₂.Typed ∧
      ∀ {i c}, m.classes.get? i = some c → m₂.classes.get? c.id = some c := by
    intro hmade
    have hchanges := hmade.changes.trans hlater.changes
    refine ⟨hchanges.steady hsteady, hchanges.typed hm.typed, ?_⟩
    intro i c hget
    rw [hsteady.sound.ids hget]
    exact hchanges.get?_classes hget
  cases member with
  | constructor ref => exact absurd rfl (hmember ref)
  | field ref =>
    obtain ⟨c, f, name, type, hget, hf, hmade, hsettled, hread⟩ :=
      newReflectedField_eq_ok hm.typed hsteady.sound.heap hreflect
    obtain ⟨hsteady₂, htyped₂, hget₂⟩ := hthen hmade
    have hsettled₂ := hsettled.later (hmade.changes.typed hm.typed) hlater
    obtain ⟨m₃, n', hinit, hread₃, hstep, hrestores⟩ := restores_of_init_field hsteady₂ htyped₂
      (hget₂ hget) (hr.trans hread) rfl hf hsettled₂ hmn
    exact ⟨m₃, n', _, hinit, hread₃, hstep.changes.typed htyped₂,
      hstep.changes.wellFormed hsteady₂.sound.heap, hrestores,
      fun hfield => absurd rfl (hfield ref)⟩
  | method ref =>
    obtain ⟨c, method, name, type, hget, hmethod, hmade, hsettled, hread⟩ :=
      newReflectedMethod_eq_ok env hsteady.sound.heap hreflect
    obtain ⟨hsteady₂, htyped₂, hget₂⟩ := hthen hmade
    have hsettled₂ := hsettled.later (hmade.changes.typed hm.typed) hlater
    obtain ⟨m₃, n', hinit, hread₃, hstep, hrestores⟩ := restores_of_init_method hsteady₂ htyped₂
      (hget₂ hget) (hr.trans hread) rfl hmethod rfl hsettled₂ hmn
    exact ⟨m₃, n', _, hinit, hread₃, hstep.changes.typed htyped₂,
      hstep.changes.wellFormed hsteady₂.sound.heap, hrestores, fun _ => rfl⟩

/-! ## Expansions restore what is missing -/

/-- Expansions restore exactly what is missing.

    * On every reachable machine, whenever the reflection object of a field or a method has
      been made, a member name is filled from it, then or later. If after that any of its
      name and type are erased, and for a method also its class, then an expansion succeeds,
      and the member name is again what it was. In between other things may happen, but no
      class may be declared under the name of an array class. The object of a constructor is
      left out: a member name that is filled from one has no name, and an expansion does not
      leave it so but gives it the name of the method, `<init>`.
    * An expansion that fails leaves the member name as it is.
    * An expansion that succeeds was one of a member name, gives it the absent parts and
      changes nothing else about it. Another expansion changes nothing at all.
    * No other object is changed. -/
theorem expand_restores (h : m.Reachable rule) (env : Environment) (mn : Handle) :
    (m.Reachable ClassObjectsKept →
      ∀ (member : MatchedMember) (r : Handle) (m₁ m₂ : Machine) (blank : MemberName),
        (∀ ref, member ≠ .constructor ref) → reflectMember env member m = (.ok r, m₁) →
        Run ClassObjectsKept m₁ m₂ → m₁.classes.SparesArrayNames m₂.classes →
        m₂.heap.read r = m₁.heap.read r → m₂.heap.read mn = .ok (.memberName blank) →
        ∃ m₃ n, initMemberName mn r m₂ = (.ok (), m₃) ∧
          m₃.heap.read mn = .ok (.memberName n) ∧
          ∀ (m₄ : Machine) (name type clazz : Bool), Run ClassObjectsKept m₃ m₄ →
            m₃.classes.SparesArrayNames m₄.classes →
            (∀ ref, member = .field ref → clazz = false) →
            m₄.heap.read mn = .ok (.memberName (n.without name type clazz)) →
            ∃ m₅, expandMemberName env mn m₄ = (.ok (), m₅) ∧
              m₅.heap.read mn = .ok (.memberName n)) ∧
      (∀ e m', expandMemberName env mn m = (.error e, m') →
        m'.heap.read mn = m.heap.read mn) ∧
      (∀ m', expandMemberName env mn m = (.ok (), m') →
        ∃ n n', m.heap.read mn = .ok (.memberName n) ∧ m'.heap.read mn = .ok (.memberName n') ∧
          n.Expanded n' ∧ ∀ env', expandMemberName env' mn m' = (.ok (), m')) ∧
      ∀ other object, other ≠ mn → m.heap.read other = .ok object →
        (expandMemberName env mn m).2.heap.read other = .ok object := by
  have hw := h.sound.heap
  refine ⟨?_, ?_, ?_, ?_⟩
  · intro hkept member r m₁ m₂ blank hmember hreflect hrun hspares hr hblank
    obtain ⟨m₃, n, d, hinit, hread, htyped, hw₃, hrestores, hclass⟩ :=
      restores_of_init hkept hmember hreflect ⟨hrun.changes, hspares⟩ hr hblank
    refine ⟨m₃, n, hinit, hread, ?_⟩
    intro m₄ name type clazz hrun₄ hspares₄ hfield herased
    have hrestores₄ := hrestores.later htyped ⟨hrun₄.changes, hspares₄⟩
    refine hrestores₄.expand (hrun₄.changes.wellFormed hw₃) ?_ herased
    intro hclazz
    refine hclass (fun ref href => ?_)
    rw [hfield ref href] at hclazz
    cases hclazz
  · exact fun e m' hfail => read_of_expand_error hw hfail
  · intro m' hexpand
    have hchanges : Changes rule m m' := (changing_expandMemberName env mn).of_run hexpand
    obtain ⟨n, n', d, hread, hafter, hexpanded, hidentifies⟩ := expanded_of_expand_ok hw hexpand
    -- Now nothing is absent, and the identity leads to the same declaration.
    exact ⟨n, n', hread, hafter, hexpanded, fun env' => expandMemberName_of_complete
      (hchanges.wellFormed hw) hafter (hidentifies.later hchanges) hexpanded.complete⟩
  · intro other object hne hread
    have hcarries := Machine.carries_of_read (S := (· = object)) hw hread rfl
    obtain ⟨_, hafter, rfl⟩ := (carries_expandMemberName env hne.symm m hcarries).read
    exact hafter

/-- The empty member name cannot be expanded. It is filled for `Square.scale`, all parts that
    may be erased are, and they come back. -/
theorem square_scale_restored :
    ∃ m m₁ m₂ m₃ m₄ n, Machine.Reachable ClassObjectsKept m ∧
      reflectMember Sample.env Sample.scale m = (.ok ⟨40⟩, m₁) ∧
      expandMemberName Sample.env ⟨39⟩ m₁ = (.error (.thrown .memberNotExpandable), m₁) ∧
      initMemberName ⟨39⟩ ⟨40⟩ m₁ = (.ok (), m₂) ∧
      m₂.heap.read ⟨39⟩ = .ok (.memberName n) ∧
      Link.update ⟨39⟩ (fun _ => .memberName (n.without true true true)) m₂ = (.ok (), m₃) ∧
      expandMemberName Sample.env ⟨39⟩ m₃ = (.ok (), m₄) ∧
      m₄.heap.read ⟨39⟩ = .ok (.memberName n) ∧
      expandMemberName Sample.env ⟨39⟩ m₄ = (.ok (), m₄) := by
  obtain ⟨m, _, hafter, _, ⟨hreflected, hblank⟩, _⟩ :=
    Sample.reachable_after (fun _ => trivial) Sample.classObjectsKept
  have hreflect : Sample.reflected m = (.ok ⟨40⟩, (Sample.reflected m).2) := by
    rw [← hreflected.eq_ok]
  obtain ⟨hrestores, -⟩ := expand_restores hafter Sample.env ⟨39⟩
  obtain ⟨m₂, n, hinit, hread, hagain⟩ := hrestores hafter Sample.scale ⟨40⟩ _ _ {}
    (fun _ h => by cases h) hreflect (.refl _) (.refl _) rfl hblank.eq_ok
  have hempty : expandMemberName Sample.env ⟨39⟩ (Sample.reflected m).2 =
      (.error (.thrown .memberNotExpandable), (Sample.reflected m).2) := by
    unfold expandMemberName
    rw [bind_of_ok (readMemberName_of_read hblank.eq_ok)]
    rfl
  have hinvoker : ∀ invoke, Sample.env.invoker = some invoke →
      ∀ c buffer m, Run ClassObjectsKept m (invoke c buffer m).2 :=
    Sample.invoker_runs (fun _ => trivial)
  have hm₂ : m₂.Reachable ClassObjectsKept := by
    have hstep : (initMemberName ⟨39⟩ ⟨40⟩ (Sample.reflected m).2).2.Reachable ClassObjectsKept :=
      (hafter.step Sample.env (.reflectMember Sample.scale) hinvoker trivial).step
        Sample.env (.initMemberName ⟨39⟩ ⟨40⟩) hinvoker trivial
    rwa [hinit] at hstep
  -- The member name is not a class object, so it may be written to.
  have hallowed : ∀ c ∈ m₂.classes.classes, c.classObject ≠ ⟨39⟩ := by
    intro c hc hsame
    have hclass := hm₂.steady.read_classObject (ClassTable.get?_id hm₂.sound.ids hc)
    rw [hsame, hread] at hclass
    cases hclass
  obtain ⟨heap, hupdate, herased, -⟩ := update_of_read hm₂.sound.heap hread
    (fun _ => .memberName (n.without true true true))
  have hrun : Run ClassObjectsKept m₂ { m₂ with heap } := by
    have hstep : Run ClassObjectsKept m₂ (Link.update ⟨39⟩ _ m₂).2 :=
      .step Sample.env (.update ⟨39⟩ fun _ => .memberName (n.without true true true)) hinvoker
        hallowed (.refl m₂)
    rwa [hupdate] at hstep
  obtain ⟨m₄, hexpand, hrestored⟩ := hagain _ true true true hrun (.refl _)
    (fun _ h => by cases h) herased
  have hm₃ : Machine.Reachable ClassObjectsKept { m₂ with heap } := by
    obtain ⟨env, config, m₀, hstart, hrun₀⟩ := hm₂
    exact ⟨env, config, m₀, hstart, hrun₀.trans hrun⟩
  obtain ⟨-, -, hsuccess, -⟩ := expand_restores hm₃ Sample.env ⟨39⟩
  obtain ⟨_, _, _, _, _, htwice⟩ := hsuccess m₄ hexpand
  exact ⟨_, _, m₂, _, m₄, n, hafter, hreflect, hempty, hinit, hread, hupdate, hexpand,
    hrestored, htwice Sample.env⟩

end Linkage
