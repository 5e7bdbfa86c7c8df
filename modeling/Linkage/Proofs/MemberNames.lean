import Linkage.Proofs.Flags
import Linkage.Proofs.Layout

/-! # Member names

    In every run in which outside code only makes member names without identity and
    target and leaves them alone afterwards, a member name has neither identity nor
    target or it has both, and then it `Denotes` one declared member: its class,
    target, modifiers and kinds are those of the member.

    The invariant is `Machine.NamesSound`. Beside the member names it says that class
    objects stand for the class that knows them, so that a reflection object leads to
    the class object of the declaring class. -/

namespace Linkage

open Link

/-! ## Denoting a member -/

/-- The class that declares the member. -/
def MemberRef.owner : MemberRef → ClassId
  | .field r => r.owner
  | .method r => r.owner

def MemberRef.isField : MemberRef → Bool
  | .field _ => true
  | .method _ => false

/-- The direct target of a declared member. -/
def ClassTable.target? (t : ClassTable) : MemberRef → Option Nat
  | .field r => (t.field? r).map Field.target
  | .method r => (t.method? r).map (fun _ => r.target)

/-- The modifiers that the name of a declared member carries. -/
def ClassTable.modifiers? (t : ClassTable) : MemberRef → Option Access
  | .field r => (t.field? r).map (fun f => f.access &&& MemberFlags.fieldModifiers)
  | .method r => (t.method? r).map (fun m => m.access &&& MemberFlags.methodModifiers)

/-- The record of flags in a member name. -/
def MemberName.decoded (n : MemberName) : MemberFlags :=
  MemberFlags.decode n.flags

/-- The member name has neither identity nor target. -/
def MemberName.Unresolved (n : MemberName) : Prop :=
  n.vmindex = 0 ∧ n.vmtarget = 0

/-- The member name stands for the member: identity, target, class, modifiers and
    kinds agree with its declaration. -/
structure Machine.Denotes (m : Machine) (n : MemberName) (member : MemberRef) : Prop where
  identity : m.members.get? n.vmindex = some member
  target : m.classes.target? member = some n.vmtarget
  clazz : ∃ c, m.classes.get? member.owner = some c ∧ n.clazz = some c.classObject ∧
    (n.decoded.referenceKind = some .invokeInterface → c.isInterface = true)
  kind : n.decoded.kind = some .field ↔ member.isField = true
  modifiers : m.classes.modifiers? member = some n.decoded.modifiers
  staticField : n.decoded.kind = some .field →
    (n.decoded.isStatic = true ↔ n.decoded.referenceKind = some .getStatic ∨
      n.decoded.referenceKind = some .putStatic) ∧
    (n.decoded.isStatic = true ↔ n.vmtarget % 2 = 1)
  staticMethod : n.decoded.kind = some .method →
    (n.decoded.isStatic = true ↔ n.decoded.referenceKind = some .invokeStatic)

/-- Outside code makes no class objects and no member names with an identity or a
    target, and it does not write to member names. -/
def FreshNames : Discipline := fun m {_} op =>
  match op with
  | .allocate object => object.Plain
  | .update handle f => ∀ object, m.heap.read handle = .ok object →
      f object = object ∨ object.memberName? = none ∧ (f object).Plain
  | _ => True

/-! ## Modifiers and targets -/

/-- Restricting flags to a mask keeps the flags of the mask. -/
theorem Access.has_and {access mask flag : Access} (h : mask &&& flag = flag) :
    (access &&& mask).has flag = access.has flag := by
  unfold Access.has
  rw [UInt16.and_assoc, h]

theorem Field.memberFlags_isStatic (f : Field) (kind : ReferenceKind) :
    (f.memberFlags kind).isStatic = f.isStatic :=
  Access.has_and (by decide)

theorem Method.memberFlags_isStatic (m : Method) (kind : MemberKind)
    (referenceKind : ReferenceKind) : (m.memberFlags kind referenceKind).isStatic = m.isStatic :=
  Access.has_and (by decide)

/-- The targets of static fields are odd, those of instance fields are even and not
    zero. -/
theorem Field.target_odd_iff {f : Field} (hf : f.Placed) :
    f.target ≠ 0 ∧ (f.isStatic = true ↔ f.target % 2 = 1) := by
  unfold Field.target
  cases hs : f.isStatic with
  | true =>
    simp only [if_true, Field.slotSize, true_iff]
    split <;> constructor <;> omega
  | false =>
    obtain ⟨hlow, k, hk⟩ := hf hs
    simp only [Field.headerSize, Field.slotSize] at hlow hk
    simp only [Bool.false_eq_true, if_false, false_iff]
    constructor <;> omega

theorem MethodRef.target_ne_zero (r : MethodRef) : r.target ≠ 0 := by
  unfold MethodRef.target
  omega

/-- The reference kind of a method in its reflection object. -/
theorem Method.referenceKind_iff {method : Method} {inInterface : Bool}
    (h : method.Dispatched inInterface) :
    (method.referenceKind = .invokeStatic ↔ method.isStatic = true) ∧
      (method.referenceKind = .invokeInterface → inInterface = true) := by
  unfold Method.Dispatched at h
  unfold Method.referenceKind
  cases hd : method.dispatch with
  | direct => cases method.isStatic <;> simp
  | virtual i =>
    rw [hd] at h
    cases method.isStatic <;> cases method.isFinal <;> simp
  | interface i =>
    rw [hd] at h
    -- Static methods are direct, and direct methods have no index.
    have hstatic : method.isStatic = false := by
      have := h.1
      simp only [Method.isDirect, Bool.or_eq_false_iff] at this
      exact this.1.1
    simp [hstatic, h.2]

/-- However a method is named, the kinds fit it. -/
theorem Method.NamedAs.fits {method : Method} {c : Class} {kind : MemberKind}
    {referenceKind : ReferenceKind} (h : method.NamedAs c kind referenceKind)
    (hd : method.Dispatched c.isInterface) :
    kind ≠ .field ∧
      (kind = .method → (method.isStatic = true ↔ referenceKind = .invokeStatic)) ∧
      (referenceKind = .invokeInterface → c.isInterface = true) := by
  cases h with
  | method =>
    obtain ⟨hstatic, hinterface⟩ := Method.referenceKind_iff hd
    exact ⟨by simp, fun _ => hstatic.symm, hinterface⟩
  | constructor => exact ⟨by simp, by simp, by simp⟩
  | reference notField static interface =>
    refine ⟨?_, fun _ => static.symm, interface⟩
    rcases notField with rfl | rfl <;> simp

/-! ## The invariant -/

/-- Class objects stand for classes that know them, and member names are unresolved
    or denote a member. -/
structure Machine.NamesSound (m : Machine) : Prop extends m.Sound where
  classObjects : ∀ {h id}, m.object? h = some (.classObject id) →
    ∃ c, m.classes.get? id = some c ∧ c.classObject = h
  names : ∀ {h n}, m.object? h = some (.memberName n) →
    n.Unresolved ∨ ∃ member, m.Denotes n member

variable {m m' : Machine}

/-- The class that is taken to declare a member does, and its class object is the one
    that led to it. -/
theorem Machine.NamesSound.declares (hm : m.NamesSound) {clazz : Handle} {owner : ClassId}
    {c : Class} (h : m.Declares clazz owner c) :
    m.classes.get? owner = some c ∧ c.classObject = clazz := by
  cases h with
  | place found => exact ⟨found, rfl⟩
  | @classObject _ id c read found =>
    obtain ⟨c', hc', hobject⟩ := hm.classObjects ((read_eq_ok_iff hm.heap).mp read)
    rw [found, Option.some.injEq] at hc'
    subst hc'
    rw [hm.ids found]
    exact ⟨found, hobject⟩

/-- A settled member name denotes a member. -/
theorem Machine.NamesSound.denotes (hm : m.NamesSound) {n : MemberName} (h : m.Settles n) :
    ∃ member, m.Denotes n member := by
  cases h with
  | @field r c f clazz kind declares found identity clazz_eq ofField static flags target =>
    obtain ⟨hget, hobject⟩ := hm.declares declares
    have hdecoded : n.decoded = f.memberFlags kind := by
      rw [MemberName.decoded, flags, MemberFlags.decode_encode]
    have hplaced : f.Placed :=
      (hm.laid (ClassTable.mem_of_get? hget)).fields f (Array.mem_of_getElem? found)
    obtain ⟨_, hodd⟩ := Field.target_odd_iff hplaced
    have hfield : m.classes.field? r = some f := by
      rw [ClassTable.field?_of_get? hget, found]
    refine ⟨.field r, identity, ?_, ⟨c, hget, by rw [clazz_eq, hobject], ?_⟩, ?_, ?_, ?_, ?_⟩
    · simp [ClassTable.target?, hfield, target]
    · rw [hdecoded]
      -- The kind is that of a field reference.
      cases kind <;> simp [Field.memberFlags, MemberFlags.make, ReferenceKind.isField] at ofField ⊢
    · simp [hdecoded, Field.memberFlags, MemberFlags.make, MemberRef.isField]
    · simp [ClassTable.modifiers?, hfield, hdecoded, Field.memberFlags, MemberFlags.make]
    · intro _
      rw [hdecoded, Field.memberFlags_isStatic, target]
      refine ⟨?_, hodd⟩
      rw [← static]
      cases kind <;> simp [Field.memberFlags, MemberFlags.make, ReferenceKind.isStaticField]
    · simp [hdecoded, Field.memberFlags, MemberFlags.make]
  | @method r c method clazz kind referenceKind declares found identity clazz_eq named flags target =>
    obtain ⟨hget, hobject⟩ := hm.declares declares
    have hdecoded : n.decoded = method.memberFlags kind referenceKind := by
      rw [MemberName.decoded, flags, MemberFlags.decode_encode]
    have hdispatched : method.Dispatched c.isInterface :=
      (hm.laid (ClassTable.mem_of_get? hget)).methods method (Array.mem_of_getElem? found)
    obtain ⟨hfield, hstatic, hinterface⟩ := named.fits hdispatched
    have hmethod : m.classes.method? r = some method := by
      rw [ClassTable.method?_of_get? hget, found]
    refine ⟨.method r, identity, ?_, ⟨c, hget, by rw [clazz_eq, hobject], ?_⟩, ?_, ?_, ?_, ?_⟩
    · simp [ClassTable.target?, hmethod, target]
    · rw [hdecoded]
      simpa [Method.memberFlags] using hinterface
    · simpa [hdecoded, Method.memberFlags, MemberRef.isField] using hfield
    · simp [ClassTable.modifiers?, hmethod, hdecoded, Method.memberFlags]
    · intro hkind
      rw [hdecoded] at hkind
      exact absurd (by simpa [Method.memberFlags] using hkind) hfield
    · intro hkind
      rw [hdecoded] at hkind ⊢
      rw [Method.memberFlags_isStatic]
      simpa [Method.memberFlags] using hstatic (by simpa [Method.memberFlags] using hkind)

/-- What a member name denotes stays, as classes and identities do. -/
theorem Machine.Denotes.mono {n : MemberName} {member : MemberRef} (h : m.Denotes n member)
    (hmembers : ∀ {id member}, m.members.get? id = some member →
      m'.members.get? id = some member)
    (hclasses : ∀ {id c}, m.classes.get? id = some c → m'.classes.get? id = some c) :
    m'.Denotes n member := by
  obtain ⟨c, hget, hclazz, hinterface⟩ := h.clazz
  have hget' := hclasses hget
  have htarget := h.target
  have hmodifiers := h.modifiers
  refine ⟨hmembers h.identity, ?_, ⟨c, hget', hclazz, hinterface⟩, h.kind, ?_, h.staticField,
    h.staticMethod⟩
  · -- Target and modifiers are read from the class of the member, which both tables have.
    cases member with
    | field r =>
      simp only [ClassTable.target?, ClassTable.field?_of_get? hget] at htarget
      simp only [ClassTable.target?, ClassTable.field?_of_get? hget', htarget]
    | method r =>
      simp only [ClassTable.target?, ClassTable.method?_of_get? hget] at htarget
      simp only [ClassTable.target?, ClassTable.method?_of_get? hget', htarget]
  · cases member with
    | field r =>
      simp only [ClassTable.modifiers?, ClassTable.field?_of_get? hget] at hmodifiers
      simp only [ClassTable.modifiers?, ClassTable.field?_of_get? hget', hmodifiers]
    | method r =>
      simp only [ClassTable.modifiers?, ClassTable.method?_of_get? hget] at hmodifiers
      simp only [ClassTable.modifiers?, ClassTable.method?_of_get? hget', hmodifiers]

/-- Other symbolic parts do not matter for what is denoted. -/
theorem Machine.Denotes.expanded {n : MemberName} {member : MemberRef} (h : m.Denotes n member)
    {name type clazz : Option Handle} (hclazz : clazz = n.clazz ∨ n.clazz = none) :
    m.Denotes { n with name, type, clazz } member := by
  obtain ⟨c, hget, hc, hinterface⟩ := h.clazz
  have hsame : clazz = n.clazz := hclazz.resolve_right (by rw [hc]; simp)
  subst hsame
  exact ⟨h.identity, h.target, ⟨c, hget, hc, hinterface⟩, h.kind, h.modifiers, h.staticField,
    h.staticMethod⟩

theorem Machine.namesSound_bare (config : HeapConfig) : (Machine.bare config).NamesSound where
  toSound := Machine.sound_bare config
  classObjects := by
    intro h id hobject
    simp [Machine.object?, Machine.bare, Heap.view, Heap.object?, Heap.address?, Heap.empty]
      at hobject
  names := by
    intro h n hobject
    simp [Machine.object?, Machine.bare, Heap.view, Heap.object?, Heap.address?, Heap.empty]
      at hobject

/-! ## One change -/

theorem Change.get?_classes {rule : Discipline} (h : Change rule m m') {i : ClassId} {c : Class}
    (hc : m.classes.get? i = some c) : m'.classes.get? i = some c :=
  (Changes.single h).get?_classes hc

/-- Which object a handle leads to after one handle was written to. -/
theorem update_eq_some {objects : Handle → Option Object} {handle h : Handle}
    {object : Option Object} {o : Object}
    (ho : Function.update objects handle object h = some o) :
    h = handle ∧ object = some o ∨ objects h = some o := by
  by_cases hh : h = handle
  · subst hh
    rw [Function.update_self] at ho
    exact Or.inl ⟨rfl, ho⟩
  · rw [Function.update_of_ne hh] at ho
    exact Or.inr ho

theorem Object.Ordinary.plain {object : Object} (h : object.Ordinary) : object.Plain := by
  cases object with
  | classObject id => cases h.1
  | memberName n => cases h.2
  | _ => trivial

/-- Where an object behind a handle comes from. -/
inductive Machine.Origin (m m' : Machine) (handle : Handle) : Object → Prop where
  | old {object : Object} (was : m.object? handle = some object) : m.Origin m' handle object
  | plain {object : Object} (h : object.Plain) : m.Origin m' handle object
  | defined {c : Class} (found : m'.classes.get? m.classes.size = some c)
      (classObject : c.classObject = handle) :
      m.Origin m' handle (.classObject m.classes.size)
  | filled {old new : MemberName} (was : m.object? handle = some (.memberName old))
      (fills : m.Fills old new) : m.Origin m' handle (.memberName new)

/-- The origins of the objects after a change. -/
theorem Change.origin (h : Change FreshNames m m') (hw : m.heap.WellFormed) {handle : Handle}
    {object : Object} (hobject : m'.object? handle = some object) :
    m.Origin m' handle object := by
  -- All effects but the first write behind one handle: either that one or another is looked at.
  cases h.effect hw with
  | kept objects _ => exact .old (objects ▸ hobject)
  | stored _ objects _ allowed =>
    rw [objects] at hobject
    rcases update_eq_some hobject with ⟨_, hnew⟩ | hother
    · cases hnew
      exact .plain (allowed.elim id id)
    · exact .old hother
  | @defined c _ _ objects classes =>
    rw [objects] at hobject
    rcases update_eq_some hobject with ⟨rfl, hnew⟩ | hother
    · cases hnew
      refine .defined (c := c) ?_ rfl
      rw [classes]
      exact m.classes.get?_push_size c
    · exact .old hother
  | filled was fills objects _ =>
    rw [objects] at hobject
    rcases update_eq_some hobject with ⟨rfl, hnew⟩ | hother
    · cases hnew
      exact .filled was fills
    · exact .old hother
  | amended _ ordinary objects _ =>
    rw [objects] at hobject
    rcases update_eq_some hobject with ⟨_, hnew⟩ | hother
    · cases hnew
      exact .plain ordinary.2.plain
    · exact .old hother
  | @changed _ old f was allowed objects _ =>
    rw [objects] at hobject
    rcases update_eq_some hobject with ⟨rfl, hnew⟩ | hother
    · cases hnew
      rcases allowed old ((read_eq_ok_iff hw).mpr was) with hsame | ⟨_, hplain⟩
      · exact .old (by rw [was, hsame])
      · exact .plain hplain
    · exact .old hother
  | released _ objects _ =>
    rw [objects] at hobject
    rcases update_eq_some hobject with ⟨_, hnew⟩ | hother
    · cases hnew
    · exact .old hother

/-- One change keeps the invariant. -/
theorem Change.namesSound (h : Change FreshNames m m') (hm : m.NamesSound) : m'.NamesSound where
  toSound := h.sound hm.toSound
  -- No change but a definition makes a class object, as outside code stores none.
  classObjects := by
    intro handle id hobject
    cases h.origin hm.heap hobject with
    | old was =>
      obtain ⟨c, hc, hhandle⟩ := hm.classObjects was
      exact ⟨c, h.get?_classes hc, hhandle⟩
    | plain hplain => exact hplain.elim
    | defined found classObject => exact ⟨_, found, classObject⟩
  names := by
    intro handle n hobject
    -- What was denoted before the change is denoted after it, so it is enough to look one step
    -- back.
    have hmono : ∀ {n member}, m.Denotes n member → m'.Denotes n member := fun hd =>
      hd.mono h.member_kept h.get?_classes
    cases h.origin hm.heap hobject with
    | old was => exact (hm.names was).imp_right (fun ⟨member, hd⟩ => ⟨member, hmono hd⟩)
    | plain hplain => exact Or.inl hplain
    | filled was fills =>
      cases fills with
      | settled settles =>
        obtain ⟨member, hd⟩ := hm.denotes settles
        exact Or.inr ⟨member, hmono hd⟩
      | expanded clazz_eq =>
        exact (hm.names was).imp_right (fun ⟨member, hd⟩ => ⟨member, hmono (hd.expanded clazz_eq)⟩)

/-! ## Runs -/

theorem Machine.Reachable.namesSound (h : m.Reachable FreshNames) : m.NamesSound := by
  obtain ⟨config, hchanges⟩ := h.changes
  exact hchanges.keeps Change.namesSound (Machine.namesSound_bare config)

/-- A member name that denotes a member has an identity and a target. -/
theorem Machine.Denotes.resolved (hm : m.Sound) {n : MemberName} {member : MemberRef}
    (h : m.Denotes n member) : n.vmindex ≠ 0 ∧ n.vmtarget ≠ 0 := by
  constructor
  · -- Identities are counted from one.
    intro hzero
    have hid := h.identity
    rw [hzero] at hid
    cases hid
  · have htarget := h.target
    obtain ⟨c, hget, _⟩ := h.clazz
    cases member with
    | field r =>
      simp only [ClassTable.target?, ClassTable.field?_of_get? hget, Option.map_eq_some_iff]
        at htarget
      obtain ⟨f, hf, htarget⟩ := htarget
      have hplaced := (hm.laid (ClassTable.mem_of_get? hget)).fields f (Array.mem_of_getElem? hf)
      exact htarget ▸ (Field.target_odd_iff hplaced).1
    | method r =>
      simp only [ClassTable.target?, Option.map_eq_some_iff] at htarget
      obtain ⟨_, _, htarget⟩ := htarget
      exact htarget ▸ r.target_ne_zero

/-- In every run that leaves the making and filling of member names to the machine,
    each member name is unresolved, or it has an identity and a target and denotes
    exactly one member. -/
theorem memberName_unresolved_or_denotes (h : m.Reachable FreshNames) {handle : Handle}
    {n : MemberName} (hread : m.heap.read handle = .ok (.memberName n)) :
    (n.vmindex = 0 ∧ n.vmtarget = 0) ∨
      (n.vmindex ≠ 0 ∧ n.vmtarget ≠ 0 ∧ ∃! member, m.Denotes n member) := by
  have hm := h.namesSound
  rcases hm.names ((read_eq_ok_iff hm.heap).mp hread) with hzero | ⟨member, hdenotes⟩
  · exact Or.inl hzero
  · obtain ⟨hindex, htarget⟩ := hdenotes.resolved hm.toSound
    refine Or.inr ⟨hindex, htarget, member, hdenotes, ?_⟩
    intro other hother
    have hid := hother.identity
    rw [hdenotes.identity, Option.some.injEq] at hid
    exact hid.symm

/-! ## A resolved member name -/

theorem Sample.freshNames : ∀ op ∈ Sample.operations, ∀ m, FreshNames m op.2 := by
  intro op hop m
  simp only [Sample.operations, List.mem_cons, List.not_mem_nil, or_false] at hop
  rcases hop with rfl | rfl | rfl | rfl | rfl | rfl | rfl <;> trivial

theorem Sample.reachable_resolved :
    ∃ m n, Machine.Reachable FreshNames m ∧ m.heap.read ⟨38⟩ = .ok (.memberName n) ∧
      n.vmindex = 1 := by
  have hgarbage : ∀ m, FreshNames m .collectGarbage := fun _ => trivial
  obtain ⟨m, _, hafter, _, _, _, object, hread, hname⟩ :=
    Sample.reachable_after hgarbage Sample.freshNames
  obtain ⟨n, hn, hindex⟩ := Option.map_eq_some_iff.mp hname
  refine ⟨Sample.resolved m, n, ?_, ?_, hindex⟩
  · exact hafter.step Sample.env (.resolveMemberName ⟨38⟩ none false)
      (Sample.invoker_runs hgarbage) trivial
  · cases object <;> cases hn
    exact hread

theorem scale_name_denotes :
    ∃ m n, Machine.Reachable FreshNames m ∧ m.heap.read ⟨38⟩ = .ok (.memberName n) ∧
      n.vmindex ≠ 0 ∧ n.vmtarget ≠ 0 ∧ ∃! member, m.Denotes n member := by
  obtain ⟨m, n, hreachable, hread, hindex⟩ := Sample.reachable_resolved
  refine ⟨m, n, hreachable, hread, ?_⟩
  refine (memberName_unresolved_or_denotes hreachable hread).resolve_left ?_
  intro hzero
  rw [hindex] at hzero
  exact absurd hzero.1 (by decide)

end Linkage
