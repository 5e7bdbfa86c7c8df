import Mathlib.Data.List.Nodup
import Linkage.Proofs.Effects

/-! # Faithful identities

    A registry is only ever asked two things: the identity of a member, and the member
    with an identity. Whatever the order of the calls,

    * the identities that were handed out number the members in the order of their first
      use (`RegistryRun.members_eq`), and no member has two of them (`RegistryRun.nodup`),
    * the numbers under which the members are put down and the list of members in their
      order are inverse to each other (`RegistryRun.lookup_eq_some_iff`),
    * an identity was handed out for a member exactly if it leads back to this member
      (`RegistryRun.identified_iff`).

    The direct target of a method is a second identity, made from its place alone. -/

namespace Linkage

/-! ## Calls -/

/-- A call of a registry, with its answer. -/
inductive RegistryEvent where
  /-- A member was given its identity. -/
  | identified (member : MemberRef) (id : Nat)
  /-- The member with an identity was looked up. -/
  | looked (id : Nat) (found : Option MemberRef)
  deriving DecidableEq

/-- The calls of a registry so far, the latest in front, and the registry after them. -/
inductive RegistryRun : List RegistryEvent → MemberRegistry → Prop where
  | start : RegistryRun [] MemberRegistry.empty
  | identify {history : List RegistryEvent} {r : MemberRegistry} (before : RegistryRun history r)
      (member : MemberRef) :
      RegistryRun (.identified member (r.identify member).1 :: history) (r.identify member).2
  | get {history : List RegistryEvent} {r : MemberRegistry} (before : RegistryRun history r)
      (id : Nat) : RegistryRun (.looked id (r.get? id) :: history) r

/-- The member that a call asks about. -/
def RegistryEvent.member? : RegistryEvent → Option MemberRef
  | identified member _ => some member
  | looked _ _ => none

/-- The members that were asked about, each once, in the order of their first use. -/
def firstUses (history : List RegistryEvent) : List MemberRef :=
  (history.reverse.filterMap RegistryEvent.member?).eraseDups

theorem firstUses_identified (member : MemberRef) (id : Nat) (history : List RegistryEvent) :
    firstUses (.identified member id :: history) =
      if member ∈ firstUses history then firstUses history
      else firstUses history ++ [member] := by
  simp only [firstUses, List.reverse_cons, List.filterMap_append, List.eraseDups_append,
    List.mem_eraseDups]
  show _ ++ (List.removeAll [member] _).eraseDups = _
  split
  · rename_i hmem
    simp only [List.removeAll, List.filter_cons, List.elem_eq_mem, hmem]
    simp
  · rename_i hmem
    simp only [List.removeAll, List.filter_cons, List.elem_eq_mem, hmem]
    simp [List.eraseDups_cons]

theorem firstUses_looked (id : Nat) (found : Option MemberRef) (history : List RegistryEvent) :
    firstUses (.looked id found :: history) = firstUses history := by
  simp [firstUses, List.filterMap_cons, RegistryEvent.member?]

/-! ## One call -/

/-- The members that have a number are those that were seen. -/
theorem MemberRegistry.lookup_eq_none_iff (r : MemberRegistry) (member : MemberRef) :
    r.ids.lookup member = none ↔ member ∉ r.members := by
  constructor
  · intro hnone hmem
    obtain ⟨i, hi, rfl⟩ := Array.mem_iff_getElem.mp hmem
    obtain ⟨id, hid⟩ := r.known (Array.getElem?_eq_getElem hi)
    rw [hid] at hnone
    cases hnone
  · intro hnew
    cases hids : r.ids.lookup member with
    | none => rfl
    | some id =>
      obtain ⟨i, _, hi⟩ := r.found hids
      exact absurd (Array.mem_of_getElem? hi) hnew

/-- The members with identities are those of before, and the one that was asked about. -/
theorem MemberRegistry.get?_identify_iff (r : MemberRegistry) (member other : MemberRef)
    (id : Nat) : (r.identify member).2.get? id = some other ↔
      r.get? id = some other ∨ id = (r.identify member).1 ∧ other = member := by
  obtain ⟨old, hold, he⟩ | ⟨_, he⟩ := r.identify_cases member
  · rw [he]
    constructor
    · exact .inl
    · rintro (hget | ⟨rfl, rfl⟩)
      · exact hget
      · exact r.get?_of_lookup hold
  · -- The member is new, and gets the identity behind the last one.
    rw [he]
    cases id with
    | zero => simp [MemberRegistry.get?]
    | succ i =>
      simp only [MemberRegistry.get?, MemberRegistry.push, Array.getElem?_push,
        Nat.add_right_cancel_iff]
      split
      · rename_i hsize
        subst hsize
        simp [eq_comm]
      · simp_all

/-! ## Runs -/

namespace RegistryRun

variable {history : List RegistryEvent} {r : MemberRegistry}

/-- The registry holds the members in the order of their first use. -/
theorem members_eq (h : RegistryRun history r) : r.members.toList = firstUses history := by
  induction h with
  | start => rfl
  | @identify history r _ member ih =>
    rw [firstUses_identified, ← ih]
    obtain ⟨id, hid, he⟩ | ⟨hnew, he⟩ := r.identify_cases member
    · obtain ⟨i, _, hi⟩ := r.found hid
      rw [he, if_pos (Array.mem_toList_iff.mpr (Array.mem_of_getElem? hi))]
    · rw [r.lookup_eq_none_iff] at hnew
      rw [he, if_neg (fun hmem => hnew (Array.mem_toList_iff.mp hmem)), MemberRegistry.push,
        Array.toList_push]
  | get _ id ih => rw [firstUses_looked, ih]

theorem nodup (h : RegistryRun history r) : (firstUses history).Nodup := by
  induction h with
  | start => exact List.nodup_nil
  | identify _ member ih =>
    rw [firstUses_identified]
    split
    · exact ih
    · rename_i hnew
      exact List.nodup_append.mpr ⟨ih, List.nodup_singleton member, fun a ha b hb =>
        fun hab => hnew (by rwa [← List.mem_singleton.mp hb, ← hab])⟩
  | get _ id ih =>
    rw [firstUses_looked]
    exact ih

/-- Looking up an identity goes by the order of first use. -/
theorem get?_succ (h : RegistryRun history r) (i : Nat) :
    r.get? (i + 1) = (firstUses history)[i]? := by
  rw [← h.members_eq, Array.getElem?_toList]
  rfl

/-- The numbers of the members and the way back from them are inverse to each other. -/
theorem lookup_eq_some_iff (h : RegistryRun history r) (member : MemberRef) (id : Nat) :
    r.ids.lookup member = some id ↔ r.get? id = some member := by
  constructor
  · exact r.get?_of_lookup
  · intro hget
    cases id with
    | zero => cases hget
    | succ i =>
      -- The member has some number, which leads to a place where it stands, and it stands once.
      obtain ⟨id, hid⟩ := r.known hget
      obtain ⟨j, rfl, hj⟩ := r.found hid
      have hi : (firstUses history)[i]? = some member := h.get?_succ i ▸ hget
      have hj : (firstUses history)[j]? = some member := h.get?_succ j ▸ hj
      obtain ⟨hlt, _⟩ := List.getElem?_eq_some_iff.mp hi
      rw [hid, (List.getElem?_inj hlt h.nodup).mp (hi.trans hj.symm)]

/-- The identities that were handed out are those that lead back to a member. -/
theorem identified_iff (h : RegistryRun history r) (member : MemberRef) (id : Nat) :
    .identified member id ∈ history ↔ r.get? id = some member := by
  induction h with
  | start => cases id <;> simp [MemberRegistry.get?, MemberRegistry.empty]
  | @identify history r _ asked ih =>
    rw [List.mem_cons, MemberRegistry.get?_identify_iff, ← ih, RegistryEvent.identified.injEq]
    tauto
  | get _ asked ih =>
    rw [List.mem_cons, ← ih]
    simp

/-- Two identities that were handed out are equal exactly if their members are. -/
theorem id_eq_iff (h : RegistryRun history r) {member member' : MemberRef} {id id' : Nat}
    (hid : .identified member id ∈ history) (hid' : .identified member' id' ∈ history) :
    id = id' ↔ member = member' := by
  rw [h.identified_iff] at hid hid'
  constructor
  · rintro rfl
    rw [hid, Option.some.injEq] at hid'
    exact hid'
  · rintro rfl
    -- Identities are places in the list of first uses, where each member stands once.
    cases id with
    | zero => cases hid
    | succ i =>
      cases id' with
      | zero => cases hid'
      | succ j =>
        rw [h.get?_succ] at hid hid'
        obtain ⟨hi, hmember⟩ := List.getElem?_eq_some_iff.mp hid
        exact congrArg (· + 1)
          ((List.getElem?_inj hi h.nodup).mp (hid.trans hid'.symm))

end RegistryRun

/-! ## Targets -/

theorem MethodRef.target_pos (r : MethodRef) : 0 < r.target := by
  unfold MethodRef.target
  omega

/-- A class of 32 bits and a place of 16 bits fit into a word. -/
theorem MethodRef.target_lt (r : MethodRef) (h : r.owner < UInt32.size) :
    r.target < UInt64.size := by
  have hindex := r.index.toNat_lt
  have howner : Nat.succ r.owner ≤ 4294967296 := h
  unfold MethodRef.target UInt64.size
  omega

theorem MethodRef.target_inj {r r' : MethodRef} : r.target = r'.target ↔ r = r' := by
  constructor
  · intro h
    obtain ⟨owner, index⟩ := r
    obtain ⟨owner', index'⟩ := r'
    have hindex := index.toNat_lt
    have hindex' := index'.toNat_lt
    unfold MethodRef.target at h
    dsimp only at h
    -- Each class has 65536 targets of its own.
    obtain hlt | rfl | hlt := Nat.lt_trichotomy owner owner'
    · omega
    · exact congrArg _ (UInt16.toNat_inj.mp (by omega))
    · omega
  · exact congrArg MethodRef.target

/-! ## Faithful identities -/

/-- After any calls of a registry, with `n` different members asked about:

    * the identities handed out are 1 to `n`, and the one of a member is its position in
      the order of first use,
    * a member has one identity, and different members have different ones,
    * the identity of a member is put down under it, so that it is the answer from now on,
    * each leads back to its member, and 0 and what is above `n` lead nowhere.

    Targets of methods are not zero, fit into a word and tell methods apart, so two
    methods have the same target exactly if they have the same identity. -/
theorem identities_faithful {history : List RegistryEvent} {r : MemberRegistry}
    (h : RegistryRun history r) :
    (∀ member id, .identified member id ∈ history ↔
      ∃ i, id = i + 1 ∧ (firstUses history)[i]? = some member) ∧
    (∀ id, (∃ member, .identified member id ∈ history) ↔
      0 < id ∧ id ≤ (firstUses history).length) ∧
    (∀ member member' id id', .identified member id ∈ history →
      .identified member' id' ∈ history → (id = id' ↔ member = member')) ∧
    (∀ member id, .identified member id ∈ history ↔ r.ids.lookup member = some id) ∧
    (∀ member id, .identified member id ∈ history → r.identify member = (id, r)) ∧
    (∀ member id, r.ids.lookup member = some id ↔ r.get? id = some member) ∧
    (∀ member id, .identified member id ∈ history → r.get? id = some member) ∧
    (∀ id, id = 0 ∨ (firstUses history).length < id → r.get? id = none) ∧
    (∀ method : MethodRef, method.target ≠ 0 ∧
      (method.owner < UInt32.size → method.target < UInt64.size)) ∧
    (∀ method method' : MethodRef, method.target = method'.target ↔ method = method') ∧
    (∀ method method' id id', .identified (.method method) id ∈ history →
      .identified (.method method') id' ∈ history →
      (method.target = method'.target ↔ id = id')) := by
  -- An identity is one more than a place in the list of first uses.
  have hplace : ∀ member id, .identified member id ∈ history ↔
      ∃ i, id = i + 1 ∧ (firstUses history)[i]? = some member := by
    intro member id
    rw [h.identified_iff]
    cases id with
    | zero => simp [MemberRegistry.get?]
    | succ i =>
      rw [h.get?_succ]
      simp
  have hlookup : ∀ member id, .identified member id ∈ history ↔ r.ids.lookup member = some id := by
    intro member id
    rw [h.identified_iff, h.lookup_eq_some_iff]
  refine ⟨hplace, ?_, fun member member' id id' => h.id_eq_iff, hlookup,
    fun member id hid => MemberRegistry.identify_eq_self_iff.mpr ((hlookup member id).mp hid),
    h.lookup_eq_some_iff, fun member id => (h.identified_iff member id).mp, ?_,
    fun method => ⟨Nat.ne_of_gt method.target_pos, method.target_lt⟩,
    fun method method' => MethodRef.target_inj, ?_⟩
  · intro id
    simp only [hplace]
    constructor
    · rintro ⟨member, i, rfl, hi⟩
      exact ⟨Nat.succ_pos i, (List.getElem?_eq_some_iff.mp hi).1⟩
    · rintro ⟨hpos, hle⟩
      obtain ⟨i, rfl⟩ := Nat.exists_eq_add_one.mpr hpos
      exact ⟨(firstUses history)[i], i, rfl, List.getElem?_eq_getElem hle⟩
  · rintro id (rfl | hlarge)
    · rfl
    · obtain ⟨i, rfl⟩ := Nat.exists_eq_add_one.mpr (Nat.zero_lt_of_lt hlarge)
      rw [h.get?_succ]
      exact List.getElem?_eq_none (Nat.le_of_lt_succ hlarge)
  · -- Targets and identities both tell methods apart.
    intro method method' id id' hid hid'
    rw [MethodRef.target_inj, h.id_eq_iff hid hid', MemberRef.method.injEq]

/-- A field, a method at the same place, the field again, and two lookups. -/
theorem identities_faithful_sample :
    ∃ (history : List RegistryEvent) (r : MemberRegistry), RegistryRun history r ∧
      history = [.looked 3 none, .looked 2 (some (.method ⟨3, 1⟩)), .identified (.field ⟨3, 1⟩) 1,
        .identified (.method ⟨3, 1⟩) 2, .identified (.field ⟨3, 1⟩) 1] ∧
      firstUses history = [.field ⟨3, 1⟩, .method ⟨3, 1⟩] ∧
      r.ids.lookup (.method ⟨3, 1⟩) = some 2 ∧ r.get? 1 = some (.field ⟨3, 1⟩) ∧ r.get? 3 = none := by
  have run := ((((RegistryRun.start.identify (.field ⟨3, 1⟩)).identify (.method ⟨3, 1⟩)).identify
    (.field ⟨3, 1⟩)).get 2).get 3
  obtain ⟨-, -, -, hids, -, -, hget, hnone, -⟩ := identities_faithful run
  exact ⟨_, _, run, by decide +kernel, by decide +kernel, (hids _ 2).mp (by decide +kernel),
    hget _ 1 (by decide +kernel), hnone 3 (.inr (by decide +kernel))⟩

end Linkage
