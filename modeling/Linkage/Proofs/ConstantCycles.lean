import Mathlib.Logic.Relation
import Linkage.Proofs.Memos

/-! # Circular dynamic constants

    While a dynamic constant is being computed, its bootstrap method and its static
    arguments are resolved, dynamic constants among them. These may lead back to the
    constant itself. But then each of them is computed after another one of them, so none
    is the first to be remembered. So whatever the constants of a class need of each other,
    the memo of a constant is still empty when its bootstrap method answers or fails.

    * `Class.Needs c j k`: to compute the constant in slot `j`, that in slot `k` is
      resolved.
    * `Class.Unmet c memos T`: the slots of `T` are empty, and nothing has been forgotten
      that is in `memos`.
    * `lookup_callBootstrap`: computing a constant leaves its own slot empty. -/

namespace Linkage

open Link

variable {env : Environment} {c : Class} {Q : List (ConstantSlot × Handle) → Prop}
  {constant : Class → UInt16 → Bool → Link (Option Handle)} {index number : UInt16}

/-! ## What a dynamic constant needs -/

/-- The bootstrap method or a static argument of the dynamic constant in slot `j` is in
    slot `k`. -/
def Class.Needs (c : Class) (j k : UInt16) : Prop :=
  ∃ number name descriptor b, c.pool.get? j = some (.dynamic number name descriptor) ∧
    c.bootstrapMethod? number = some b ∧ (k = b.method ∨ k ∈ b.arguments)

/-- All arguments of the dynamic constant in a slot, from the first place of the array on. -/
def ArgumentCopy.all (index : UInt16) (count : Nat) (buffer : Handle) : ArgumentCopy :=
  { count := Int32.ofNat count
    index := Int32.ofNat index.toNat
    start := -4
    stop := Int32.ofNat count
    buffer
    position := 0
    resolve := true
    fallback := none }

theorem ArgumentCopy.slot?_all (index : UInt16) (count : Nat) (buffer : Handle) :
    (ArgumentCopy.all index count buffer).slot? = some index := by
  have hlt : index.toNat < 65536 := index.toNat_lt
  have hint : (Int32.ofNat index.toNat).toInt = index.toNat := by
    rw [Int32.toInt_ofNat_of_lt (by omega)]
  unfold ArgumentCopy.slot? ArgumentCopy.all
  rw [if_pos]
  · simp [hint]
  · refine ⟨?_, by rw [hint]; omega⟩
    rw [Int32.le_iff_toInt_le, hint]
    simp

/-- The dynamic constant of a request is that of its slot. -/
theorem dynamicConstant_eq_ok {r : ArgumentCopy} {m m' : Machine} {d : DynamicConstant}
    (h : r.dynamicConstant c m = (.ok d, m')) :
    m' = m ∧ ∃ index number, r.slot? = some index ∧
      c.pool.get? index = some (.dynamic number d.name d.descriptor) ∧
      c.bootstrapMethod? number = some d.bootstrap ∧
      (d.bootstrap.arguments.length : Int) = r.count.toInt := by
  unfold ArgumentCopy.dynamicConstant at h
  -- Each step goes on in one case only; in all the others the request fails.
  cases hslot : r.slot? with
  | none =>
    rw [hslot] at h
    cases h
  | some index =>
    rw [hslot, orFail_some, bind_of_ok (pure_run index m)] at h
    cases hentry : c.pool.get? index with
    | none =>
      rw [hentry] at h
      cases h
    | some entry =>
      rw [hentry] at h
      cases entry with
      | dynamic number name descriptor =>
        dsimp only at h
        cases hbootstrap : c.bootstrapMethod? number with
        | none =>
          rw [hbootstrap] at h
          cases h
        | some b =>
          rw [hbootstrap, orFail_some, bind_of_ok (pure_run b m)] at h
          split at h
          · cases h
          · rename_i hcount
            cases h
            exact ⟨rfl, index, number, rfl, hentry, hbootstrap, Decidable.not_not.mp hcount⟩
      | _ => cases h

/-! ## Copying arguments -/

theorem preserves_dynamicType (env : Environment) (d : DynamicConstant) :
    Preserves Q (dynamicType env d) := by
  unfold dynamicType
  grind

section Copying

variable {r : ArgumentCopy} {d : DynamicConstant}

theorem preserves_argumentValue (hmethod : Preserves Q (constant c d.bootstrap.method true))
    (harguments : ∀ a ∈ d.bootstrap.arguments, Preserves Q (constant c a r.resolve))
    (number : Int) : Preserves Q (argumentValue env constant r c d number) := by
  have htype := @preserves_dynamicType Q env d
  unfold argumentValue
  split
  · exact hmethod
  · split
    · exact preserves_map _ (preserves_intern d.name)
    · split
      · exact preserves_map _ htype
      · split
        · exact preserves_map _ (preserves_allocate _)
        · refine preserves_bind_orFail (fun a ha => ?_)
          refine preserves_bind (harguments a (List.mem_of_getElem? ha)) (fun value => ?_)
          cases value <;> exact preserves_pure _

theorem preserves_copyArgument (distance : Nat)
    (hvalue : ∀ number, Preserves Q (argumentValue env constant r c d number)) :
    Preserves Q (copyArgument env constant r c d distance) := by
  refine preserves_bind (hvalue _) (fun value => ?_)
  exact preserves_bind (preserves_resolve _) (fun place => preserves_updateAt place _)

/-- Copying preserves what resolving the constants of the slot preserves. -/
theorem preserves_copyArgumentsWith (hmethod : ∀ index k, r.slot? = some index →
      c.Needs index k → Preserves Q (constant c k true))
    (harguments : ∀ index k, r.slot? = some index → c.Needs index k →
      Preserves Q (constant c k r.resolve)) : Preserves Q (copyArgumentsWith env constant c r) := by
  refine preserves_bind (preserves_resolve _) (fun place => ?_)
  refine preserves_bind (preserves_readAt place) (fun object => ?_)
  refine preserves_bind (preserves_orFail _ _) (fun buffer => ?_)
  split
  · exact preserves_fail _
  · -- The request is looked at without resolving anything.
    have hdynamic : Preserves Q (r.dynamicConstant c) := by
      unfold ArgumentCopy.dynamicConstant
      grind
    refine keeps_bind_of_ok hdynamic (fun m d m' hd => ?_)
    obtain ⟨_, index, number, hslot, hentry, hbootstrap, _⟩ := dynamicConstant_eq_ok hd
    have hneeds : ∀ k, (k = d.bootstrap.method ∨ k ∈ d.bootstrap.arguments) → c.Needs index k :=
      fun k hk => ⟨number, _, _, d.bootstrap, hentry, hbootstrap, hk⟩
    refine preserves_bind (preserves_forEach (fun distance _ => ?_)) (fun _ => preserves_pure _)
    refine preserves_copyArgument distance (preserves_argumentValue ?_ ?_)
    · exact hmethod index _ hslot (hneeds _ (Or.inl rfl))
    · exact fun a ha => harguments index a hslot (hneeds a (Or.inr ha))

end Copying

theorem bars_argumentValue {r : ArgumentCopy} {d : DynamicConstant} {n : Nat} {a : UInt16}
    (ha : d.bootstrap.arguments[n]? = some a)
    (hbars : Bars (fun m => Q m.memos) (constant c a r.resolve)) :
    Bars (fun m => Q m.memos) (argumentValue env constant r c d n) := by
  unfold argumentValue
  rw [if_neg (by omega), if_neg (by omega), if_neg (by omega), if_neg (by omega), Int.toNat_natCast,
    ha, orFail_some]
  exact fun m hm => bars_bind hbars _ m hm

/-- Copying all arguments of a constant has no value where one of them has none. -/
theorem bars_copyArgumentsWith {count : Nat} {buffer : Handle}
    (hconstant : ∀ k, c.Needs index k → Preserves Q (constant c k true)) {k : UInt16}
    (hk : c.Needs index k) (hbars : Bars (fun m => Q m.memos) (constant c k true)) :
    Bars (fun m => Q m.memos)
      (copyArgumentsWith env constant c (ArgumentCopy.all index count buffer)) := by
  refine bars_bind_of_keeps (preserves_resolve _) (fun place => ?_)
  refine bars_bind_of_keeps (preserves_readAt place) (fun object => ?_)
  refine bars_bind_of_keeps (preserves_orFail _ _) (fun array => ?_)
  split
  · exact bars_fail _
  · have hdynamic : Preserves Q ((ArgumentCopy.all index count buffer).dynamicConstant c) := by
      unfold ArgumentCopy.dynamicConstant
      grind
    refine bars_bind_of_ok hdynamic (fun m d m' hd => ?_)
    obtain ⟨_, index', number, hslot, hentry, hbootstrap, hlength⟩ := dynamicConstant_eq_ok hd
    rw [ArgumentCopy.slot?_all, Option.some.injEq] at hslot
    subst hslot
    have hneeds : ∀ k, (k = d.bootstrap.method ∨ k ∈ d.bootstrap.arguments) → c.Needs index k :=
      fun k hk => ⟨number, _, _, d.bootstrap, hentry, hbootstrap, hk⟩
    have hcopy : ∀ distance, Preserves Q
        (copyArgument env constant (ArgumentCopy.all index count buffer) c d distance) :=
      fun distance => preserves_copyArgument distance (preserves_argumentValue
        (hconstant _ (hneeds _ (Or.inl rfl))) (fun a ha => hconstant a (hneeds a (Or.inr ha))))
    -- The one without a value is copied at some distance from the first.
    obtain ⟨distance, hdistance, hbarred⟩ : ∃ distance < d.bootstrap.arguments.length + 4,
        Bars (fun m => Q m.memos) (argumentValue env constant
          (ArgumentCopy.all index count buffer) c d (-4 + distance)) := by
      obtain ⟨number', _, _, b, hentry', hbootstrap', hk⟩ := hk
      rw [hentry] at hentry'
      cases hentry'
      rw [hbootstrap, Option.some.injEq] at hbootstrap'
      subst hbootstrap'
      rcases hk with rfl | hk
      · exact ⟨0, by omega, hbars⟩
      · obtain ⟨n, hn, hget⟩ := List.mem_iff_getElem.mp hk
        refine ⟨n + 4, by omega, ?_⟩
        rw [show (-4 + ((n + 4 : Nat) : Int)) = n by omega]
        exact bars_argumentValue (by rw [List.getElem?_eq_getElem hn, hget]) hbars
    have hstop : ((ArgumentCopy.all index count buffer).stop.toInt -
        (ArgumentCopy.all index count buffer).start.toInt).toNat =
        d.bootstrap.arguments.length + 4 := by
      have hsame : (ArgumentCopy.all index count buffer).stop.toInt =
          d.bootstrap.arguments.length := hlength.symm
      rw [hsame, show (ArgumentCopy.all index count buffer).start.toInt = -4 from rfl]
      omega
    refine bars_bind (bars_forEach (fun distance _ => hcopy distance) ?_ (bars_bind hbarred _)) _
    rw [hstop]
    exact List.mem_range.mpr hdistance

/-! ## Computing a constant -/

/-- Bootstrap methods do not resolve constants. -/
def Environment.Quiet (env : Environment) : Prop :=
  ∀ invoke, env.invoker = some invoke → ∀ c buffer m, (invoke c buffer m).2.memos = m.memos

theorem preserves_callBootstrap (hquiet : env.Quiet)
    (hconstant : ∀ k, c.Needs index k → Preserves Q (constant c k true)) :
    Preserves Q (callBootstrap env constant c index number) := by
  refine preserves_bind_orFail (fun invoke hinvoke => ?_)
  refine preserves_bind (preserves_orFail _ _) (fun bootstrap => ?_)
  refine preserves_bind (preserves_coreClass _) (fun object => ?_)
  refine preserves_bind (preserves_newArray _ _) (fun buffer => ?_)
  -- The request is one for this very slot, so it needs the same constants.
  have hslot : ∀ index' k, (ArgumentCopy.all index bootstrap.arguments.length buffer).slot? =
      some index' → c.Needs index' k → Preserves Q (constant c k true) := by
    intro index' k hslot hk
    rw [ArgumentCopy.slot?_all, Option.some.injEq] at hslot
    exact hconstant k (hslot ▸ hk)
  refine preserves_bind (preserves_copyArgumentsWith hslot hslot) (fun _ => ?_)
  refine preserves_bind (preserves_elements buffer) (fun arguments => ?_)
  refine preserves_bind (preserves_recordCall _) (fun _ => ?_)
  have hcall : Preserves Q (invoke c buffer) :=
    preserves_of_memos (hquiet invoke hinvoke c buffer)
  exact preserves_bind hcall (fun answer => preserves_orFail _ _)

theorem bars_callBootstrap (hconstant : ∀ k, c.Needs index k → Preserves Q (constant c k true))
    {k : UInt16} (hk : c.Needs index k) (hbars : Bars (fun m => Q m.memos) (constant c k true)) :
    Bars (fun m => Q m.memos) (callBootstrap env constant c index number) := by
  refine bars_bind_orFail (fun invoke hinvoke => ?_)
  refine bars_bind_of_keeps (preserves_orFail _ _) (fun bootstrap => ?_)
  refine bars_bind_of_keeps (preserves_coreClass _) (fun object => ?_)
  refine bars_bind_of_keeps (preserves_newArray _ _) (fun buffer => ?_)
  exact bars_bind (bars_copyArgumentsWith hconstant hk hbars) _

theorem bars_memoize {slot : ConstantSlot} {compute : Link Handle}
    (hslot : ∀ memos, Q memos → memos.lookup slot = none)
    (hcompute : Bars (fun m => Q m.memos) compute) :
    Bars (fun m => Q m.memos) (memoize slot compute) := by
  intro m hm
  unfold memoize
  rw [bind_of_ok (memo?_run slot m), hslot _ hm]
  exact bars_bind hcompute _ m hm

theorem ConstantPool.lt_size_of_get? {p : ConstantPool} {entry : PoolEntry}
    (h : p.get? index = some entry) : index.toNat < p.size := by
  refine Nat.lt_of_not_le (fun hsize => ?_)
  have hnone : p.slots[index.toNat]? = none := Array.getElem?_eq_none hsize
  unfold ConstantPool.get? at h
  rw [hnone] at h
  cases h

/-- The object of a constant that is resolved on first use. -/
theorem constantObjectWith_run {entry : PoolEntry} (hentry : c.pool.get? index = some entry)
    (hindex : index ≠ 0) (hlazy : entry.isLazy = true) (resolve : Bool) (m : Machine) :
    constantObjectWith env constant c index resolve m =
      match m.memos.lookup ⟨c.id, index⟩ with
      | some value => (.ok (some value), m)
      | none =>
          if resolve then resolveLazyWith env constant c index entry m else (.ok none, m) := by
  have hsize := ConstantPool.lt_size_of_get? hentry
  unfold constantObjectWith
  rw [if_neg (by simp [hindex, hsize]), hentry]
  dsimp only
  rw [bind_of_ok (memo?_run _ m), if_pos hlazy]
  cases m.memos.lookup ⟨c.id, index⟩ with
  | some value => rfl
  | none => cases resolve <;> rfl

/-! ## Constants of the other kinds -/

theorem preserves_resolveClassConstant (env : Environment) (hslot : ∀ name,
      c.pool.get? index = some (.classRef name) → Outlasts Q ⟨c.id, index⟩) :
    Preserves Q (resolveClassConstant env c index) := by
  refine preserves_bind_orFail (fun entry hentry => ?_)
  cases entry with
  | classRef name =>
    refine preserves_memoize (hslot name hentry) (fun m _ hm => ?_)
    exact preserves_bind (preserves_loadClass env name) (fun k => preserves_pure _) m hm
  | _ => exact preserves_fail _

theorem preserves_memberReferenceAt (c : Class) (reference : UInt16) :
    Preserves Q (memberReferenceAt c reference) := by
  refine preserves_bind_orFail (fun entry _ => ?_)
  cases entry <;> first | exact preserves_pure _ | exact preserves_fail _

/-- A method handle fills the slot of a class besides its own. -/
theorem preserves_newMethodHandle (env : Environment) (hslot : ∀ index name,
      c.pool.get? index = some (.classRef name) → Outlasts Q ⟨c.id, index⟩)
    (kind : ReferenceKind) (reference : UInt16) :
    Preserves Q (newMethodHandle env c kind reference) := by
  refine preserves_bind (preserves_memberReferenceAt c reference) (fun described => ?_)
  refine preserves_bind (preserves_resolveClassConstant env (hslot _)) (fun clazz => ?_)
  refine preserves_bind (preserves_intern _) (fun name => ?_)
  refine preserves_bind (preserves_intern _) (fun type => ?_)
  refine preserves_bind (preserves_allocate _) (fun mn => ?_)
  refine preserves_bind (preserves_resolveMemberName mn _ _) (fun resolved => ?_)
  cases resolved with
  | some member => exact preserves_allocate _
  | none => exact preserves_fail _

theorem preserves_resolveStringConstant (hslot : ∀ text,
      c.pool.get? index = some (.stringRef text) → Outlasts Q ⟨c.id, index⟩) :
    Preserves Q (resolveStringConstant c index) := by
  refine preserves_bind_orFail (fun entry hentry => ?_)
  cases entry with
  | stringRef text =>
    exact preserves_memoize (hslot text hentry) (fun m _ => preserves_intern text m)
  | _ => exact preserves_fail _

theorem preserves_resolveMethodTypeConstant (env : Environment) (hslot : ∀ descriptor,
      c.pool.get? index = some (.methodType descriptor) → Outlasts Q ⟨c.id, index⟩) :
    Preserves Q (resolveMethodTypeConstant env c index) := by
  refine preserves_bind_orFail (fun entry hentry => ?_)
  cases entry with
  | methodType descriptor =>
    exact preserves_memoize (hslot descriptor hentry)
      (fun m _ => preserves_newMethodType env descriptor m)
  | _ => exact preserves_fail _

theorem preserves_resolveMethodHandleConstant (env : Environment) (hclass : ∀ index name,
      c.pool.get? index = some (.classRef name) → Outlasts Q ⟨c.id, index⟩)
    (hslot : ∀ kind reference, c.pool.get? index = some (.methodHandle kind reference) →
      Outlasts Q ⟨c.id, index⟩) : Preserves Q (resolveMethodHandleConstant env c index) := by
  refine preserves_bind_orFail (fun entry hentry => ?_)
  cases entry with
  | methodHandle kind reference =>
    exact preserves_memoize (hslot kind reference hentry)
      (fun m _ => preserves_newMethodHandle env hclass kind reference m)
  | _ => exact preserves_fail _

theorem preserves_resolveDynamicConstantWith (hquiet : env.Quiet)
    (hslot : Outlasts Q ⟨c.id, index⟩)
    (hconstant : ∀ memos, Q memos → memos.lookup ⟨c.id, index⟩ = none → ∀ k, c.Needs index k →
      Preserves Q (constant c k true)) :
    Preserves Q (resolveDynamicConstantWith env constant c index) := by
  refine preserves_bind (preserves_orFail _ _) (fun entry => ?_)
  cases entry with
  | dynamic number name descriptor =>
    refine preserves_memoize hslot (fun m hempty hm => ?_)
    exact preserves_callBootstrap hquiet (hconstant m.memos hm hempty) m hm
  | _ => exact preserves_fail _

/-- Resolving a constant preserves what outlasts that its slot is filled, whatever dynamic
    constants are resolved by. -/
theorem preserves_constantObjectWith_of_outlasts (hquiet : env.Quiet)
    (hslot : Outlasts Q ⟨c.id, index⟩) (hclass : ∀ index name,
      c.pool.get? index = some (.classRef name) → Outlasts Q ⟨c.id, index⟩)
    (hconstant : ∀ memos, Q memos → memos.lookup ⟨c.id, index⟩ = none → ∀ k, c.Needs index k →
      Preserves Q (constant c k true)) (resolve : Bool) :
    Preserves Q (constantObjectWith env constant c index resolve) := by
  -- What is resolved lazily fills this slot, or one that `Q` outlasts too.
  have hlazy : ∀ entry, Preserves Q (resolveLazyWith env constant c index entry) := by
    intro entry
    cases entry with
    | classRef name =>
      exact preserves_map _ (preserves_resolveClassConstant env (fun _ _ => hslot))
    | stringRef text => exact preserves_map _ (preserves_resolveStringConstant (fun _ _ => hslot))
    | methodType descriptor =>
      exact preserves_map _ (preserves_resolveMethodTypeConstant env (fun _ _ => hslot))
    | methodHandle kind reference =>
      exact preserves_map _ (preserves_resolveMethodHandleConstant env hclass (fun _ _ _ => hslot))
    | dynamic number name descriptor =>
      exact preserves_map _ (preserves_resolveDynamicConstantWith hquiet hslot hconstant)
    | _ => exact preserves_pure none
  unfold constantObjectWith
  split
  · exact preserves_fail _
  · cases c.pool.get? index with
    | none => exact preserves_pure none
    | some entry =>
      refine preserves_bind (preserves_memo? _) (fun found => ?_)
      cases found with
      | some value => exact preserves_pure _
      | none =>
        -- The slot is empty: lazy constants are resolved if they may be, numbers are boxed.
        dsimp only
        split
        · split
          · exact hlazy entry
          · exact preserves_pure none
        · split
          · exact preserves_map _ (preserves_allocate _)
          · exact preserves_pure none

/-! ## Slots that stay empty -/

/-- The slots of `T` are empty, and nothing has been forgotten. -/
def Class.Unmet (c : Class) (memos₀ : List (ConstantSlot × Handle)) (T : UInt16 → Prop)
    (memos : List (ConstantSlot × Handle)) : Prop :=
  (∀ slot, memos.lookup slot = none → memos₀.lookup slot = none) ∧
    ∀ j, T j → memos.lookup ⟨c.id, j⟩ = none

theorem lookup_cons_eq_none_iff {slot slot' : ConstantSlot} {value : Handle}
    {memos : List (ConstantSlot × Handle)} :
    ((slot, value) :: memos).lookup slot' = none ↔ slot' ≠ slot ∧ memos.lookup slot' = none := by
  by_cases h : slot' = slot
  · subst h
    simp
  · rw [List.lookup_cons, beq_eq_false_iff_ne.mpr h]
    exact ⟨fun hnone => ⟨h, hnone⟩, fun hnone => hnone.2⟩

section Unmet

variable {memos₀ : List (ConstantSlot × Handle)} {T : UInt16 → Prop}
  (hT : ∀ j, T j → ∃ number name descriptor,
    c.pool.get? j = some (.dynamic number name descriptor))

/-- Slots outside of `T` may be filled. -/
theorem Class.outlasts_unmet_of_ne {slot : ConstantSlot} (hslot : ∀ j, T j → ⟨c.id, j⟩ ≠ slot) :
    Outlasts (c.Unmet memos₀ T) slot := by
  intro memos value _ h
  refine ⟨fun other hother => ?_, fun j hj => ?_⟩
  · exact h.1 other (lookup_cons_eq_none_iff.mp hother).2
  · exact lookup_cons_eq_none_iff.mpr ⟨hslot j hj, h.2 j hj⟩

theorem Class.outlasts_unmet (hindex : ¬ T index) :
    Outlasts (c.Unmet memos₀ T) ⟨c.id, index⟩ := by
  refine Class.outlasts_unmet_of_ne (fun j hj he => ?_)
  cases he
  exact hindex hj

include hT

theorem Class.outlasts_unmet_of_classRef (index : UInt16) (name : String)
    (hentry : c.pool.get? index = some (.classRef name)) :
    Outlasts (c.Unmet memos₀ T) ⟨c.id, index⟩ := by
  refine Class.outlasts_unmet (fun hTindex => ?_)
  obtain ⟨_, _, _, hdynamic⟩ := hT index hTindex
  rw [hentry] at hdynamic
  cases hdynamic

/-- Resolving a constant outside of `T`, whatever dynamic constants are resolved by. -/
theorem preserves_constantObjectWith (hquiet : env.Quiet) (hindex : ¬ T index)
    (hconstant : memos₀.lookup ⟨c.id, index⟩ = none → ∀ k, c.Needs index k →
      Preserves (c.Unmet memos₀ T) (constant c k true)) (resolve : Bool) :
    Preserves (c.Unmet memos₀ T) (constantObjectWith env constant c index resolve) :=
  preserves_constantObjectWith_of_outlasts hquiet (Class.outlasts_unmet hindex)
    (Class.outlasts_unmet_of_classRef hT)
    (fun _ hmemos hempty => hconstant (hmemos.1 _ hempty)) resolve

/-- A constant of `T` that needs another one cannot be resolved, if that one cannot. -/
theorem bars_resolveDynamicConstantWith (hindex : T index)
    (hconstant : ∀ k, c.Needs index k → Preserves (c.Unmet memos₀ T) (constant c k true))
    {k : UInt16} (hk : c.Needs index k)
    (hbars : Bars (fun m => c.Unmet memos₀ T m.memos) (constant c k true)) :
    Bars (fun m => c.Unmet memos₀ T m.memos)
      (resolveDynamicConstantWith env constant c index) := by
  obtain ⟨number, name, descriptor, hentry⟩ := hT index hindex
  unfold resolveDynamicConstantWith constantAt
  rw [hentry]
  exact bars_memoize (fun memos hmemos => hmemos.2 index hindex)
    (bars_callBootstrap hconstant hk hbars)

variable (hclosed : ∀ j k, memos₀.lookup ⟨c.id, j⟩ = none → c.Needs j k → ¬ T j → ¬ T k)

include hclosed

/-- Resolving a constant outside of `T` fills no slot of `T`. -/
theorem preserves_constantObjectWithin (hquiet : env.Quiet) (bound : Nat) (hindex : ¬ T index)
    (resolve : Bool) :
    Preserves (c.Unmet memos₀ T) (constantObjectWithin env bound c index resolve) := by
  induction bound generalizing index resolve with
  | zero => exact preserves_failWith _
  | succ bound ih =>
    refine preserves_constantObjectWith hT hquiet hindex (fun hempty k hk => ?_) resolve
    exact ih (hclosed index k hempty hk hindex) true

/-- If each constant of `T` needs another one, then no constant of `T` can be resolved. -/
theorem bars_constantObjectWithin (hquiet : env.Quiet)
    (hneeds : ∀ j, T j → ∃ k, c.Needs j k ∧ T k) (bound : Nat) (hindex : T index) :
    Bars (fun m => c.Unmet memos₀ T m.memos) (constantObjectWithin env bound c index true) := by
  induction bound generalizing index with
  | zero => exact fun _ hm => ⟨hm, fun _ he => by cases he⟩
  | succ bound ih =>
    -- What the constant needs is barred, or outside of `T`.
    have hconstant : ∀ k, c.Needs index k →
        Preserves (c.Unmet memos₀ T) (constantObjectWithin env bound c k true) := by
      intro k hk
      by_cases hTk : T k
      · exact (ih hTk).keeps
      · exact preserves_constantObjectWithin hT hclosed hquiet bound hTk true
    obtain ⟨k, hk, hTk⟩ := hneeds index hindex
    obtain ⟨number, name, descriptor, hentry⟩ := hT index hindex
    show Bars _ (constantObjectWith env (constantObjectWithin env bound) c index true)
    by_cases hzero : index = 0
    · unfold constantObjectWith
      rw [if_pos (by simp [hzero])]
      exact bars_fail _
    · intro m hm
      rw [constantObjectWith_run hentry hzero rfl, hm.2 index hindex]
      exact bars_bind (bars_resolveDynamicConstantWith hT hindex hconstant hk (ih hTk)) _ m hm

end Unmet

/-! ## The slot of a constant that is being computed -/

/-- Whether or not constants that need each other lead back to it, the slot of a dynamic
    constant is still empty when it has been computed. -/
theorem lookup_callBootstrap (hquiet : env.Quiet) {name descriptor : String}
    (hentry : c.pool.get? index = some (.dynamic number name descriptor)) (bound : Nat)
    {m : Machine} (hempty : m.memos.lookup ⟨c.id, index⟩ = none) :
    (callBootstrap env (constantObjectWithin env bound) c index number m).2.memos.lookup
      ⟨c.id, index⟩ = none := by
  -- `j` waits for `k` if it is not resolved yet and needs `k`.
  let Waits (j k : UInt16) : Prop := m.memos.lookup ⟨c.id, j⟩ = none ∧ c.Needs j k
  let T (j : UInt16) : Prop := Relation.ReflTransGen Waits j index
  have hstart : c.Unmet m.memos T m.memos := by
    refine ⟨fun _ hslot => hslot, fun j hj => ?_⟩
    rcases Relation.ReflTransGen.cases_head hj with rfl | ⟨k, hjk, _⟩
    · exact hempty
    · exact hjk.1
  have hT : ∀ j, T j → ∃ number name descriptor,
      c.pool.get? j = some (.dynamic number name descriptor) := by
    intro j hj
    rcases Relation.ReflTransGen.cases_head hj with
      rfl | ⟨k, ⟨_, number, name, descriptor, _, hj, _⟩, _⟩
    · exact ⟨number, name, descriptor, hentry⟩
    · exact ⟨number, name, descriptor, hj⟩
  have hclosed : ∀ j k, m.memos.lookup ⟨c.id, j⟩ = none → c.Needs j k → ¬ T j → ¬ T k :=
    fun j k hj hjk hTj hTk => hTj (Relation.ReflTransGen.head ⟨hj, hjk⟩ hTk)
  have hconstant : ∀ k, c.Needs index k →
      Preserves (c.Unmet m.memos T) (constantObjectWithin env bound c k true) := by
    intro k hk
    by_cases hTk : T k
    · -- The constant leads back to itself, so each of those that wait for it waits for
      -- another one.
      have hneeds : ∀ j, T j → ∃ k, c.Needs j k ∧ T k := by
        intro j hj
        rcases Relation.ReflTransGen.cases_head hj with rfl | ⟨k', hjk, hk'⟩
        · exact ⟨k, hk, hTk⟩
        · exact ⟨k', hjk.2, hk'⟩
      exact (bars_constantObjectWithin hT hclosed hquiet hneeds bound hTk).keeps
    · exact preserves_constantObjectWithin hT hclosed hquiet bound hTk true
  have hend : Preserves (c.Unmet m.memos T)
      (callBootstrap env (constantObjectWithin env bound) c index number) :=
    preserves_callBootstrap hquiet hconstant
  exact (hend m hstart).2 index Relation.ReflTransGen.refl

end Linkage
