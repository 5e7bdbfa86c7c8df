import Linkage.Proofs.ResolutionEnds

/-! # Dynamic constants that wait for each other

    If what a dynamic constant needs leads to a cycle of constants that are not resolved yet,
    then none of these is ever resolved: each of them is computed after another one.

    * `Machine.Stuck m c j`: so it is with the constant in slot `j`.
    * `AnsweredRun.blocks`: the slots of such constants stay empty, whatever is done.
    * `dynamic_constants_end`: the resolution of dynamic constants ends, and fails for such
      constants. -/

namespace Linkage

open Link Relation

variable {α β : Type} {rule kept : Discipline} {env : Environment} {m m' : Machine} {c d : Class}
  {index : UInt16}

/-! ## Cycles -/

/-- The dynamic constant in slot `j` is not resolved yet, and needs that in slot `k`. -/
def Machine.Waits (m : Machine) (c : Class) (j k : UInt16) : Prop :=
  m.memos.lookup ⟨c.id, j⟩ = none ∧ c.Needs j k

/-- What the constant in slot `j` waits for leads to a cycle. -/
def Machine.Stuck (m : Machine) (c : Class) (j : UInt16) : Prop :=
  ∃ k, ReflTransGen (m.Waits c) j k ∧ TransGen (m.Waits c) k k

namespace Machine.Stuck

/-- A constant that is stuck waits for another one that is. -/
theorem exists_waits {j : UInt16} (h : m.Stuck c j) : ∃ k, m.Waits c j k ∧ m.Stuck c k := by
  obtain ⟨k, hpath, hcycle⟩ := h
  rcases ReflTransGen.cases_head hpath with rfl | ⟨next, hfirst, hrest⟩
  · obtain ⟨next, hfirst, hrest⟩ := TransGen.head'_iff.mp hcycle
    exact ⟨next, hfirst, j, hrest, hcycle⟩
  · exact ⟨next, hfirst, k, hrest, hcycle⟩

theorem of_waits {j k : UInt16} (hwaits : m.Waits c j k) (h : m.Stuck c k) : m.Stuck c j := by
  obtain ⟨l, hpath, hcycle⟩ := h
  exact ⟨l, hpath.head hwaits, hcycle⟩

theorem lookup {j : UInt16} (h : m.Stuck c j) : m.memos.lookup ⟨c.id, j⟩ = none := by
  obtain ⟨_, hwaits, _⟩ := h.exists_waits
  exact hwaits.1

theorem dynamic (j : UInt16) (h : m.Stuck c j) : ∃ number name descriptor,
    c.pool.get? j = some (.dynamic number name descriptor) := by
  obtain ⟨_, ⟨_, number, name, descriptor, _, hentry, _⟩, _⟩ := h.exists_waits
  exact ⟨number, name, descriptor, hentry⟩

theorem needs (j : UInt16) (h : m.Stuck c j) : ∃ k, c.Needs j k ∧ m.Stuck c k := by
  obtain ⟨k, hwaits, hk⟩ := h.exists_waits
  exact ⟨k, hwaits.2, hk⟩

theorem closed (j k : UInt16) (hempty : m.memos.lookup ⟨c.id, j⟩ = none) (hneeds : c.Needs j k)
    (hj : ¬ m.Stuck c j) : ¬ m.Stuck c k :=
  fun hk => hj (of_waits ⟨hempty, hneeds⟩ hk)

end Machine.Stuck

/-! ## Resolving constants -/

/-- A constant that is not to be resolved is at most boxed. -/
theorem preserves_constantObjectWith_unresolved {Q : List (ConstantSlot × Handle) → Prop}
    {constant : Class → UInt16 → Bool → Link (Option Handle)} :
    Preserves Q (constantObjectWith env constant c index false) := by
  unfold constantObjectWith
  split
  · exact preserves_fail _
  split
  · exact preserves_pure none
  refine preserves_bind (preserves_memo? _) (fun found => ?_)
  cases found with
  | some value => exact preserves_pure _
  | none =>
    -- An entry that is resolved lazily stays as it is; a number is boxed.
    dsimp only
    split
    · exact preserves_pure none
    · split
      · exact preserves_map _ (preserves_allocate _)
      · exact preserves_pure none

section Resolving

variable (hquiet : env.Quiet) (hd : d.id = c.id → d = c)

/-- The slot of a constant of another kind may be filled. -/
theorem outlasts_of_entry (hd : d.id = c.id → d = c) {entry : PoolEntry}
    (hentry : d.pool.get? index = some entry)
    (hother : ∀ number name descriptor, entry ≠ .dynamic number name descriptor) :
    Outlasts (c.Unmet m.memos (m.Stuck c)) ⟨d.id, index⟩ := by
  refine Class.outlasts_unmet_of_ne (fun j hj he => ?_)
  obtain ⟨hid, rfl⟩ := ConstantSlot.mk.inj he
  obtain rfl := hd hid.symm
  obtain ⟨number, name, descriptor, hdynamic⟩ := hj.dynamic
  rw [hentry, Option.some.injEq] at hdynamic
  exact hother number name descriptor hdynamic

include hquiet hd

/-- Whatever constants of whatever class are resolved, the slots of those that are stuck stay
    empty. -/
theorem unmet_constantObjectWithin (bound : Nat) (index : UInt16) (resolve : Bool) :
    Preserves (c.Unmet m.memos (m.Stuck c))
      (constantObjectWithin env bound d index resolve) := by
  by_cases hsame : d = c
  · subst hsame
    by_cases hstuck : m.Stuck d index
    · -- A constant that is stuck is barred; unless it is to be resolved, nothing happens.
      cases resolve with
      | true =>
        exact (bars_constantObjectWithin Machine.Stuck.dynamic Machine.Stuck.closed hquiet
          Machine.Stuck.needs bound hstuck).keeps
      | false =>
        cases bound with
        | zero => exact preserves_failWith _
        | succ bound => exact preserves_constantObjectWith_unresolved
    · exact preserves_constantObjectWithin Machine.Stuck.dynamic Machine.Stuck.closed hquiet bound
        hstuck resolve
  · -- Constants of another class have other slots, whatever they need.
    have hslot : ∀ index, Outlasts (c.Unmet m.memos (m.Stuck c)) ⟨d.id, index⟩ := by
      refine fun index => Class.outlasts_unmet_of_ne (fun j _ he => hsame (hd ?_))
      exact (ConstantSlot.mk.inj he).1.symm
    induction bound generalizing index resolve with
    | zero => exact preserves_failWith _
    | succ bound ih =>
      exact preserves_constantObjectWith_of_outlasts hquiet (hslot index)
        (fun index _ _ => hslot index) (fun _ _ _ k _ => ih k true) resolve

theorem unmet_resolveDynamicConstant (index : UInt16) :
    Preserves (c.Unmet m.memos (m.Stuck c)) (resolveDynamicConstant env d index) := by
  refine preserves_bind (preserves_view _) (fun bound => ?_)
  have hconstant := fun k => unmet_constantObjectWithin (m := m) hquiet hd bound k true
  by_cases hstuck : d = c ∧ m.Stuck c index
  · -- What it needs is stuck too, so it fails before its slot is filled.
    obtain ⟨rfl, hindex⟩ := hstuck
    obtain ⟨k, hk, hkstuck⟩ := hindex.needs
    exact (bars_resolveDynamicConstantWith Machine.Stuck.dynamic hindex (fun k _ => hconstant k) hk
      (bars_constantObjectWithin Machine.Stuck.dynamic Machine.Stuck.closed hquiet
        Machine.Stuck.needs bound hkstuck)).keeps
  · refine preserves_resolveDynamicConstantWith hquiet ?_ (fun _ _ _ k _ => hconstant k)
    refine Class.outlasts_unmet_of_ne (fun j hj he => hstuck ?_)
    obtain ⟨hid, rfl⟩ := ConstantSlot.mk.inj he
    exact ⟨hd hid.symm, hj⟩

theorem unmet_copyArguments (r : ArgumentCopy) :
    Preserves (c.Unmet m.memos (m.Stuck c)) (copyArguments env d r) := by
  refine preserves_bind (preserves_view _) (fun bound => ?_)
  have hconstant := fun k resolve => unmet_constantObjectWithin (m := m) hquiet hd bound k resolve
  exact preserves_copyArgumentsWith (fun _ k _ _ => hconstant k true)
    (fun _ k _ _ => hconstant k r.resolve)

end Resolving

/-! ## Operations -/

/-- The constants that are stuck on `m` are still so on a later machine. -/
structure Machine.Blocks (m : Machine) (c : Class) (m' : Machine) : Prop where
  sound : m'.Sound
  member : m'.classes.get? c.id = some c
  unmet : c.Unmet m.memos (m.Stuck c) m'.memos

/-- A class of the table is the class itself or one at another place. -/
theorem Machine.Blocks.eq_of_get? (h : m.Blocks c m') {i : ClassId}
    (hd : m'.classes.get? i = some d) : d.id = c.id → d = c := by
  intro hid
  have hc := h.member
  rw [← hid, h.sound.ids hd, hd, Option.some.injEq] at hc
  exact hc

theorem Machine.Blocks.changes {m'' : Machine} (h : m.Blocks c m') (hchanges : Changes rule m' m'')
    (hunmet : c.Unmet m.memos (m.Stuck c) m''.memos) : m.Blocks c m'' :=
  ⟨hchanges.sound h.sound, hchanges.get?_classes h.member, hunmet⟩

theorem unmet_bind {x : Link α} {f : α → Link β} (hx : c.Unmet m.memos (m.Stuck c) (x m').2.memos)
    (hf : ∀ a m₁, x m' = (.ok a, m₁) → c.Unmet m.memos (m.Stuck c) m₁.memos →
      c.Unmet m.memos (m.Stuck c) (f a m₁).2.memos) :
    c.Unmet m.memos (m.Stuck c) ((x >>= f) m').2.memos := by
  rcases bind_cases x f m' with ⟨e, m₁, hrun, hbind⟩ | ⟨a, m₁, hrun, hbind⟩
  · rw [hrun] at hx
    rw [hbind]
    exact hx
  · rw [hrun] at hx
    rw [hbind]
    exact hf a m₁ hrun hx

/-- Going on with the class at a place of the table. -/
theorem unmet_classAt_bind {f : Class → Link β} {owner : ClassId} (h : m.Blocks c m')
    (hf : ∀ d, (d.id = c.id → d = c) → Preserves (c.Unmet m.memos (m.Stuck c)) (f d)) :
    c.Unmet m.memos (m.Stuck c) ((classAt owner >>= f) m').2.memos := by
  refine unmet_bind (preserves_classAt owner m' h.unmet) (fun d m₁ hrun hunmet => ?_)
  have hgoes : Goes Discipline.free (classAt owner) m' _ := goes_classAt owner
  obtain ⟨rfl, hget⟩ := hgoes.2 d m₁ hrun
  exact hf d (h.eq_of_get? hget) m₁ hunmet

section Operations

variable (hquiet : env.Quiet)

include hquiet

theorem unmet_copyOutBootstrapArguments (h : m.Blocks c m') (args : Arguments) :
    c.Unmet m.memos (m.Stuck c) (copyOutBootstrapArguments env args m').2.memos := by
  refine unmet_bind (preserves_orFail _ _ m' h.unmet) (fun caller m₁ hcaller _ => ?_)
  obtain ⟨-, rfl⟩ := orFail_eq_ok_iff.mp hcaller
  refine unmet_bind (preserves_classOfObject caller m₁ h.unmet) (fun found m₂ hfound _ => ?_)
  have hgoes : Goes Discipline.free (classOfObject caller) m₁ _ := goes_classOfObject caller
  obtain ⟨rfl, hclass⟩ := hgoes.2 found m₂ hfound
  refine unmet_bind (preserves_orFail _ _ m₂ h.unmet) (fun d m₃ hfail _ => ?_)
  obtain ⟨hd, rfl⟩ := orFail_eq_ok_iff.mp hfail
  obtain ⟨id, -, hget⟩ := hclass d hd
  -- From here on the class is known to be one of the table.
  suffices hrest : Preserves (c.Unmet m.memos (m.Stuck c)) _ from hrest m₃ h.unmet
  refine preserves_bind (preserves_orFail _ _) (fun info => ?_)
  refine preserves_bind ?_ (fun counted => preserves_bind (preserves_orFail _ _) (fun buffer =>
    unmet_copyArguments hquiet (h.eq_of_get? hget) _))
  unfold indexInfo
  grind

theorem unmet_runNative (h : m.Blocks c m') (native : Native) (args : Arguments) :
    c.Unmet m.memos (m.Stuck c) (runNative env native args m').2.memos := by
  by_cases hnative : native = .copyOutBootstrapArguments
  · subst hnative
    exact unmet_bind (unmet_copyOutBootstrapArguments hquiet h args) (fun _ _ _ hunmet => hunmet)
  · exact preserves_runNative env hnative args m' h.unmet

theorem unmet_invokeNative (h : m.Blocks c m') (thread : Thread)
    (className name descriptor : String) (args : Arguments) :
    c.Unmet m.memos (m.Stuck c)
      (invokeNative env thread className name descriptor args m').2.memos := by
  have hcall : c.Unmet m.memos (m.Stuck c)
      (callNative env className name descriptor args m').2.memos := by
    refine unmet_bind (preserves_loadClass env className m' h.unmet) (fun k m₁ hload hunmet => ?_)
    have hchanging : Changing Discipline.free (loadClass env className) :=
      changing_of_goes (loads_loadClass env className)
    have h₁ : m.Blocks c m₁ := h.changes (hchanging.of_run hload) hunmet
    refine unmet_bind (preserves_orFail _ _ m₁ hunmet) (fun native m₂ hnative _ => ?_)
    obtain ⟨-, rfl⟩ := orFail_eq_ok_iff.mp hnative
    exact unmet_runNative hquiet h₁ native args
  refine unmet_bind ?_ (fun outcome m₁ _ hunmet => ?_)
  · rw [attempt_machine]
    exact hcall
  · cases outcome <;> exact hunmet

theorem Operation.unmet (op : Operation α) (h : m.Blocks c m') :
    c.Unmet m.memos (m.Stuck c) (op.run env m').2.memos := by
  -- An operation that resolves no constant leaves all slots as they are.
  by_cases hresolves : op.Resolves
  · cases hresolves with
    | object owner index resolve =>
      refine unmet_classAt_bind h (fun d hd => ?_)
      exact preserves_bind (preserves_view _)
        (fun bound => unmet_constantObjectWithin hquiet hd bound index resolve)
    | classRef owner index =>
      refine unmet_classAt_bind h (fun d hd => ?_)
      exact preserves_resolveClassConstant env
        (fun name hentry => outlasts_of_entry hd hentry (by simp))
    | stringRef owner index =>
      refine unmet_classAt_bind h (fun d hd => ?_)
      exact preserves_resolveStringConstant
        (fun text hentry => outlasts_of_entry hd hentry (by simp))
    | methodType owner index =>
      refine unmet_classAt_bind h (fun d hd => ?_)
      exact preserves_resolveMethodTypeConstant env
        (fun descriptor hentry => outlasts_of_entry hd hentry (by simp))
    | methodHandle owner index =>
      refine unmet_classAt_bind h (fun d hd => ?_)
      exact preserves_resolveMethodHandleConstant env
        (fun _ _ hentry => outlasts_of_entry hd hentry (by simp))
        (fun _ _ hentry => outlasts_of_entry hd hentry (by simp))
    | dynamic owner index =>
      exact unmet_classAt_bind h (fun d hd => unmet_resolveDynamicConstant hquiet hd index)
    | copy owner request =>
      exact unmet_classAt_bind h (fun d hd => unmet_copyArguments hquiet hd request)
    | native args => exact unmet_runNative hquiet h _ args
    | call thread className name descriptor args =>
      exact unmet_invokeNative hquiet h thread className name descriptor args
  · exact op.preserves env hresolves m' h.unmet

end Operations

/-! ## Runs -/

/-- What is stuck stays so, as long as bootstrap methods leave constants alone. -/
theorem AnsweredRun.blocks {answers : List ConstantSlot} (h : AnsweredRun rule m m' answers)
    (hm : m.Sound) (hc : m.classes.get? c.id = some c) : m.Blocks c m' := by
  induction h with
  | refl => exact ⟨hm, hc, fun _ hslot => hslot, fun j hj => hj.lookup⟩
  | @step m₁ answers α env op invoker quiet follows _ ih =>
    have hstep : Run rule m₁ (op.run env m₁).2 := .step env op invoker follows (.refl m₁)
    exact ih.changes hstep.changes (op.unmet quiet ih)

/-- On a machine where it is still stuck, a constant has no value. -/
theorem Machine.Stuck.no_value (h : m.Stuck c index) (hblocks : m.Blocks c m')
    (hquiet : env.Quiet) :
    (∀ value, (constantObject env c index true m').1 ≠ .ok value) ∧
      ∀ value, (resolveDynamicConstant env c index m').1 ≠ .ok value := by
  have hbars := fun bound {j : UInt16} (hj : m.Stuck c j) =>
    bars_constantObjectWithin dynamic closed hquiet needs bound hj
  have hconstant := fun bound k =>
    unmet_constantObjectWithin (m := m) (c := c) hquiet (fun _ => rfl) bound k true
  obtain ⟨k, hk, hkstuck⟩ := h.needs
  refine ⟨(hbars (m'.heap.config.capacity + 2) h m' hblocks.unmet).2, ?_⟩
  exact (bars_resolveDynamicConstantWith dynamic h (fun k _ => hconstant _ k) hk
    (hbars (m'.heap.config.capacity + 2) hkstuck) m' hblocks.unmet).2

/-! ## A sample environment -/

/-- Outside code only moves objects. -/
def Sample.moving : Discipline := fun _ {_} op =>
  match op with
  | .collectGarbage => True
  | _ => False

theorem Sample.sharedKept_of_moving {α : Type} (m : Machine) (op : Operation α)
    (h : Sample.moving m op) : SharedKept m op := by
  cases op with
  | collectGarbage => exact ⟨trivial, trivial⟩
  | _ => exact h.elim

theorem Sample.modest : Sample.env.Modest Sample.moving where
  retains := fun _ _ h => h
  runs := Sample.invoker_runs (fun _ => trivial)
  completes := by
    intro invoke hinvoke k buffer m hreached
    cases hinvoke
    cases hreached

theorem Sample.sharedKept_exhibits : ∀ op ∈ Sample.exhibits, ∀ m, SharedKept m op.2 := by
  intro op hop m
  simp only [Sample.exhibits, List.mem_cons, List.not_mem_nil, or_false] at hop
  rcases hop with rfl | rfl | rfl | rfl | rfl | rfl | rfl | rfl <;> exact ⟨trivial, trivial⟩

/-! ## Resolution ends -/

/-- With bootstrap methods that give up no objects, resolving the constants of a class ends,
    however they need each other: no bound on calls inside each other is reached that exceeds
    the room of the heap, and such a bound makes no difference. Where class objects and
    interned strings are left alone, it ends with a value or throws. A constant that waits
    for a cycle of unresolved ones has no value, and the slots of these stay empty. -/
theorem dynamic_constants_end (hm : m.Reachable rule) (hc : m.classes.get? c.id = some c)
    (hmodest : env.Modest kept) (index : UInt16) :
    (∀ bound, m.heap.config.capacity < bound →
      (∀ resolve, constantObjectWithin env bound c index resolve m =
          constantObject env c index resolve m ∧
        (constantObject env c index resolve m).1 ≠ .error .boundReached) ∧
      resolveDynamicConstantWith env (constantObjectWithin env bound) c index m =
          resolveDynamicConstant env c index m ∧
        (resolveDynamicConstant env c index m).1 ≠ .error .boundReached) ∧
    (m.Reachable SharedKept →
      (∀ (m : Machine) {α : Type} (op : Operation α), kept m op → SharedKept m op) →
      (∀ invoke, env.invoker = some invoke → ∀ buffer m', Changes kept m m' →
        m'.object? buffer ≠ none → Returns (invoke c buffer) m') →
      (∀ resolve, Returns (constantObject env c index resolve) m) ∧
        Returns (resolveDynamicConstant env c index) m) ∧
    (m.Stuck c index → ∀ {later : Discipline} {m' : Machine} {answers : List ConstantSlot},
      AnsweredRun later m m' answers →
      (∀ j, m.Stuck c j → m'.memos.lookup ⟨c.id, j⟩ = none) ∧
      ∀ env : Environment, env.Quiet →
        (∀ value, (constantObject env c index true m').1 ≠ .ok value) ∧
        ∀ value, (resolveDynamicConstant env c index m').1 ≠ .ok value) := by
  refine ⟨fun bound hbound => constants_complete hm hc hmodest hbound index, ?_, ?_⟩
  · exact fun hshared hkept hinvoke => constants_return hshared hc hmodest hkept hinvoke index
  · intro hstuck later m' answers hrun
    have hblocks := hrun.blocks hm.sound hc
    exact ⟨fun j hj => hblocks.unmet.2 j hj, fun env hquiet => hstuck.no_value hblocks hquiet⟩

theorem portrait_constants_end :
    ∃ m c, m.Reachable SharedKept ∧ m.classes.get? 35 = some c ∧ m.Stuck c 8 ∧ m.Stuck c 9 ∧
      (resolveDynamicConstant Sample.env c 8 m).1 ≠ .error .boundReached ∧
      Returns (resolveDynamicConstant Sample.env c 8) m ∧
      (∀ value, (resolveDynamicConstant Sample.env c 8 m).1 ≠ .ok value) ∧
      ∀ {later : Discipline} {m' : Machine} {answers : List ConstantSlot},
        AnsweredRun later m m' answers →
        m'.memos.lookup ⟨35, 8⟩ = none ∧ m'.memos.lookup ⟨35, 9⟩ = none := by
  obtain ⟨m, c, hm, hc, hid, ⟨hclass, _⟩, ⟨hleft, hright⟩, _⟩ :=
    @Sample.exists_gallery SharedKept (fun _ => ⟨trivial, trivial⟩) Sample.sharedKept_exhibits
  rw [hc] at hclass
  simp only [Option.map_some, Option.some.injEq, Prod.mk.injEq, List.map_cons, List.map_nil,
    List.cons.injEq] at hclass
  obtain ⟨_, ⟨_, hentry, hentry', _⟩, _, hbootstrap, hbootstrap', _⟩ := hclass
  -- Each of the two constants is an argument of the other one.
  have hwaits : m.Waits c 8 9 :=
    ⟨by rw [hid]; exact hleft, _, _, _, _, hentry, hbootstrap, Or.inr (by decide)⟩
  have hwaits' : m.Waits c 9 8 :=
    ⟨by rw [hid]; exact hright, _, _, _, _, hentry', hbootstrap', Or.inr (by decide)⟩
  have hstuck : m.Stuck c 8 := ⟨8, .refl, .tail (.single hwaits) hwaits'⟩
  have hstuck' : m.Stuck c 9 := .of_waits hwaits' hstuck
  obtain ⟨hcomplete, hreturn, hblocked⟩ :=
    dynamic_constants_end hm (hid ▸ hc) Sample.modest 8
  refine ⟨m, c, hm, hc, hstuck, hstuck', ?_, ?_, ?_, ?_⟩
  · exact (hcomplete _ (Nat.lt_succ_self _)).2.2
  · refine (hreturn hm (fun m α => Sample.sharedKept_of_moving m) ?_).2
    intro invoke hinvoke buffer m' _ _
    cases hinvoke
    exact Or.inl ⟨some buffer, rfl⟩
  · have hnow : AnsweredRun SharedKept m m [] := .refl m
    exact ((hblocked hstuck hnow).2 Sample.env Sample.quiet_env).2
  · intro later m' answers hrun
    have hempty := (hblocked hstuck hrun).1
    rw [hid] at hempty
    exact ⟨hempty 8 hstuck, hempty 9 hstuck'⟩

end Linkage
