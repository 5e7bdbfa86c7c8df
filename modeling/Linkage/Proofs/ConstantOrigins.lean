import Linkage.Proofs.ResolvedOnce

/-! # Where remembered constants come from

    Whatever is remembered for a constant has been computed: in every machine that a run
    reaches, also by way of bootstrap methods that resolve constants themselves, each
    remembered value is what the computation of its constant came to, on some earlier
    machine. In particular there is nothing to remember for numbers.

    * `Machine.Computed`: the origin of one value.
    * `Link.Records`: an action keeps an origin for each value that is remembered. One
      rule for each combinator, then one lemma for each action that resolves constants.
    * `Machine.Reachable.recorded`: so do runs. -/

namespace Linkage

open Link

variable {α β : Type} {rule : Discipline} {env : Environment} {m m' : Machine} {c : Class}
  {index : UInt16} {entry : PoolEntry} {slot : ConstantSlot} {value : Handle}

/-! ## Origins -/

/-- The value is what the constant of the slot was computed to: the computation was started
    on a machine that had the class of the constant, and where it ended, the way led on to
    `m`. -/
def Machine.Computed (rule : Discipline) (m : Machine) (slot : ConstantSlot) (value : Handle) :
    Prop :=
  ∃ c entry env bound compute before after, before.Sound ∧
    before.classes.get? slot.owner = some c ∧ c.pool.get? slot.index = some entry ∧
    entry.computation? env bound c slot.index = some compute ∧
    compute before = (.ok value, after) ∧ Changes rule before after ∧ Changes rule after m

theorem Machine.Computed.changes (h : m.Computed rule slot value) (hchanges : Changes rule m m') :
    m'.Computed rule slot value := by
  obtain ⟨c, entry, env, bound, compute, before, after, hsound, hc, hentry, hcompute, hrun,
    hmade, hlater⟩ := h
  exact ⟨c, entry, env, bound, compute, before, after, hsound, hc, hentry, hcompute, hrun, hmade,
    hlater.trans hchanges⟩

/-- The class of the constant is still the same: a class keeps its place. -/
theorem Machine.Computed.of_class (h : m.Computed rule ⟨c.id, index⟩ value)
    (hc : m.classes.get? c.id = some c) (hentry : c.pool.get? index = some entry) :
    ∃ env bound compute before after, before.Sound ∧
      entry.computation? env bound c index = some compute ∧
      compute before = (.ok value, after) ∧ Changes rule after m := by
  obtain ⟨c', entry', env, bound, compute, before, after, hsound, hc', hentry', hcompute, hrun,
    hmade, hlater⟩ := h
  have hsame : c' = c := by
    have hkept := (hmade.trans hlater).get?_classes hc'
    rw [hc, Option.some.injEq] at hkept
    exact hkept.symm
  subst hsame
  rw [hentry, Option.some.injEq] at hentry'
  subst hentry'
  exact ⟨env, bound, compute, before, after, hsound, hcompute, hrun, hlater⟩

/-- Each remembered value has an origin. -/
structure Machine.Recorded (rule : Discipline) (m : Machine) : Prop where
  sound : m.Sound
  computed : ∀ slot value, m.memos.lookup slot = some value → m.Computed rule slot value

theorem Machine.Recorded.changes (h : m.Recorded rule) (hchanges : Changes rule m m')
    (hmemos : m'.memos = m.memos) : m'.Recorded rule where
  sound := hchanges.sound h.sound
  computed := by
    intro slot value hslot
    rw [hmemos] at hslot
    exact (h.computed slot value hslot).changes hchanges

theorem Machine.Recorded.remember (h : m.Recorded rule) (hempty : m.memos.lookup slot = none)
    (hvalue : m.Computed rule slot value) : (Link.remember slot value m).2.Recorded rule := by
  have hchange : Changes rule m (Link.remember slot value m).2 :=
    Changes.single (.remember slot value hempty)
  refine ⟨hchange.sound h.sound, fun slot' value' hslot => ?_⟩
  by_cases hsame : slot' = slot
  · subst hsame
    have hself : value' = value := by
      simpa [Link.remember] using hslot.symm
    exact hself ▸ hvalue.changes hchange
  · have hold : m.memos.lookup slot' = some value' := by
      rw [← hslot]
      show _ = List.lookup slot' ((slot, value) :: m.memos)
      rw [List.lookup_cons, beq_eq_false_iff_ne.mpr hsame]
    exact (h.computed slot' value' hold).changes hchange

/-! ## Actions -/

/-- On a machine with the class, the action goes through changes and keeps an origin for each
    remembered value. -/
def Link.Records (rule : Discipline) (c : Class) (x : Link α) : Prop :=
  ∀ m : Machine, m.Recorded rule → m.classes.get? c.id = some c →
    Changes rule m (x m).2 ∧ (x m).2.Recorded rule

namespace Link

/-- An action that remembers nothing. -/
theorem records_of_memos {x : Link α} (hx : Changing rule x) (hmemos : ∀ Q, Preserves Q x) :
    Records rule c x :=
  fun m hm _ => ⟨hx m, hm.changes (hx m) (memos_of_preserves hmemos m)⟩

theorem records_still {x : Link α} (hx : ∀ m, (x m).2 = m) : Records rule c x := by
  intro m hm _
  rw [hx m]
  exact ⟨Changes.refl m, hm⟩

theorem records_pure (a : α) : Records rule c (pure a : Link α) := records_still (fun _ => rfl)

theorem records_fail (e : LinkError) : Records rule c (fail e : Link α) :=
  records_still (fun _ => rfl)

theorem records_bind_of_ok {x : Link α} {f : α → Link β} (hx : Records rule c x)
    (hf : ∀ m a m', x m = (.ok a, m') → Records rule c (f a)) : Records rule c (x >>= f) := by
  intro m hm hc
  have hfirst := hx m hm hc
  rcases bind_cases x f m with ⟨e, m', hrun, hbind⟩ | ⟨a, m', hrun, hbind⟩
  · rw [hrun] at hfirst
    rw [hbind]
    exact hfirst
  · rw [hrun] at hfirst
    obtain ⟨hchanges, hrecorded⟩ := hfirst
    obtain ⟨hchanges', hrecorded'⟩ :=
      hf m a m' hrun m' hrecorded (hchanges.get?_classes hc)
    rw [hbind]
    exact ⟨hchanges.trans hchanges', hrecorded'⟩

theorem records_bind {x : Link α} {f : α → Link β} (hx : Records rule c x)
    (hf : ∀ a, Records rule c (f a)) : Records rule c (x >>= f) :=
  records_bind_of_ok hx (fun _ a _ _ => hf a)

theorem records_map (g : α → β) {x : Link α} (hx : Records rule c x) :
    Records rule c (g <$> x) :=
  records_bind hx (fun a => records_pure (g a))

theorem records_bind_orFail {o : Option α} {e : LinkError} {f : α → Link β}
    (hf : ∀ a, o = some a → Records rule c (f a)) : Records rule c (orFail o e >>= f) := by
  cases o with
  | none => exact records_still (fun _ => rfl)
  | some a => exact fun m hm hc => hf a rfl m hm hc

theorem records_forEach {f : α → Link β} {as : List α} (hf : ∀ a ∈ as, Records rule c (f a)) :
    Records rule c (forEach f as) := by
  induction as with
  | nil => exact records_pure []
  | cons a as ih =>
    refine records_bind (hf a List.mem_cons_self) (fun b => ?_)
    refine records_bind (ih (fun a' ha' => hf a' (List.mem_cons_of_mem a ha'))) (fun bs => ?_)
    exact records_pure _

/-- What a constant is computed to is remembered, and that is its origin. -/
theorem records_memoize (env : Environment) (bound : Nat) {compute : Link Handle}
    (hentry : c.pool.get? index = some entry)
    (hcompute : entry.computation? env bound c index = some compute)
    (hrecords : Records rule c compute) : Records rule c (memoize ⟨c.id, index⟩ compute) := by
  intro m hm hc
  unfold memoize
  rw [bind_of_ok (memo?_run ⟨c.id, index⟩ m)]
  cases hmemo : m.memos.lookup ⟨c.id, index⟩ with
  | some value => exact ⟨Changes.refl m, hm⟩
  | none =>
    dsimp only
    have hstep := hrecords m hm hc
    rcases bind_cases compute _ m with ⟨e, m₁, hrun, hbind⟩ | ⟨value, m₁, hrun, hbind⟩
    · rw [hrun] at hstep
      rw [hbind]
      exact hstep
    · rw [hrun] at hstep
      obtain ⟨hchanges, hrecorded⟩ := hstep
      rw [hbind, bind_of_ok (memo?_run ⟨c.id, index⟩ m₁)]
      -- The computation itself may have filled the slot.
      cases hlate : m₁.memos.lookup ⟨c.id, index⟩ with
      | some first => exact ⟨hchanges, hrecorded⟩
      | none =>
        refine ⟨hchanges.trans (Changes.single (.remember _ value hlate)), ?_⟩
        exact hrecorded.remember hlate ⟨c, entry, env, bound, compute, m, m₁, hm.sound, hc, hentry,
          hcompute, hrun, hchanges, Changes.refl m₁⟩

end Link

/-! ## Constants -/

/-- Actions that do without bootstrap methods and remember nothing. -/
theorem records_links (env : Environment) {x : Link α} (hlinks : Links env.mute x)
    (hmemos : ∀ Q, Preserves Q x) : Records rule c x :=
  records_of_memos (changing_of_links hlinks) hmemos

theorem records_loadClass (env : Environment) (name : String) :
    Records rule c (loadClass env name) := by
  rw [← loadClass_mute]
  exact records_links env (links_loadClass name) (fun _ => preserves_loadClass _ name)

theorem records_newMethodType (env : Environment) (descriptor : String) :
    Records rule c (newMethodType env descriptor) := by
  rw [← newMethodType_mute]
  exact records_links env (links_newMethodType descriptor)
    (fun _ => preserves_newMethodType _ descriptor)

theorem records_intern (text : String) : Records rule c (intern text) :=
  records_of_memos (changing_intern text) (fun _ => preserves_intern text)

theorem records_allocate {object : Object} (h : object.Plain) :
    Records rule c (allocate object) :=
  records_of_memos (fun _ => Changes.single (.allocate object (Or.inl h)))
    (fun _ => preserves_allocate object)

theorem records_resolveClassConstant (env : Environment) (index : UInt16) :
    Records rule c (resolveClassConstant env c index) := by
  refine records_bind_orFail (fun entry hentry => ?_)
  cases entry with
  | classRef name =>
    refine records_memoize env 0 hentry rfl ?_
    exact records_bind (records_loadClass env name) (fun k => records_pure _)
  | _ => exact records_fail _

theorem records_resolveStringConstant (env : Environment) (index : UInt16) :
    Records rule c (resolveStringConstant c index) := by
  refine records_bind_orFail (fun entry hentry => ?_)
  cases entry with
  | stringRef text => exact records_memoize env 0 hentry rfl (records_intern text)
  | _ => exact records_fail _

theorem records_resolveMethodTypeConstant (env : Environment) (index : UInt16) :
    Records rule c (resolveMethodTypeConstant env c index) := by
  refine records_bind_orFail (fun entry hentry => ?_)
  cases entry with
  | methodType descriptor =>
    exact records_memoize env 0 hentry rfl (records_newMethodType env descriptor)
  | _ => exact records_fail _

theorem records_newMethodHandle (env : Environment) (kind : ReferenceKind) (reference : UInt16) :
    Records rule c (newMethodHandle env c kind reference) := by
  refine records_bind (records_links env (links_memberReferenceAt _ c reference)
    (fun _ => preserves_memberReferenceAt c reference)) (fun described => ?_)
  refine records_bind (records_resolveClassConstant env _) (fun clazz => ?_)
  refine records_bind (records_intern _) (fun name => ?_)
  refine records_bind (records_intern _) (fun type => ?_)
  refine records_bind (records_allocate ⟨rfl, rfl⟩) (fun mn => ?_)
  refine records_bind (records_links env (links_resolveMemberName mn _ _)
    (fun _ => preserves_resolveMemberName mn _ _)) (fun resolved => ?_)
  cases resolved with
  | some member => exact records_allocate trivial
  | none => exact records_fail _

theorem records_resolveMethodHandleConstant (env : Environment) (index : UInt16) :
    Records rule c (resolveMethodHandleConstant env c index) := by
  refine records_bind_orFail (fun entry hentry => ?_)
  cases entry with
  | methodHandle kind reference =>
    exact records_memoize env 0 hentry rfl (records_newMethodHandle env kind reference)
  | _ => exact records_fail _

section Open

variable {constant : Class → UInt16 → Bool → Link (Option Handle)}
  (hconstant : ∀ index resolve, Records rule c (constant c index resolve))

include hconstant

theorem records_argumentValue (r : ArgumentCopy) (d : DynamicConstant) (number : Int) :
    Records rule c (argumentValue env constant r c d number) := by
  unfold argumentValue
  -- In the order of the numbers below zero: method, name, type and count.
  split
  · exact hconstant _ _
  split
  · exact records_map _ (records_intern _)
  split
  · rw [← dynamicType_mute]
    exact records_map _ (records_links env (links_dynamicType _ d)
      (fun _ => preserves_dynamicType _ d))
  split
  · exact records_map _ (records_allocate trivial)
  · refine records_bind_orFail (fun argument _ => ?_)
    refine records_bind (hconstant _ _) (fun value => ?_)
    cases value <;> exact records_pure _

theorem records_copyArgumentsWith (r : ArgumentCopy) :
    Records rule c (copyArgumentsWith env constant c r) := by
  unfold copyArgumentsWith
  rw [resolve_readAt]
  refine records_bind (records_links env (.read _) (fun _ => preserves_read _)) (fun object => ?_)
  refine records_bind_orFail (fun buffer _ => ?_)
  split
  · exact records_fail _
  have hdynamic : ∀ Q, Preserves Q (r.dynamicConstant c) := by
    intro Q
    unfold ArgumentCopy.dynamicConstant
    grind
  refine records_bind (records_links env (links_dynamicConstant _ r c) hdynamic) (fun d => ?_)
  refine records_bind (records_forEach (fun distance _ => ?_)) (fun _ => records_pure _)
  -- Slots are filled only while the value of an argument is computed.
  refine records_bind (records_argumentValue hconstant r d _) (fun value => ?_)
  rw [resolve_updateAt]
  exact records_links env (madeOf_setElement _ _ _) (fun _ => preserves_update _ _)

variable (hinvoke : ∀ invoke, env.invoker = some invoke → ∀ k buffer,
  Records rule c (invoke k buffer))

include hinvoke

theorem records_callBootstrap (index number : UInt16) :
    Records rule c (callBootstrap env constant c index number) := by
  refine records_bind_orFail (fun invoke hknown => ?_)
  refine records_bind_orFail (fun bootstrap _ => ?_)
  refine records_bind (records_links env (madeOf_coreClass _) (fun _ => preserves_coreClass _))
    (fun object => ?_)
  refine records_bind (records_links env (madeOf_newArray _ _) (fun _ => preserves_newArray _ _))
    (fun buffer => ?_)
  refine records_bind (records_copyArgumentsWith hconstant _) (fun _ => ?_)
  refine records_bind (records_links env (madeOf_elements buffer)
    (fun _ => preserves_elements buffer)) (fun arguments => ?_)
  refine records_bind (records_links env (.recordCall _) (fun _ => preserves_recordCall _))
    (fun _ => ?_)
  refine records_bind (hinvoke invoke hknown c buffer) (fun answer => ?_)
  exact records_links env (madeOf_orFail _ _) (fun _ => preserves_orFail _ _)

end Open

section Invoker

variable (hinvoke : ∀ invoke, env.invoker = some invoke → ∀ k buffer,
  Records rule c (invoke k buffer))

include hinvoke

theorem records_resolveDynamicConstantWith (bound : Nat)
    (hconstant : ∀ index resolve, Records rule c (constantObjectWithin env bound c index resolve))
    (index : UInt16) :
    Records rule c (resolveDynamicConstantWith env (constantObjectWithin env bound) c index) := by
  refine records_bind_orFail (fun entry hentry => ?_)
  cases entry with
  | dynamic number name descriptor =>
    exact records_memoize env bound hentry rfl
      (records_callBootstrap hconstant hinvoke index number)
  | _ => exact records_fail _

/-- The object of a constant, with bootstrap methods inside each other up to a bound. -/
theorem records_constantObjectWithin (bound : Nat) (index : UInt16) (resolve : Bool) :
    Records rule c (constantObjectWithin env bound c index resolve) := by
  induction bound generalizing index resolve with
  | zero => exact records_still (fun _ => rfl)
  | succ bound ih =>
    -- What is resolved lazily is recorded by its own kind of constant.
    have hlazy : ∀ entry, Records rule c
        (resolveLazyWith env (constantObjectWithin env bound) c index entry) := by
      intro entry
      cases entry with
      | classRef name => exact records_map _ (records_resolveClassConstant env index)
      | stringRef text => exact records_map _ (records_resolveStringConstant env index)
      | methodType descriptor => exact records_map _ (records_resolveMethodTypeConstant env index)
      | methodHandle kind reference =>
        exact records_map _ (records_resolveMethodHandleConstant env index)
      | dynamic number name descriptor =>
        exact records_map _ (records_resolveDynamicConstantWith hinvoke bound ih index)
      | _ => exact records_pure none
    -- A boxed number is an ordinary object.
    have hbox : ∀ entry object, PoolEntry.box? entry = some object →
        Records rule c (some <$> allocate object) := by
      intro entry object hobject
      refine records_map _ (records_allocate ?_)
      cases entry <;> cases hobject <;> trivial
    unfold constantObjectWithin constantObjectWith
    split
    · exact records_fail _
    split
    · exact records_pure none
    · rename_i entry _
      refine records_bind (records_still (fun _ => rfl)) (fun found => ?_)
      cases found with
      | some value => exact records_pure _
      | none =>
        dsimp only
        split
        · split
          · exact hlazy entry
          · exact records_pure none
        · split
          · rename_i object hobject
            exact hbox entry object hobject
          · exact records_pure none

theorem records_constantObject (index : UInt16) (resolve : Bool) :
    Records rule c (constantObject env c index resolve) :=
  records_bind (records_still (fun _ => rfl))
    (fun bound => records_constantObjectWithin hinvoke bound index resolve)

theorem records_resolveDynamicConstant (index : UInt16) :
    Records rule c (resolveDynamicConstant env c index) :=
  records_bind (records_still (fun _ => rfl)) (fun bound =>
    records_resolveDynamicConstantWith hinvoke bound
      (records_constantObjectWithin hinvoke bound) index)

theorem records_copyArguments (r : ArgumentCopy) : Records rule c (copyArguments env c r) :=
  records_bind (records_still (fun _ => rfl)) (fun bound =>
    records_copyArgumentsWith (records_constantObjectWithin hinvoke bound) r)

end Invoker

/-! ## Operations -/

theorem recorded_bind {x : Link α} {f : α → Link β} (hx : (x m).2.Recorded rule)
    (hf : ∀ a m', x m = (.ok a, m') → m'.Recorded rule → (f a m').2.Recorded rule) :
    ((x >>= f) m).2.Recorded rule := by
  rcases bind_cases x f m with ⟨e, m', hrun, hbind⟩ | ⟨a, m', hrun, hbind⟩
  · rw [hrun] at hx
    rw [hbind]
    exact hx
  · rw [hrun] at hx
    rw [hbind]
    exact hf a m' hrun hx

theorem recorded_bind_orFail {o : Option α} {e : LinkError} {f : α → Link β}
    (hm : m.Recorded rule) (hf : ∀ a, o = some a → (f a m).2.Recorded rule) :
    ((orFail o e >>= f) m).2.Recorded rule := by
  cases o with
  | none => exact hm
  | some a => exact hf a rfl

/-- Going on with the class at a place of the table. -/
theorem recorded_classAt_bind {f : Class → Link β} {owner : ClassId} (hm : m.Recorded rule)
    (hf : ∀ c, Records rule c (f c)) : ((classAt owner >>= f) m).2.Recorded rule := by
  have hgoes : Goes rule (classAt owner) m _ := goes_classAt owner
  refine recorded_bind ?_ (fun c m' hrun hm' => ?_)
  · rw [classAt_run]
    split <;> exact hm
  · obtain ⟨rfl, hget⟩ := hgoes.2 c m' hrun
    refine (hf c m' hm' ?_).2
    rw [hm.sound.ids hget]
    exact hget

section Natives

variable (hinvoke : ∀ invoke, env.invoker = some invoke → ∀ c k buffer,
  Records rule c (invoke k buffer))

include hinvoke

theorem recorded_copyOutBootstrapArguments (hm : m.Recorded rule) (args : Arguments) :
    (copyOutBootstrapArguments env args m).2.Recorded rule := by
  refine recorded_bind_orFail hm (fun caller _ => ?_)
  have hgoes : Goes rule (classOfObject caller) m _ := goes_classOfObject caller
  refine recorded_bind (hm.changes hgoes.1
    (memos_of_preserves (fun _ => preserves_classOfObject caller) m)) ?_
  intro found m₁ hfound _
  obtain ⟨rfl, hclass⟩ := hgoes.2 found m₁ hfound
  refine recorded_bind_orFail hm (fun c hc => ?_)
  obtain ⟨id, -, hget⟩ := hclass c hc
  -- From here on the class is known to be one of the table.
  suffices h : Records rule c _ from (h m₁ hm (by rw [hm.sound.ids hget]; exact hget)).2
  refine records_bind_orFail (fun info _ => ?_)
  have hinfo : Links env.mute (indexInfo info) ∧ ∀ Q, Preserves Q (indexInfo info) := by
    unfold indexInfo
    constructor
    · grind
    · intro Q
      grind
  refine records_bind (records_links env hinfo.1 hinfo.2) (fun counted => ?_)
  refine records_bind_orFail (fun buffer _ => ?_)
  exact records_copyArguments (fun invoke hknown => hinvoke invoke hknown c) _

theorem recorded_runNative (hm : m.Recorded rule) (native : Native) (args : Arguments) :
    (runNative env native args m).2.Recorded rule := by
  by_cases hnative : native = .copyOutBootstrapArguments
  · subst hnative
    exact recorded_bind (recorded_copyOutBootstrapArguments hinvoke hm args) (fun _ _ _ h => h)
  · have hchanging : Changing rule (runNative env native args) := by
      rw [← runNative_mute env hnative]
      exact changing_of_links (links_runNative native args)
    exact hm.changes (hchanging m)
      (memos_of_preserves (fun _ => preserves_runNative env hnative args) m)

theorem recorded_invokeNative (hm : m.Recorded rule) (thread : Thread)
    (className name descriptor : String) (args : Arguments) :
    (invokeNative env thread className name descriptor args m).2.Recorded rule := by
  have hcall : (callNative env className name descriptor args m).2.Recorded rule := by
    refine recorded_bind ?_ (fun c m₁ _ hm₁ => ?_)
    · have hchanging : Changing rule (loadClass env className) :=
        changing_of_goes (loads_loadClass env className)
      exact hm.changes (hchanging m)
        (memos_of_preserves (fun _ => preserves_loadClass env className) m)
    · exact recorded_bind_orFail hm₁ (fun native _ => recorded_runNative hinvoke hm₁ native args)
  refine recorded_bind ?_ (fun outcome m₁ _ hm₁ => ?_)
  · rw [attempt_machine]
    exact hcall
  · cases outcome <;> exact hm₁

end Natives

/-- Every operation keeps the origins. -/
theorem Operation.recorded (op : Operation α)
    (hinvoke : ∀ invoke, env.invoker = some invoke → ∀ c k buffer,
      Records rule c (invoke k buffer))
    (hm : m.Recorded rule) (hchanges : Changes rule m (op.run env m).2) :
    (op.run env m).2.Recorded rule := by
  have hinvoke' : ∀ c invoke, env.invoker = some invoke → ∀ k buffer,
      Records rule c (invoke k buffer) := fun c invoke hknown => hinvoke invoke hknown c
  -- An operation that resolves no constant leaves all slots as they are.
  by_cases hresolves : op.Resolves
  · cases hresolves with
    | object owner index resolve =>
      exact recorded_classAt_bind hm (fun c => records_constantObject (hinvoke' c) index resolve)
    | classRef owner index =>
      exact recorded_classAt_bind hm (fun c => records_resolveClassConstant env index)
    | stringRef owner index =>
      exact recorded_classAt_bind hm (fun c => records_resolveStringConstant env index)
    | methodType owner index =>
      exact recorded_classAt_bind hm (fun c => records_resolveMethodTypeConstant env index)
    | methodHandle owner index =>
      exact recorded_classAt_bind hm (fun c => records_resolveMethodHandleConstant env index)
    | dynamic owner index =>
      exact recorded_classAt_bind hm (fun c => records_resolveDynamicConstant (hinvoke' c) index)
    | copy owner request =>
      exact recorded_classAt_bind hm (fun c => records_copyArguments (hinvoke' c) request)
    | native args => exact recorded_runNative hinvoke hm _ args
    | call thread className name descriptor args =>
      exact recorded_invokeNative hinvoke hm thread className name descriptor args
  · exact hm.changes hchanges (memos_of_preserves (fun _ => op.preserves env hresolves) m)

/-! ## Runs -/

theorem Run.recorded (h : Run rule m m') (hm : m.Recorded rule) : m'.Recorded rule := by
  induction h with
  | refl => exact hm
  | @step m₀ m₁ α env op invoker follows before hinvoke ih =>
    have hstep : Run rule m₁ (op.run env m₁).2 := .step env op invoker follows (.refl m₁)
    refine op.recorded (fun invoke hknown c k buffer m hm _ => ?_) (ih hm) hstep.changes
    -- What a bootstrap method does is a run itself.
    exact ⟨(invoker invoke hknown k buffer m).changes, hinvoke invoke hknown k buffer m hm⟩

/-- In every machine that a run reaches, each remembered value is what its constant was
    computed to. -/
theorem Machine.Reachable.recorded (h : m.Reachable rule) : m.Recorded rule := by
  obtain ⟨env, config, m₀, hstart, hrun⟩ := h
  have hstarted : m₀.Reachable rule := ⟨env, config, m₀, hstart, .refl m₀⟩
  refine hrun.recorded ⟨hstarted.sound, fun slot value hslot => ?_⟩
  rw [memos_of_start hstart] at hslot
  cases hslot

end Linkage
