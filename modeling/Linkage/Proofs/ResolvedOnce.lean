import Linkage.Proofs.Remembering

/-! # Constants are resolved once

    * `Operation.evolves`: what an operation does to the remembered constants.
    * `AnsweredRun`: runs in which bootstrap methods leave constants alone, with the slots
      for which they have answered.
    * `constants_resolved_once`: in such runs they answer at most once for a slot. A slot
      holds what resolving its constant has come to, and what it holds is what every
      later resolution gives. -/

namespace Linkage

open Link

variable {α β : Type} {rule : Discipline} {env : Environment} {m m' : Machine} {c : Class}
  {index : UInt16} {entry : PoolEntry} {value : Handle} {answers : List ConstantSlot}

/-! ## Operations -/

theorem Operation.answers_of_not_resolves {op : Operation α} (h : ¬ op.Resolves) :
    op.answers env m = [] := by
  cases op with
  | constantObject owner index resolve => exact absurd (.object owner index resolve) h
  | resolveDynamicConstant owner index => exact absurd (.dynamic owner index) h
  | copyArguments owner request => exact absurd (.copy owner request) h
  | invokeNative thread className name descriptor args => exact absurd (.call _ _ _ _ args) h
  | runNative native args =>
    cases native with
    | copyOutBootstrapArguments => exact absurd (.native args) h
    | _ => rfl
  | _ => rfl

namespace Traced

theorem orderly_attempt {x : Traced α} (hx : Orderly rule x m) : Orderly rule (attempt x) m := by
  show m.Evolves rule (Link.attempt x.action m).2 (x.answers m)
  rw [attempt_machine]
  exact hx

theorem orderly_classAt (hm : m.Coherent) (owner : ClassId) :
    Orderly rule (silent (classAt owner)) m := by
  refine orderly_still ?_ hm.justified
  rw [classAt_run]
  split <;> rfl

theorem ready_of_classAt {owner : ClassId} (hm : m.Coherent) (h : classAt owner m = (.ok c, m')) :
    m' = m ∧ m.Ready c := by
  rw [classAt_run] at h
  split at h
  · rename_i hget
    cases h
    exact ⟨rfl, hm, by rw [hm.started.ids hget]; exact hget⟩
  · cases h

/-- Going on with the class at a place of the table. -/
theorem orderly_classAt_bind {f : Class → Traced β} {owner : ClassId} (hm : m.Coherent)
    (hf : ∀ c, m.Ready c → Orderly rule (f c) m) :
    Orderly rule (silent (classAt owner) >>= f) m := by
  refine orderly_bind (orderly_classAt hm owner) (fun c m₁ hc _ => ?_)
  obtain ⟨rfl, hready⟩ := ready_of_classAt hm hc
  exact hf c hready

theorem orderly_silent_classAt_bind {f : Class → Link β} {owner : ClassId} (hm : m.Coherent)
    (hf : ∀ c, m.Ready c → Orderly rule (silent (f c)) m) :
    Orderly rule (silent (classAt owner >>= f)) m := by
  refine orderly_silent_bind (orderly_classAt hm owner) (fun c m₁ hc _ => ?_)
  obtain ⟨rfl, hready⟩ := ready_of_classAt hm hc
  exact hf c hready

section Invoker

variable
  (hinvoke : ∀ invoke, env.invoker = some invoke → ∀ c buffer, Changing rule (invoke c buffer))
  (hquiet : env.Quiet)

include hinvoke hquiet

theorem orderly_constantObject (hm : m.Ready c) (index : UInt16) (resolve : Bool) :
    Orderly rule (constantObject env c index resolve) m :=
  orderly_bind (orderly_still rfl hm.justified) (fun bound _ _ h =>
    orderly_constantObjectWithin hinvoke hquiet bound index resolve _ (h.ready hm))

theorem orderly_resolveDynamicConstant (hm : m.Ready c) (index : UInt16) :
    Orderly rule (resolveDynamicConstant env c index) m :=
  orderly_bind (orderly_still rfl hm.justified) (fun bound _ _ h =>
    orderly_resolveDynamicConstantWith hinvoke hquiet
      (orderly_constantObjectWithin hinvoke hquiet bound) (h.ready hm) index)

theorem orderly_copyArguments (hm : m.Ready c) (r : ArgumentCopy) :
    Orderly rule (copyArguments env c r) m :=
  orderly_bind (orderly_still rfl hm.justified) (fun bound _ _ h =>
    orderly_copyArgumentsWith (orderly_constantObjectWithin hinvoke hquiet bound) (h.ready hm) r)

theorem orderly_copyOutBootstrapArguments (hm : m.Coherent) (args : Arguments) :
    Orderly rule (copyOutBootstrapArguments env args) m := by
  refine orderly_bind (orderly_orFail hm _ _) (fun caller m₁ _ h₁ => ?_)
  have hm₁ := h₁.coherent hm
  refine orderly_bind (orderly_links env hm₁ (madeOf_classOfObject caller)
    (fun Q => preserves_classOfObject caller)) (fun found m₂ hclass h₂ => ?_)
  have hm₂ := h₂.coherent hm₁
  refine orderly_bind (orderly_orFail hm₂ _ _) (fun c m₃ hc h₃ => ?_)
  -- The class of a class object is one of the table.
  have hready : m₂.Ready c := by
    have hfound : Goes rule (classOfObject caller) m₁ (fun result m' => m' = m₁ ∧
        ∀ c, result = some c → ∃ id, m₁.heap.read caller = .ok (.classObject id) ∧
          m₁.classes.get? id = some c) := goes_classOfObject caller
    obtain ⟨rfl, hmember⟩ := hfound.2 found m₂ hclass
    obtain ⟨id, _, hget⟩ := hmember c (orFail_eq_ok_iff.mp hc).1
    exact ⟨hm₂, by rw [hm₂.started.ids hget]; exact hget⟩
  have hm₃ := h₃.ready hready
  refine orderly_bind (orderly_orFail hm₃.toCoherent _ _) (fun info m₄ _ h₄ => ?_)
  have hm₄ := h₄.ready hm₃
  have hinfo : Links env.mute (indexInfo info) ∧ ∀ Q, Preserves Q (indexInfo info) := by
    unfold indexInfo
    constructor
    · grind
    · intro Q
      grind
  refine orderly_bind (orderly_links env hm₄.toCoherent hinfo.1 hinfo.2) (fun info m₅ _ h₅ => ?_)
  have hm₅ := h₅.ready hm₄
  refine orderly_bind (orderly_orFail hm₅.toCoherent _ _) (fun buffer m₆ _ h₆ => ?_)
  exact orderly_copyArguments hinvoke hquiet (h₆.ready hm₅) _

theorem orderly_runNative (hm : m.Coherent) (native : Native) (args : Arguments) :
    Orderly rule (runNative env native args) m := by
  unfold runNative
  split
  · exact orderly_bind (orderly_copyOutBootstrapArguments hinvoke hquiet hm args)
      (fun _ _ _ h => orderly_still rfl h.justified)
  · rename_i hnative
    exact orderly_links env hm (links_runNative native args)
      (fun Q => preserves_runNative env.mute hnative args)

theorem orderly_invokeNative (hm : m.Coherent) (thread : Thread)
    (className name descriptor : String) (args : Arguments) :
    Orderly rule (invokeNative env thread className name descriptor args) m := by
  have hcall : Orderly rule (callNative env className name descriptor args) m := by
    refine orderly_bind (orderly_links env hm (links_loadClass className)
      (fun Q => preserves_loadClass _ className)) (fun c m₁ _ h₁ => ?_)
    refine orderly_bind (orderly_orFail (h₁.coherent hm) _ _) (fun native m₂ _ h₂ => ?_)
    exact orderly_runNative hinvoke hquiet (h₂.coherent (h₁.coherent hm)) native args
  refine orderly_bind (orderly_attempt hcall) (fun outcome m' _ h' => ?_)
  cases outcome <;> exact orderly_still rfl h'.justified

end Invoker

end Traced

/-- An operation is a step, with the answers that it lists. -/
theorem Operation.evolves (hinvoke : ∀ invoke, env.invoker = some invoke →
      ∀ c buffer, Changing rule (invoke c buffer)) (hquiet : env.Quiet) (hm : m.Coherent)
    (op : Operation α) (hchanges : Changes rule m (op.run env m).2) :
    m.Evolves rule (op.run env m).2 (op.answers env m) := by
  by_cases hresolves : op.Resolves
  · suffices h : (op.traced env).Orderly rule m by
      unfold Traced.Orderly at h
      rwa [op.action_traced env] at h
    cases hresolves with
    | object owner index resolve =>
      exact Traced.orderly_classAt_bind hm
        (fun c hc => Traced.orderly_constantObject hinvoke hquiet hc index resolve)
    | classRef owner index =>
      exact Traced.orderly_silent_classAt_bind hm
        (fun c hc => Traced.orderly_resolveClassConstant hc index)
    | stringRef owner index =>
      exact Traced.orderly_silent_classAt_bind hm
        (fun c hc => Traced.orderly_resolveStringConstant env hc index)
    | methodType owner index =>
      exact Traced.orderly_silent_classAt_bind hm
        (fun c hc => Traced.orderly_resolveMethodTypeConstant hc index)
    | methodHandle owner index =>
      exact Traced.orderly_silent_classAt_bind hm
        (fun c hc => Traced.orderly_resolveMethodHandleConstant hc index)
    | dynamic owner index =>
      exact Traced.orderly_classAt_bind hm
        (fun c hc => Traced.orderly_resolveDynamicConstant hinvoke hquiet hc index)
    | copy owner request =>
      exact Traced.orderly_classAt_bind hm
        (fun c hc => Traced.orderly_copyArguments hinvoke hquiet hc request)
    | native args =>
      exact Traced.orderly_runNative hinvoke hquiet hm .copyOutBootstrapArguments args
    | call thread className name descriptor args =>
      exact Traced.orderly_invokeNative hinvoke hquiet hm thread className name descriptor args
  · -- The other operations may touch objects, but no slots.
    rw [Operation.answers_of_not_resolves hresolves]
    exact .of_memos hchanges (memos_of_preserves (fun Q => op.preserves env hresolves) m)
      hm.justified

/-! ## Runs -/

/-- A run in which bootstrap methods leave constants alone, with the slots for which they
    have answered. -/
inductive AnsweredRun (rule : Discipline) : Machine → Machine → List ConstantSlot → Prop where
  | refl (m : Machine) : AnsweredRun rule m m []
  | step {m₀ m : Machine} {answers : List ConstantSlot} {α : Type} (env : Environment)
      (op : Operation α)
      (invoker : ∀ invoke, env.invoker = some invoke →
        ∀ c buffer m, Run rule m (invoke c buffer m).2)
      (quiet : env.Quiet) (follows : rule m op) (before : AnsweredRun rule m₀ m answers) :
      AnsweredRun rule m₀ (op.run env m).2 (answers ++ op.answers env m)

theorem AnsweredRun.evolves {m₀ : Machine} (h : AnsweredRun rule m₀ m answers)
    (hm₀ : m₀.Coherent) : m₀.Evolves rule m answers := by
  induction h with
  | refl => exact .refl hm₀.justified
  | @step m answers α env op invoker quiet follows _ ih =>
    -- The operation alone is a run.
    have hstep : Run rule m (op.run env m).2 := .step env op invoker follows (.refl m)
    refine ih.trans (op.evolves ?_ quiet (ih.coherent hm₀) hstep.changes)
    exact fun invoke hinvoke c buffer m => (invoker invoke hinvoke c buffer m).changes

theorem AnsweredRun.run {m₀ : Machine} (h : AnsweredRun rule m₀ m answers) : Run rule m₀ m := by
  induction h with
  | refl => exact .refl _
  | step env op invoker quiet follows _ ih => exact .step env op invoker follows ih

/-- At the start no constant has been resolved. -/
theorem memos_of_start {env : Environment} {config : HeapConfig}
    (h : Machine.start env config = .ok m) : m.memos = [] := by
  have hcore : ∀ Q, Preserves Q (defineCoreClasses env) := by
    intro Q
    refine preserves_bind (preserves_forEach (fun d _ => ?_)) (fun _ => ?_)
    · exact (preserves_deriveClassWith (preserves_loadClass env)).1 d
    refine preserves_bind (preserves_forEach (fun p _ => preserves_addClass _ _ _)) (fun _ => ?_)
    exact preserves_bind (preserves_loadClass env _) (fun _ => preserves_pure _)
  have hmemos := memos_of_preserves hcore (Machine.bare config)
  rw [Machine.start_eq_ok_iff.mp h] at hmemos
  exact hmemos

theorem coherent_of_start {env : Environment} {config : HeapConfig}
    (h : Machine.start env config = .ok m) : m.Coherent where
  started := by
    have hreachable : m.Reachable (fun _ {_} _ => True) := ⟨env, config, m, h, .refl m⟩
    exact hreachable.started
  justified := by
    intro slot value hslot
    rw [memos_of_start h] at hslot
    cases hslot

/-- Slot 0 of a pool is unused. -/
theorem ClassTable.Admits.pool_zero {t : ClassTable} (h : t.Admits c) : c.pool.get? 0 = none := by
  cases h <;> rfl

theorem Machine.Reachable.pool_zero (h : m.Reachable rule) {i : ClassId}
    (hc : m.classes.get? i = some c) : c.pool.get? 0 = none := by
  exact h.forall_classes (P := fun c => c.pool.get? 0 = none)
    (fun hadmits _ _ => hadmits.pool_zero) c (ClassTable.mem_of_get? hc)

/-! ## Slots -/

/-- The object of a constant is what it is computed to, unless it is remembered. -/
theorem constantObject_run (hentry : c.pool.get? index = some entry) (hindex : index ≠ 0)
    {compute : Link Handle}
    (hcompute : entry.computation? env (m.heap.config.capacity + 1) c index = some compute) :
    constantObject env c index true m =
      ((memoize ⟨c.id, index⟩ compute m).1.map some, (memoize ⟨c.id, index⟩ compute m).2) := by
  have hlazy : entry.isLazy = true := by
    cases entry <;> first | rfl | cases hcompute
  have hconstant : constantAt c index m = (.ok entry, m) := by
    unfold constantAt
    rw [hentry]
    rfl
  -- One of the nested calls that the bound allows is this one.
  have hobject : constantObject env c index true m = constantObjectWith env
      (constantObjectWithin env (m.heap.config.capacity + 1)) c index true m := rfl
  rw [hobject, constantObjectWith_run hentry hindex hlazy]
  cases hmemo : m.memos.lookup ⟨c.id, index⟩ with
  | some value =>
    rw [memoize_of_lookup hmemo]
    rfl
  | none =>
    have hresolve : ∀ resolver : Link Handle, resolver m = memoize ⟨c.id, index⟩ compute m →
        (some <$> resolver) m = ((memoize ⟨c.id, index⟩ compute m).1.map some,
          (memoize ⟨c.id, index⟩ compute m).2) := by
      intro resolver hrun
      rw [map_run, hrun]
    dsimp only
    rw [if_pos rfl]
    cases entry with
    | classRef name => cases hcompute; exact hresolve _ (bind_of_ok hconstant _)
    | stringRef text => cases hcompute; exact hresolve _ (bind_of_ok hconstant _)
    | methodType descriptor => cases hcompute; exact hresolve _ (bind_of_ok hconstant _)
    | methodHandle kind reference => cases hcompute; exact hresolve _ (bind_of_ok hconstant _)
    | dynamic number name descriptor => cases hcompute; exact hresolve _ (bind_of_ok hconstant _)
    | _ => cases hcompute

/-- A slot holds what the object of its constant has come to. -/
theorem lookup_constantObject (hquiet : env.Quiet) (hentry : c.pool.get? index = some entry)
    (hindex : index ≠ 0) (hlazy : entry.isLazy = true) :
    (constantObject env c index true m).2.memos.lookup ⟨c.id, index⟩ =
      (constantObject env c index true m).1.toOption.join := by
  obtain ⟨compute, hcompute⟩ :
      ∃ compute, entry.computation? env (m.heap.config.capacity + 1) c index = some compute := by
    cases entry <;> first | exact ⟨_, rfl⟩ | cases hlazy
  rw [constantObject_run hentry hindex hcompute]
  dsimp only
  rw [lookup_memoize (lookup_computation hcompute hquiet hentry)]
  cases (memoize ⟨c.id, index⟩ compute m).1 <;> rfl

/-- The slot is filled, and nothing that resolves its constant does anything but give its
    value. -/
structure Machine.Settled (m : Machine) (c : Class) (index : UInt16) (entry : PoolEntry)
    (value : Handle) : Prop where
  memo : m.memos.lookup ⟨c.id, index⟩ = some value
  resolver : ∀ env resolver, entry.resolver? env c index = some resolver →
    resolver m = (.ok value, m)
  object : ∀ env resolve, constantObject env c index resolve m = (.ok (some value), m)
  /-- A string constant is the interned string … -/
  string : ∀ text, entry = .stringRef text → intern text m = (.ok value, m)
  /-- … and a class constant the class object of the class that is loaded. -/
  loaded : ∀ name, entry = .classRef name → ¬ isArrayName name →
    ∀ env, ∃ k, loadClass env name m = (.ok k, m) ∧ k.classObject = value

theorem Machine.settled (hmemo : m.memos.lookup ⟨c.id, index⟩ = some value)
    (hentry : c.pool.get? index = some entry) (hlazy : entry.isLazy = true) (hindex : index ≠ 0)
    (hjustifies : m.Justifies value entry) : m.Settled c index entry value where
  memo := hmemo
  resolver := by
    intro env resolver hresolver
    obtain ⟨compute, _, hrun⟩ := resolver_run hentry hresolver m
    rw [hrun, memoize_of_lookup hmemo]
  object := by
    intro env resolve
    have hobject : constantObject env c index resolve m = constantObjectWith env
      (constantObjectWithin env (m.heap.config.capacity + 1)) c index resolve m := rfl
    rw [hobject, constantObjectWith_run hentry hindex hlazy, hmemo]
  -- A string can be asked for by its text too, and a class by its name.
  string := by
    rintro text rfl
    exact intern_of_find? hjustifies
  loaded := by
    rintro name rfl hname env
    obtain ⟨k, hk, hobject⟩ := hjustifies hname
    exact ⟨k, loadClass_of_find? env hk, hobject⟩

/-- In a run in which bootstrap methods leave constants alone they answer at most once for
    a slot. Whatever a constant of a class is resolved on, its slot holds the result
    afterwards, and nothing after a failure. What a slot holds it holds from then on, and
    it is what every later resolution gives at once. -/
theorem constants_resolved_once {env₀ : Environment} {config : HeapConfig} {m₀ : Machine}
    (hstart : Machine.start env₀ config = .ok m₀) (hrun : AnsweredRun rule m₀ m answers) :
    answers.Nodup ∧
      ∀ c index entry, m.classes.get? c.id = some c → c.pool.get? index = some entry →
        entry.isLazy = true →
          (∀ env, env.Quiet → ∀ n,
            (∀ resolver, entry.resolver? env c index = some resolver →
              (resolver n).2.memos.lookup ⟨c.id, index⟩ = (resolver n).1.toOption) ∧
            (constantObject env c index true n).2.memos.lookup ⟨c.id, index⟩ =
              (constantObject env c index true n).1.toOption.join) ∧
          ∀ value, m.memos.lookup ⟨c.id, index⟩ = some value →
            ∀ m', Run rule m m' → m'.Settled c index entry value := by
  have hevolves := hrun.evolves (coherent_of_start hstart)
  refine ⟨hevolves.nodup, fun c index entry hc hentry hlazy => ?_⟩
  have hindex : index ≠ 0 := by
    rintro rfl
    have hreachable : m.Reachable rule := ⟨env₀, config, m₀, hstart, hrun.run⟩
    rw [hreachable.pool_zero hc] at hentry
    cases hentry
  refine ⟨fun env hquiet n => ⟨fun resolver hresolver => ?_, ?_⟩, ?_⟩
  · obtain ⟨compute, hcompute, hresolved⟩ := resolver_run hentry hresolver n
    rw [hresolved]
    exact lookup_memoize (lookup_computation hcompute hquiet hentry)
  · exact lookup_constantObject hquiet hentry hindex hlazy
  · intro value hmemo m' hlater
    -- Justified now, the value stays so whatever is done later.
    have hjustifies : m.Justifies value entry := by
      obtain ⟨d, entry', hd, hentry', hjustifies⟩ := hevolves.justified _ value hmemo
      rw [hc, Option.some.injEq] at hd
      subst hd
      rw [hentry, Option.some.injEq] at hentry'
      rw [hentry']
      exact hjustifies
    exact Machine.settled (hlater.changes.lookup_memos hmemo) hentry hlazy hindex
      (hjustifies.changes hlater.changes)

/-! ## A sample run -/

/-- The slots for which bootstrap methods answer during operations in turn. -/
def Machine.answered (env : Environment) (m : Machine) :
    List ((α : Type) × Operation α) → List ConstantSlot
  | [] => []
  | op :: ops => op.2.answers env m ++ Machine.answered env (op.2.run env m).2 ops

theorem AnsweredRun.trans {m₁ m₂ m₃ : Machine} {answers' : List ConstantSlot}
    (h₁ : AnsweredRun rule m₁ m₂ answers) (h₂ : AnsweredRun rule m₂ m₃ answers') :
    AnsweredRun rule m₁ m₃ (answers ++ answers') := by
  induction h₂ with
  | refl =>
    rw [List.append_nil]
    exact h₁
  | step env op invoker quiet follows _ ih =>
    rw [← List.append_assoc]
    exact .step env op invoker quiet follows ih

theorem AnsweredRun.perform
    (invoker : ∀ invoke, env.invoker = some invoke →
      ∀ c buffer m, Run rule m (invoke c buffer m).2)
    (quiet : env.Quiet) {ops : List ((α : Type) × Operation α)}
    (hops : ∀ op ∈ ops, ∀ m, rule m op.2) (m : Machine) :
    AnsweredRun rule m (m.perform env ops) (m.answered env ops) := by
  induction ops generalizing m with
  | nil => exact .refl m
  | cons op ops ih =>
    have hfirst : AnsweredRun rule m (op.2.run env m).2 ([] ++ op.2.answers env m) :=
      .step env op.2 invoker quiet (hops op List.mem_cons_self m) (.refl m)
    exact hfirst.trans (ih (fun op hop => hops op (List.mem_cons_of_mem _ hop)) _)

namespace Sample

/-- A class with a dynamic constant that needs another one, and one without a bootstrap
    method. -/
def brush : ClassDeclaration :=
  { ClassDeclaration.plain "Brush" with
    methods :=
      [{ access := Access.publicFlag ||| Access.staticFlag, name := "make",
         descriptor := "(I)LBrush;" }]
    constants :=
      [.stringRef "thick", .classRef "Brush", .methodType "(I)LBrush;",
       .methodref { owner := 2, name := "make", descriptor := "(I)LBrush;" },
       .methodHandle .invokeStatic 4, .dynamic 0 "size" "I", .dynamic 1 "tip" "I",
       .dynamic 2 "colour" "I"]
    bootstrap :=
      [{ method := 5, arguments := [1, 7] }, { method := 5, arguments := [3] }] }

/-- The first dynamic constant is resolved, and asked for again, as is the one that it
    needs. The last one is tried in between. -/
def painting : List ((α : Type) × Operation α) :=
  [⟨_, .defineClass brush⟩,
   ⟨_, .resolveDynamicConstant 33 6⟩,
   ⟨_, .constantObject 33 6 false⟩,
   ⟨_, .resolveDynamicConstant 33 8⟩,
   ⟨_, .constantObject 33 7 true⟩,
   ⟨_, .resolveDynamicConstant 33 6⟩]

/-- There is one answer for each constant that has a value, and the class is at place 33. -/
abbrev PaintingFacts (m : Machine) : Prop :=
  m.answered Sample.env painting = [⟨33, 7⟩, ⟨33, 6⟩] ∧
  ((m.perform Sample.env painting).classes.get? 33).map
      (fun c => (c.id, c.pool.get? 1, c.pool.get? 2, c.pool.get? 6)) =
    some (33, some (.stringRef "thick"), some (.classRef "Brush"), some (.dynamic 0 "size" "I")) ∧
  [1, 2, 6, 8].map (fun index =>
      ((m.perform Sample.env painting).memos.lookup ⟨33, index⟩).isSome) = [true, true, true, false]

set_option maxRecDepth 100000 in
set_option synthInstance.maxSize 1000 in
theorem painting_succeeds : Succeeds (Machine.start Sample.env {}) PaintingFacts := by
  decide +kernel

theorem quiet_env : Sample.env.Quiet := by
  intro invoke hinvoke c buffer m
  cases hinvoke
  rfl

end Sample

theorem brush_constants_resolved_once :
    ∃ (m₀ m : Machine) (c : Class) (text loaded size : Handle),
      Machine.start Sample.env {} = .ok m₀ ∧
      AnsweredRun (fun _ {_} _ => True) m₀ m [⟨33, 7⟩, ⟨33, 6⟩] ∧
      m.classes.get? 33 = some c ∧ m.Settled c 1 (.stringRef "thick") text ∧
      m.Settled c 2 (.classRef "Brush") loaded ∧ m.Settled c 6 (.dynamic 0 "size" "I") size := by
  obtain ⟨m₀, hstart, hanswers, hclass, hfilled⟩ := Sample.painting_succeeds
  obtain ⟨c, hc, hparts⟩ := Option.map_eq_some_iff.mp hclass
  simp only [Prod.mk.injEq] at hparts
  obtain ⟨hid, htext, hloaded, hsize⟩ := hparts
  have hrun : AnsweredRun (fun _ {_} _ => True) m₀ (m₀.perform Sample.env Sample.painting)
      (m₀.answered Sample.env Sample.painting) :=
    AnsweredRun.perform (Sample.invoker_runs (fun _ => trivial)) Sample.quiet_env
      (fun _ _ _ => trivial) m₀
  rw [hanswers] at hrun
  generalize m₀.perform Sample.env Sample.painting = m at hrun hc hfilled
  -- The slots that the sample has filled.
  simp only [List.map_cons, List.map_nil, List.cons.injEq, Option.isSome_iff_exists] at hfilled
  obtain ⟨⟨text, hmemo₁⟩, ⟨loaded, hmemo₂⟩, ⟨size, hmemo₆⟩, _⟩ := hfilled
  have hslots := (constants_resolved_once hstart hrun).2
  have hsettled : ∀ index entry value, c.pool.get? index = some entry → entry.isLazy = true →
      m.memos.lookup ⟨33, index⟩ = some value → m.Settled c index entry value := by
    intro index entry value hentry hlazy hmemo
    have hfilled : m.memos.lookup ⟨c.id, index⟩ = some value := by rw [hid]; exact hmemo
    exact (hslots c index entry (by rw [hid]; exact hc) hentry hlazy).2 value hfilled m (.refl m)
  exact ⟨m₀, m, c, text, loaded, size, hstart, hrun, hc, hsettled 1 _ text htext rfl hmemo₁,
    hsettled 2 _ loaded hloaded rfl hmemo₂, hsettled 6 _ size hsize rfl hmemo₆⟩

end Linkage
