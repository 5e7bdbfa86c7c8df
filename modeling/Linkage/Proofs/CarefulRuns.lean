import Linkage.Proofs.SealedConstants

/-! # Runs that tie no loops

    Outside code has the heap in its hands, so it can tie a loop itself. It can also ask for
    one: a request to copy arguments into an array names what stands for constants that are
    not resolved, and this may be the array.

    * `Machine.Permits`: an operation that ties no loop. What it puts into an object does not
      lead back to it, and no object is given up that something still leads to.
    * `CarefulRun`: a run of such operations. Bootstrap methods are careful too, and discreet:
      what is out of their reach stays so.
    * `Operation.untangled`, `CarefulRun.untangled`: one step, and a whole run, without loops.
    * `descriptions_end`: after a careful run there are no loops, and every reference has a
      description, unless there is no object behind it.
    * `description_without_end`: one careless request makes an array that holds itself. -/

namespace Linkage

open Link

variable {α : Type} {known : Set Handle} {m m' : Machine} {h : Handle} {env : Environment}

/-! ## Objects that are given up -/

/-- The object may be given up: it is no interned string, no class object of a class and no
    remembered constant, and nothing refers to it. -/
structure Machine.MayRelease (m : Machine) (h : Handle) : Prop where
  root : ¬ m.Roots h
  constants : ∀ slot, m.memos.lookup slot ≠ some h
  unreferred : ∀ x, ¬ Refers m.object? x h

theorem object?_of_release (hw : m.heap.WellFormed) (h : Handle) :
    (release h m).2.object? = Function.update m.object? h none := by
  have hview : (release h m).2.heap.view = (m.heap.view.release h).2 := by
    rw [release_run]
    exact (Heap.release_view hw h).2
  unfold Machine.object?
  rw [hview]
  unfold Store.release
  cases hobject : m.heap.view.objects h with
  | some o => exact Store.set_objects _ _ _
  | none => exact (Function.update_eq_self_iff.mpr hobject.symm).symm

theorem Machine.Untangled.release (hm : m.Untangled) (hmay : m.MayRelease h) :
    (release h m).2.Untangled := by
  have hobjects := object?_of_release hm.heap h
  have hother : ∀ {x}, x ≠ h → (Link.release h m).2.object? x = m.object? x := by
    intro x hx
    rw [hobjects, Function.update_of_ne hx]
  have hlive : ∀ {x o}, (Link.release h m).2.object? x = some o → x ≠ h := by
    rintro x o hx rfl
    rw [hobjects, Function.update_self] at hx
    cases hx
  have hroot : ∀ {x}, m.Roots x → (Link.release h m).2.object? x = m.object? x :=
    fun hx => hother (fun heq => hmay.root (heq ▸ hx))
  have hstrings : (Link.release h m).2.strings = m.strings := by rw [release_run]
  have hclasses : (Link.release h m).2.classes = m.classes := by rw [release_run]
  have hmemos : (Link.release h m).2.memos = m.memos := by rw [release_run]
  refine { heap := ?_, counted := ?_, grounded := ?_, loopFree := ?_, classed := ?_, texts := ?_,
           mirrors := ?_, memos := ?_ }
  · rw [release_run]
    exact Heap.wellFormed_release hm.heap h
  · rw [release_run]
    show ((m.heap.release h).2.view).Counted
    rw [(Heap.release_view hm.heap h).2]
    exact hm.counted.release h
  · -- Nothing referred to the object, so no reference is left over.
    rintro x y ⟨o, ho, hy⟩
    have hrefers : Refers m.object? x y := ⟨o, (hother (hlive ho)) ▸ ho, hy⟩
    have hyh : y ≠ h := by
      rintro rfl
      exact hmay.unreferred x hrefers
    rw [hother hyh]
    exact hm.grounded x y hrefers
  · rw [hobjects]
    exact hm.loopFree.release
  · intro x id hx
    rw [hother (hlive hx)] at hx
    rw [hclasses]
    exact hm.classed x id hx
  · intro text x hx
    rw [hstrings] at hx
    rw [hroot (Or.inl ⟨text, hx⟩)]
    exact hm.texts text x hx
  · intro c hc
    rw [hclasses] at hc
    rw [hroot (Or.inr ⟨c, hc, rfl⟩)]
    exact hm.mirrors c hc
  · intro slot x hx
    rw [hmemos] at hx
    have hxh : x ≠ h := by
      rintro rfl
      exact hmay.constants slot hx
    rw [hother hxh]
    exact hm.memos slot x hx

/-! ## Careful operations -/

/-- The object may be stored: it refers to objects, and if it is a class object, then it is
    one of a class. -/
structure Machine.MayStore (m : Machine) (object : Object) : Prop where
  live : ∀ r ∈ object.holds, m.object? r ≠ none
  classed : ∀ id, object = .classObject id → ∃ c, m.classes.get? id = some c

/-- The native method may be called with the arguments. -/
def Machine.MayCall (m : Machine) (known : Set Handle) (native : Native) (args : Arguments) :
    Prop :=
  match native with
  | .init => ∀ mn reflected, args.ref 0 = some mn → args.ref 1 = some reflected →
      m.MayInit mn reflected
  | .copyOutBootstrapArguments => ∀ buffer a, args.ref 4 = some buffer →
      m.object? buffer = some (.array a) → m.MayCopy known buffer (args.ref 7)
  | _ => True

/-- The operation ties no loop. -/
def Machine.Permits (m : Machine) (env : Environment) (known : Set Handle) {α : Type}
    (op : Operation α) : Prop :=
  match op with
  | .allocate object => m.MayStore object
  | .update handle f => ∀ old, m.object? handle = some old → m.MayWrite ∅ handle old (f old)
  | .release handle => m.MayRelease handle
  | .initMemberName mn reflected => m.MayInit mn reflected
  | .copyArguments _ request => ∀ a, m.object? request.buffer = some (.array a) →
      m.MayCopy known request.buffer request.fallback
  | .runNative native args => m.MayCall known native args
  -- A native method is called on the machine that loading its class leaves.
  | .invokeNative _ className name descriptor args => ∀ c native m',
      loadClass env className m = (.ok c, m') → c.native? name descriptor = some native →
        m'.MayCall known native args
  | _ => True

theorem walled_runNative {native : Native} {args : Arguments} (henv : env.Confined known)
    (hm : m.Walled known ∅) (hmay : m.MayCall known native args) :
    (runNative env native args m).2.Walled known ∅ := by
  -- A native method runs one action and hands on its result.
  have hthen : ∀ {β : Type} {x : Link β} {g : β → Option Value}, (x m).2.Walled known ∅ →
      Confines known ∅ (x >>= fun b => pure (g b)) m (fun _ _ => True) :=
    fun hx => confines_bind (confines_of_walled hx) (fun _ _ _ hm' _ => confines_pure hm' trivial)
  have htarget : Keeps (Machine.Walled known ∅) (runNative.setTarget args) := by
    have hset := fun callSite target =>
      @keeps_setCallSiteTarget_walled known ∅ callSite target
    unfold runNative.setTarget Arguments.required
    grind
  unfold runNative
  cases native with
  | init =>
    refine (confines_bind_orFail (Q := fun _ _ => True) hm (fun mn hmn => ?_)).walled
    refine confines_bind_orFail hm (fun reflected hreflected => ?_)
    exact hthen (walled_initMemberName hm (hmay mn reflected hmn hreflected))
  | expand =>
    refine (confines_bind_orFail (Q := fun _ _ => True) hm (fun mn _ => ?_)).walled
    exact hthen (keeps_expandMemberName_walled env mn m hm)
  | resolve =>
    refine (confines_bind_orFail (Q := fun _ _ => True) hm (fun mn _ => ?_)).walled
    exact hthen (keeps_resolveMemberName_walled mn _ _ m hm)
  | getMembers => exact (hthen (keeps_enumerateMembers_walled env _ m hm)).walled
  | objectFieldOffset =>
    refine (confines_bind_orFail (Q := fun _ _ => True) hm (fun mn _ => ?_)).walled
    exact hthen (keeps_objectFieldOffset mn m hm)
  | staticFieldOffset =>
    refine (confines_bind_orFail (Q := fun _ _ => True) hm (fun mn _ => ?_)).walled
    exact hthen (keeps_staticFieldOffset mn m hm)
  | staticFieldBase =>
    refine (confines_bind_orFail (Q := fun _ _ => True) hm (fun mn _ => ?_)).walled
    exact hthen (keeps_staticFieldBase mn m hm)
  | getMemberVMInfo =>
    dsimp only
    cases args.ref 0 with
    | none => exact hm
    | some mn => exact (hthen (keeps_memberVMInfo_walled mn m hm)).walled
  | setCallSiteTargetNormal => exact htarget m hm
  | setCallSiteTargetVolatile => exact htarget m hm
  | copyOutBootstrapArguments =>
    -- Everything before the copying only reads.
    refine (hthen (g := fun _ => none) ?_).walled
    unfold copyOutBootstrapArguments
    refine (confines_bind_orFail (Q := fun _ _ => True) hm (fun caller _ => ?_)).walled
    refine confines_bind_still hm (keeps_classOfObject caller) (fun found _ => ?_)
    refine confines_bind_orFail hm (fun c _ => ?_)
    refine confines_bind_orFail hm (fun info _ => ?_)
    refine confines_bind_still hm ?_ (fun numbers _ => ?_)
    · unfold indexInfo
      grind
    -- The array is an argument, so that it is the caller who has to be careful.
    refine confines_bind_orFail hm (fun buffer hbuffer => ?_)
    exact confines_of_walled (walled_copyArguments_of_mayCopy henv c hm
      (fun a ha => hmay buffer a hbuffer ha))
  | clearCallSiteContext => exact hm
  | getNamedCon => exact hm
  | registerNatives => exact hm

/-- A careful operation ties no loop. -/
theorem Operation.untangled {op : Operation α} (henv : env.Confined known) (hm : m.Walled known ∅)
    (hpermits : m.Permits env known op) : (op.run env m).2.Untangled := by
  have hkept : ∀ {β : Type} {x : Link β}, Keeps (Machine.Walled known ∅) x → (x m).2.Untangled :=
    fun hx => (hx m hm).toUntangled
  -- First the operations that outside code has to be careful with, then all the others.
  cases op with
  | release handle => exact hm.toUntangled.release hpermits
  | allocate object =>
    exact (confines_allocate hm (fun r hr => ⟨hpermits.live r hr, fun hmem => hmem⟩)
      hpermits.classed).walled.toUntangled
  | update handle f => exact (walled_update hm hpermits).toUntangled
  | initMemberName mn reflected => exact (walled_initMemberName hm hpermits).toUntangled
  | copyArguments owner request =>
    exact (confines_bind_classAt (Q := fun _ _ => True) hm (fun c _ => confines_of_walled
      (walled_copyArguments_of_mayCopy henv c hm hpermits))).walled.toUntangled
  | runNative native args => exact (walled_runNative henv hm hpermits).toUntangled
  | invokeNative thread className name descriptor args =>
    have hcall : (callNative env className name descriptor args m).2.Walled known ∅ := by
      unfold callNative
      have hload := confines_of_walled (loadable_walled.loadClass env className m hm)
      refine (confines_bind (Q := fun _ _ => True) hload (fun c m₁ hrun hm₁ _ => ?_)).walled
      refine confines_bind_orFail hm₁ (fun native hnative => ?_)
      exact confines_of_walled (walled_runNative henv hm₁ (hpermits c native m₁ hrun hnative))
    rw [← attempt_machine] at hcall
    refine (confines_bind (Q := fun _ _ => True) (confines_of_walled hcall)
      (fun outcome m₁ _ hm₁ _ => ?_)).walled.toUntangled
    cases outcome <;> exact confines_pure hm₁ trivial
  | read handle => exact hkept (keeps_read handle)
  | collectGarbage => exact hkept keeps_collectGarbage_walled
  | classes => exact hkept keeps_classes
  | defineClass d =>
    exact hkept (loadable_walled.defineClassWith (loadable_walled.loadClass env) d)
  | deriveClass bytes =>
    exact hkept (loadable_walled.deriveClassWith (loadable_walled.loadClass env) bytes)
  | loadClass name => exact hkept (loadable_walled.loadClass env name)
  | defineArrayClass component =>
    exact hkept (keeps_bind (keeps_classAt component) loadable_walled.defineArrayClass)
  | classOfObject handle => exact hkept (keeps_classOfObject handle)
  | intern text => exact hkept (keeps_intern_walled text)
  | stringValue handle => exact hkept (keeps_stringValue handle)
  | classObjectSignature handle => exact hkept (keeps_signatureOr _ handle)
  | typeSignature type =>
    exact hkept (keeps_typeSignature_of keeps_intern_walled keeps_setDescriptor_walled type)
  | methodDescriptor result parameters => exact hkept (keeps_methodDescriptor result parameters)
  | classOfDescriptor descriptor =>
    exact hkept (keeps_bind (keeps_orFail _ _) (fun t => loadable_walled.loadClass env t.className))
  | newMethodType descriptor => exact (confines_newMethodType env descriptor hm).walled.toUntangled
  | memo slot => exact hkept (keeps_memo? slot)
  | constantObject owner index resolve =>
    exact hkept (keeps_bind (keeps_classAt owner)
      (fun c => keeps_constantObject_walled henv c index resolve))
  | resolveClassConstant owner index =>
    exact hkept (keeps_bind (keeps_classAt owner)
      (fun c => keeps_of_confines (fun _ hm => confines_resolveClassConstant env c index hm)))
  | resolveStringConstant owner index =>
    exact hkept (keeps_bind (keeps_classAt owner)
      (fun c => keeps_of_confines (fun _ hm => confines_resolveStringConstant c index hm)))
  | resolveMethodTypeConstant owner index =>
    exact hkept (keeps_bind (keeps_classAt owner)
      (fun c => keeps_of_confines (fun _ hm => confines_resolveMethodTypeConstant env c index hm)))
  | resolveMethodHandleConstant owner index =>
    exact hkept (keeps_bind (keeps_classAt owner) (fun c => keeps_of_confines
      (fun _ hm => confines_resolveMethodHandleConstant env c index hm)))
  | resolveDynamicConstant owner index =>
    exact hkept (keeps_bind (keeps_classAt owner)
      (fun c => keeps_resolveDynamicConstant_walled henv c index))
  | member id => exact hkept (keeps_view _)
  | identify member => exact hkept (keeps_identify_walled member)
  | reflectMember member => exact (confines_reflectMember env member hm).walled.toUntangled
  | expandMemberName mn => exact hkept (keeps_expandMemberName_walled env mn)
  | resolveMemberName mn caller speculative =>
    exact hkept (keeps_resolveMemberName_walled mn caller speculative)
  | enumerateMembers request => exact hkept (keeps_enumerateMembers_walled env request)
  | objectFieldOffset mn => exact hkept (keeps_objectFieldOffset mn)
  | staticFieldOffset mn => exact hkept (keeps_staticFieldOffset mn)
  | staticFieldBase mn => exact hkept (keeps_staticFieldBase mn)
  | memberVMInfo mn => exact hkept (keeps_memberVMInfo_walled mn)
  | describe reference =>
    exact hkept (keeps_bind (keeps_view _) (fun live => keeps_describeWithin _ reference))

/-! ## Careful runs -/

/-- What is out of reach of the bootstrap methods stays so, and they do not answer it. They
    know the objects in `known` and the array of their arguments. -/
def Environment.Discreet (env : Environment) (known : Set Handle) : Prop :=
  ∀ invoke, env.invoker = some invoke → ∀ {hidden m} (c : Class) (buffer : Handle),
    m.Walled known hidden → m.Outside hidden buffer →
      (invoke c buffer m).2.Seals known hidden ∧
        ∀ value m', invoke c buffer m = (.ok value, m') → m'.NullOrOutside hidden value

/-- The second machine is reached from the first one by operations that tie no loops. The
    objects that bootstrap methods know exist, and bootstrap methods tie no loops either,
    on machines without loops. -/
inductive CarefulRun : Machine → Machine → Prop where
  | refl (m : Machine) : CarefulRun m m
  | step {m₀ m : Machine} {α : Type} (env : Environment) (known : Set Handle) (op : Operation α)
      (live : ∀ h ∈ known, m.object? h ≠ none)
      (invoker : ∀ invoke, env.invoker = some invoke → ∀ c buffer m, m.Walled known ∅ →
        m.Outside ∅ buffer → CarefulRun m (invoke c buffer m).2)
      (discreet : env.Discreet known) (permits : m.Permits env known op)
      (before : CarefulRun m₀ m) : CarefulRun m₀ (op.run env m).2

theorem CarefulRun.trans {m₁ m₂ m₃ : Machine} (h₁ : CarefulRun m₁ m₂) (h₂ : CarefulRun m₂ m₃) :
    CarefulRun m₁ m₃ := by
  induction h₂ with
  | refl => exact h₁
  | step env known op live invoker discreet permits _ _ ih =>
    exact .step env known op live invoker discreet permits (ih h₁)

/-- Discreet bootstrap methods that tie no loops keep whatever is hidden out of reach. -/
theorem Environment.Discreet.confined (hdiscreet : env.Discreet known)
    (huntangled : ∀ invoke, env.invoker = some invoke → ∀ c buffer m, m.Walled known ∅ →
      m.Outside ∅ buffer → (invoke c buffer m).2.Untangled) : env.Confined known := by
  intro invoke hinvoke hidden m c buffer hm hbuffer
  obtain ⟨hseals, hvalue⟩ := hdiscreet invoke hinvoke c buffer hm hbuffer
  -- Whether loops are tied does not depend on what is hidden.
  have hbare : m.Walled known ∅ :=
    { toUntangled := hm.toUntangled, toSeals := Machine.seals_empty hm.known_live }
  have hafter := huntangled invoke hinvoke c buffer m hbare ⟨hbuffer.1, fun hmem => hmem⟩
  exact ⟨{ toUntangled := hafter, toSeals := hseals }, hvalue⟩

/-- A careful run ties no loops. -/
theorem CarefulRun.untangled (hrun : CarefulRun m m') (hm : m.Untangled) : m'.Untangled := by
  induction hrun with
  | refl m => exact hm
  | @step m₀ m α env known op live _ discreet permits _ hinvoke ih =>
    -- What the bootstrap methods do is a careful run too.
    have henv : env.Confined known := discreet.confined
      (fun invoke known c buffer m hm hbuffer => hinvoke invoke known c buffer m hm hbuffer
        hm.toUntangled)
    have hwalled : m.Walled known ∅ :=
      { toUntangled := ih hm, toSeals := Machine.seals_empty live }
    exact Operation.untangled henv hwalled permits

/-! ## The start -/

theorem Machine.untangled_bare (config : HeapConfig) : (Machine.bare config).Untangled := by
  have hfree : ∀ h, (Machine.bare config).object? h = none := by
    simp [Machine.object?, Machine.bare, Heap.view, Heap.object?, Heap.address?, Heap.empty]
  -- There are no objects, so there are no references either.
  have hleaf : ∀ x y, ¬ Refers (Machine.bare config).object? x y := by
    rintro x y ⟨o, ho, -⟩
    rw [hfree] at ho
    cases ho
  refine { heap := Heap.wellFormed_empty config, counted := ⟨∅, fun h => ?_, rfl⟩,
           grounded := fun x y hxy => absurd hxy (hleaf x y), loopFree := fun x hloop => ?_,
           classed := fun x id hx => ?_, texts := fun text x hx => (by cases hx),
           mirrors := fun c hc => ?_, memos := fun slot x hx => (by cases hx) }
  · have hnone : (Machine.bare config).heap.view.objects h = none := hfree h
    simp [hnone]
  · obtain ⟨y, hxy, -⟩ := Relation.TransGen.head'_iff.mp hloop
    exact hleaf x y hxy
  · rw [hfree] at hx
    cases hx
  · simp [Machine.bare, ClassTable.empty] at hc

theorem Machine.untangled_start {config : HeapConfig} (hstart : Machine.start env config = .ok m) :
    m.Untangled := by
  have hcore : Keeps (Machine.Walled ∅ ∅) (defineCoreClasses env) := by
    have hloadable : Loadable (Machine.Walled ∅ ∅) := loadable_walled
    have hload := hloadable.loadClass env
    refine keeps_bind (keeps_forEach (fun d _ => hloadable.defineClassWith hload d)) (fun _ => ?_)
    refine keeps_bind (keeps_forEach (fun p _ => hloadable.definePrimitiveClass p)) (fun _ => ?_)
    exact keeps_bind (hload _) (fun _ => keeps_pure _)
  have hbare : (Machine.bare config).Walled ∅ ∅ :=
    { toUntangled := Machine.untangled_bare config,
      toSeals := Machine.seals_empty (fun _ hmem => hmem.elim) }
  have hwalled := hcore _ hbare
  rw [Machine.start_eq_ok_iff.mp hstart] at hwalled
  exact hwalled.toUntangled

/-! ## Descriptions -/

theorem describe_of_fault {fault : Heap.Fault} (hread : m.heap.read h = .error fault) :
    describe (some h) m = (.error (.fault fault), m) := by
  have hfails : Link.read h m = (.error (.fault fault), m) := by rw [read_run, hread]
  unfold describe
  rw [bind_of_ok (view_run _ m)]
  unfold describeWithin describeWith
  dsimp only
  rw [bind_of_error hfails]

/-- Descriptions end. In every machine that a careful run leads to, no object leads back to
    itself, and the description of a reference is a text, unless there is no object behind
    the reference. -/
theorem descriptions_end {config : HeapConfig} {m₀ : Machine}
    (hstart : Machine.start env config = .ok m₀) (hrun : CarefulRun m₀ m) :
    LoopFree m.object? ∧ ∀ r, (∃ text, describe r m = (.ok text, m)) ∨
      ∃ h fault, r = some h ∧ m.heap.read h = .error fault ∧
        describe r m = (.error (.fault fault), m) := by
  have hm := hrun.untangled (Machine.untangled_start hstart)
  refine ⟨hm.loopFree, fun r => ?_⟩
  have hreturns := @describe_returns m hm.heap hm.counted hm.grounded hm.loopFree hm.classed
  cases r with
  | none => exact Or.inl (hreturns (fun h hh => by cases hh))
  | some h =>
    cases hread : m.heap.read h with
    | error fault => exact Or.inr ⟨h, fault, rfl, hread, describe_of_fault hread⟩
    | ok o =>
      refine Or.inl (hreturns (fun h' hh' => ?_))
      rw [← Option.some.inj hh', (read_eq_ok_iff hm.heap).mp hread]
      simp

/-! ## A careful run and a careless one -/

namespace Sample

/-- The bootstrap methods only move objects, and answer the array of their arguments. -/
theorem discreet (known : Set Handle) : Sample.env.Discreet known := by
  intro invoke hinvoke hidden m c buffer hm hbuffer
  cases hinvoke
  refine ⟨(keeps_collectGarbage_walled m hm).toSeals, fun value m' hrun h hh => ?_⟩
  cases hrun
  rw [← Option.some.inj hh]
  refine ⟨?_, hbuffer.2⟩
  have hkept : (Link.collectGarbage m).2.object? = m.object? :=
    congrArg Store.objects (Heap.view_relocate m.heap)
  show (Link.collectGarbage m).2.object? buffer ≠ none
  rw [hkept]
  exact hbuffer.1

theorem careful_step {op : Operation α} (hpermits : m.Permits Sample.env ∅ op) :
    CarefulRun m (op.run Sample.env m).2 := by
  refine .step Sample.env ∅ op (fun _ hmem => hmem.elim) ?_ (discreet ∅) hpermits (.refl m)
  intro invoke hinvoke c buffer m _ _
  cases hinvoke
  exact .step ⟨⟨[]⟩, none⟩ ∅ .collectGarbage (fun _ hmem => hmem.elim)
    (fun _ hnone => by cases hnone) (fun _ hnone => by cases hnone) trivial (.refl m)

theorem careful_perform {ops : List ((α : Type) × Operation α)}
    (hops : ∀ op ∈ ops, ∀ m : Machine, m.Permits Sample.env ∅ op.2) (m : Machine) :
    CarefulRun m (m.perform Sample.env ops) := by
  induction ops generalizing m with
  | nil => exact .refl m
  | cons op ops ih =>
    have hfirst := careful_step (hops op List.mem_cons_self m)
    exact hfirst.trans (ih (fun op hop => hops op (List.mem_cons_of_mem _ hop)) _)

/-- An object of another kind than the one that is stored was there before. -/
theorem object?_before_allocate {o o' : Object} (hw : m.heap.WellFormed)
    (hobject : (Link.allocate o m).2.object? h = some o') (hne : o' ≠ o) :
    m.object? h = some o' := by
  rw [allocate_run] at hobject
  replace hobject : (m.heap.allocate o).2.view.objects h = some o' := hobject
  rcases Heap.allocate_cases hw o with ⟨-, hkept⟩ | ⟨fresh, -, -, hset⟩
  · rw [hkept] at hobject
    exact hobject
  · rw [hset] at hobject
    by_cases hfresh : h = fresh
    · rw [hfresh, Function.update_self, Option.some.injEq] at hobject
      exact absurd hobject.symm hne
    · rw [Function.update_of_ne hfresh] at hobject
      exact hobject

/-- The array of the two member names. -/
def hung : Object :=
  .array { component := 0, elements := #[some ⟨38⟩, some ⟨37⟩] }

/-- The empty array. -/
def blank : Object :=
  .array { component := 0, elements := Array.replicate 8 none }

/-- The gallery comes from a careful run: the member names are there before the array that
    holds them. -/
theorem careful_gallery : ∃ m₀, Machine.start Sample.env cramped = .ok m₀ ∧
    CarefulRun m₀ (gallery m₀) ∧ GalleryFacts (gallery m₀) := by
  obtain ⟨m₀, hstart, hfacts⟩ := gallery_succeeds
  refine ⟨m₀, hstart, ?_, hfacts⟩
  have hnames : CarefulRun m₀ (m₀.perform Sample.env (exhibits.take 6)) := by
    refine careful_perform (fun op hop m => ?_) m₀
    have hplain : m.MayStore (.memberName {}) :=
      ⟨fun r hr => (by cases hr), fun id hid => (by cases hid)⟩
    simp only [exhibits, List.take, List.mem_cons, List.not_mem_nil, or_false] at hop
    rcases hop with rfl | rfl | rfl | rfl | rfl | rfl
    · trivial
    · trivial
    · trivial
    · trivial
    · exact hplain
    · exact hplain
  -- The last two steps store the arrays. They are taken one by one.
  generalize hperform : m₀.perform Sample.env (exhibits.take 6) = m₁ at hnames
  have hgallery : gallery m₀ = (Link.allocate blank (Link.allocate hung m₁).2).2 := by
    rw [← hperform]
    rfl
  have hm₁ := hnames.untangled (Machine.untangled_start hstart)
  have hw₂ : (Link.allocate hung m₁).2.heap.WellFormed := by
    rw [allocate_run]
    exact Heap.wellFormed_allocate hm₁.heap hung
  have hw₃ : (gallery m₀).heap.WellFormed := by
    rw [hgallery, allocate_run]
    exact Heap.wellFormed_allocate hw₂ blank
  have hnamed : ∀ h, (gallery m₀).heap.read h = .ok (.memberName {}) → m₁.object? h ≠ none := by
    intro h hread
    have hobject := (read_eq_ok_iff hw₃).mp hread
    rw [hgallery] at hobject
    have hobject₂ := object?_before_allocate hw₂ hobject (fun heq => by cases heq)
    rw [object?_before_allocate hm₁.heap hobject₂ (fun heq => by cases heq)]
    simp
  obtain ⟨-, -, ⟨-, -, hfirst, hsecond, -⟩, -⟩ := hfacts
  have hhung : CarefulRun m₁ ((Operation.allocate hung).run Sample.env m₁).2 := by
    refine careful_step ⟨fun r hr => ?_, fun id hid => (by cases hid)⟩
    simp only [hung, Object.holds, List.filterMap_cons, List.filterMap_nil, List.mem_cons,
      List.not_mem_nil, or_false, id] at hr
    rcases hr with rfl | rfl
    · exact hnamed _ hsecond.eq_ok
    · exact hnamed _ hfirst.eq_ok
  have hblank : ∀ m : Machine, CarefulRun m ((Operation.allocate blank).run Sample.env m).2 :=
    fun m => careful_step ⟨by simp [blank, Object.holds_newArray], fun id hid => (by cases hid)⟩
  rw [hgallery]
  exact hnames.trans (hhung.trans (hblank _))

/-- Operations that resolve no constant leave the remembered constants as they are. -/
theorem memos_perform {ops : List ((α : Type) × Operation α)} (m : Machine)
    (hops : ∀ op ∈ ops, ∀ Q, Preserves Q (op.2.run Sample.env)) :
    (m.perform Sample.env ops).memos = m.memos := by
  induction ops generalizing m with
  | nil => rfl
  | cons op ops ih =>
    have hfirst := memos_of_preserves (hops op List.mem_cons_self) m
    exact (ih _ (fun op hop => hops op (List.mem_cons_of_mem _ hop))).trans hfirst

/-- No constant has been resolved for the gallery. -/
theorem memos_gallery {m₀ : Machine} (hstart : Machine.start Sample.env cramped = .ok m₀) :
    (gallery m₀).memos = [] := by
  have hdefine : ∀ d Q, Preserves Q ((Operation.defineClass d).run Sample.env) :=
    fun d Q => (preserves_deriveClassWith (preserves_loadClass Sample.env)).1 d
  have hstore : ∀ o Q, Preserves Q ((Operation.allocate o).run Sample.env) :=
    fun o Q => keeps_allocate (framed_memos Q) o
  refine (memos_perform m₀ (fun op hop => ?_)).trans (memos_of_start hstart)
  simp only [exhibits, List.mem_cons, List.not_mem_nil, or_false] at hop
  -- Classes are defined, a text is interned and objects are stored.
  rcases hop with rfl | rfl | rfl | rfl | rfl | rfl | rfl | rfl
  · exact hdefine _
  · exact hdefine _
  · exact hdefine _
  · exact fun Q => keeps_intern (framed_memos Q) "hang"
  · exact hstore _
  · exact hstore _
  · exact hstore _
  · exact hstore _

/-- The bootstrap methods give up no object. -/
theorem changing_copyArguments (c : Class) (r : ArgumentCopy) :
    Changing idle (copyArguments Sample.env c r) := by
  refine (links_copyArguments c r).changing (fun hlinking => hlinking.changing ?_)
  intro invoke hinvoke c buffer
  cases hinvoke
  exact changing_bind (fun _ => Changes.single .collectGarbage) (fun _ m => Changes.refl m)

/-- An array that stands for its own missing argument. -/
def tied : ArgumentCopy :=
  { count := 1, index := 8, start := 0, stop := 1, buffer := ⟨40⟩, position := 0,
    resolve := false, fallback := some ⟨40⟩ }

end Sample

/-- All arguments of a constant are copied, for which bootstrap methods are called. Then the
    array has a description. -/
theorem portrait_descriptions_end : ∃ m₀ m, Machine.start Sample.env Sample.cramped = .ok m₀ ∧
    CarefulRun m₀ m ∧
    m = ((Operation.copyArguments 35 Sample.whole).run Sample.env (Sample.gallery m₀)).2 ∧
    LoopFree m.object? ∧ ∃ text, describe (some ⟨40⟩) m = (.ok text, m) := by
  obtain ⟨m₀, hstart, hgallery, hfacts⟩ := Sample.careful_gallery
  have hm := hgallery.untangled (Machine.untangled_start hstart)
  obtain ⟨c, hc, -⟩ := Option.map_eq_some_iff.mp hfacts.1.1
  have hpermits : (Sample.gallery m₀).Permits Sample.env ∅
      (.copyArguments 35 Sample.whole) := by
    refine fun a _ => ⟨fun h hh => (by cases hh), fun h hh => hh.elim, fun slot h hh => ?_⟩
    rw [Sample.memos_gallery hstart] at hh
    cases hh
  have hrun := hgallery.trans (Sample.careful_step hpermits)
  refine ⟨m₀, _, hstart, hrun, rfl, (descriptions_end hstart hrun).1, ?_⟩
  rcases (descriptions_end hstart hrun).2 (some ⟨40⟩) with hreturns | ⟨h, fault, hh, hread, -⟩
  · exact hreturns
  · -- The array is still there.
    obtain rfl : ⟨40⟩ = h := Option.some.inj hh
    have hbuffer := (read_eq_ok_iff hm.heap).mp hfacts.2.2.1.2.2.2.2.2.eq_ok
    have hlive : (Sample.gallery m₀).Outside ∅ ⟨40⟩ := ⟨by simp [hbuffer], fun hmem => hmem⟩
    have hcopy : (Operation.copyArguments 35 Sample.whole).run Sample.env (Sample.gallery m₀) =
        copyArguments Sample.env c Sample.whole (Sample.gallery m₀) := by
      rw [Operation.run, bind_of_ok (classAt_of_get? hc)]
    have hstays := hlive.of_run hm.heap (Sample.changing_copyArguments c Sample.whole)
      Prod.mk.eta.symm
    have hafter := hrun.untangled (Machine.untangled_start hstart)
    rw [hcopy] at hread hafter
    obtain ⟨o, ho⟩ := Option.ne_none_iff_exists'.mp hstays.1
    rw [(read_eq_ok_iff hafter.heap).mpr ho] at hread
    cases hread

section Unresolved

variable {r : ArgumentCopy} {c : Class} {d : DynamicConstant} {k : Nat} {index : UInt16}
  {entry : PoolEntry} (hlisted : d.bootstrap.arguments[k]? = some index)
  (hentry : c.pool.get? index = some entry) (hindex : index ≠ 0) (hlazy : entry.isLazy = true)
  (hmemo : m.memos.lookup ⟨c.id, index⟩ = none) (hresolve : r.resolve = false)

include hlisted hentry hindex hlazy hmemo hresolve

/-- The fallback stands for a constant that is not resolved. -/
theorem argumentValue_of_unresolved (bound : Nat) :
    argumentValue env (constantObjectWithin env (bound + 1)) r c d k m = (.ok r.fallback, m) := by
  have hnone : constantObjectWithin env (bound + 1) c index r.resolve m = (.ok none, m) := by
    show constantObjectWith env (constantObjectWithin env bound) c index r.resolve m = _
    rw [constantObjectWith_run hentry hindex hlazy, hmemo, hresolve]
    rfl
  unfold argumentValue
  rw [if_neg (by omega), if_neg (by omega), if_neg (by omega), if_neg (by omega), Int.toNat_natCast,
    hlisted, orFail_some, bind_of_ok (pure_run index m), bind_of_ok hnone]
  dsimp only
  rw [hresolve]
  rfl

/-- A request for one argument that is not resolved puts the fallback into the array, also if
    it is the array itself. -/
theorem refers_self_of_copyArguments {a : ObjectArray} (hw : m.heap.WellFormed)
    (hread : m.heap.read r.buffer = .ok (.array a)) (hrange : r.InRange a.elements.size)
    (hnames : r.Names c d) (hstart : r.start.toInt = k) (hstop : r.stop.toInt = k + 1)
    (hself : r.fallback = some r.buffer) :
    ∃ m', copyArguments env c r m = (.ok (), m') ∧ m'.heap.WellFormed ∧
      Refers m'.object? r.buffer r.buffer := by
  -- The machine after the one element is set.
  obtain ⟨m', hstored, ⟨hw', o, hobject, rfl⟩, -⟩ := exists_setElement
    ⟨Machine.carries_of_read hw hread rfl, rfl⟩ r.position.toInt.toNat (some r.buffer)
  refine ⟨m', ?_, hw', _, hobject, ?_⟩
  · -- The request is for a single argument, so the loop has one step.
    have hone : (r.stop.toInt - r.start.toInt).toNat = 1 := by omega
    have hcopy : copyArgument env
        (constantObjectWithin env (m.heap.config.capacity + 2)) r c d 0 m = (.ok (), m') := by
      have hnumber : r.start.toInt + (0 : Nat) = k := by omega
      rw [copyArgument_eq, hnumber, bind_of_ok (argumentValue_of_unresolved hlisted hentry hindex
        hlazy hmemo hresolve _), hself]
      exact hstored
    rw [copyArguments_of_read hread, if_pos (ArgumentCopy.fits_iff.mpr hrange),
      bind_of_ok (hnames.run m), hone, forEach_range_succ, List.range_zero, forEach]
    simp only [pure_bind, bind_assoc]
    rw [bind_of_ok hcopy]
    rfl
  · have hroom : r.position.toInt.toNat < a.elements.size := by
      have := hrange.position
      have := hrange.room
      omega
    -- The place of the argument is inside the array, so the array stands in it.
    refine List.mem_filterMap.mpr ⟨some r.buffer, Array.mem_toList_iff.mpr ?_, rfl⟩
    exact Array.mem_setIfInBounds hroom

end Unresolved

/-- What one careless request does: nothing stands in the way of an array that stands for
    its own missing arguments, and then it holds itself and has no description. -/
theorem description_without_end : ∃ m₀ m, Machine.start Sample.env Sample.cramped = .ok m₀ ∧
    CarefulRun m₀ m ∧
    (∃ m', (Operation.copyArguments 35 Sample.tied).run Sample.env m = (.ok (), m') ∧
      Refers m'.object? ⟨40⟩ ⟨40⟩ ∧ ∀ text m'', describe (some ⟨40⟩) m' ≠ (.ok text, m'')) := by
  obtain ⟨m₀, hstart, hgallery, hfacts⟩ := Sample.careful_gallery
  refine ⟨m₀, Sample.gallery m₀, hstart, hgallery, ?_⟩
  have hm := hgallery.untangled (Machine.untangled_start hstart)
  have hsound : (Sample.gallery m₀).Sound := by
    have hreachable : (Sample.gallery m₀).Reachable (fun _ {_} _ => True) :=
      ⟨_, _, m₀, hstart,
        Run.perform (Sample.invoker_runs (fun _ => trivial)) (fun _ _ _ => trivial) m₀⟩
    exact hreachable.sound
  obtain ⟨⟨hclass, -⟩, ⟨-, hmemo⟩, ⟨-, -, -, -, -, hbuffer⟩, -⟩ := hfacts
  generalize Sample.gallery m₀ = m at hm hsound hclass hmemo hbuffer ⊢
  obtain ⟨c, hc, hparts⟩ := Option.map_eq_some_iff.mp hclass
  simp only [Prod.mk.injEq, List.map_cons, List.map_nil, List.cons.injEq] at hparts
  obtain ⟨-, ⟨-, hleft, hright, -⟩, -, hmethod, -⟩ := hparts
  rw [← show c.id = 35 from hsound.ids hc] at hmemo
  -- The constant of the sample has one argument, which has not been resolved.
  have hnames : Sample.tied.Names c ⟨"left", "I", { method := 4, arguments := [9] }⟩ :=
    ⟨8, 2, rfl, hleft, hmethod, by decide⟩
  have hrange : Sample.tied.InRange 8 := ⟨by decide, by decide, by decide, by decide⟩
  obtain ⟨m', hrun, hw', hself⟩ := refers_self_of_copyArguments (k := 0) (by rfl) hright (by decide)
    rfl hmemo rfl hm.heap hbuffer.eq_ok hrange hnames rfl rfl rfl
  refine ⟨m', ?_, hself, describe_of_loop hw' (.single hself)⟩
  rw [Operation.run, bind_of_ok (classAt_of_get? hc)]
  exact hrun

end Linkage
