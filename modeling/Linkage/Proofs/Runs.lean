import Linkage.Proofs.Linking

/-! # Runs go through changes

    Every operation is made of a few linking actions: those that define and load
    classes, those that fill member names, setting a call site and calling a
    bootstrap method. These go through changes, so every operation and every run
    does. -/

namespace Linkage

open Link

variable {env : Environment}

/-! ## Linking actions -/

/-- The actions that do more than look at the machine and store new objects. -/
inductive Linking (env : Environment) : (α : Type) → Link α → Prop where
  | load (name : String) : Linking env Class (loadClass env name)
  | define (d : ClassDeclaration) : Linking env Class (defineClass env d)
  | derive (bytes : Text.Bytes) : Linking env Class (deriveClass env bytes)
  | arrayOf (component : ClassId) :
      Linking env Class (classAt component >>= defineArrayClass)
  | init (mn reflected : Handle) : Linking env Unit (initMemberName mn reflected)
  | expand (mn : Handle) : Linking env Unit (expandMemberName env mn)
  | resolve (mn : Handle) (caller : Option Handle) (speculative : Bool) :
      Linking env (Option Handle) (resolveMemberName mn caller speculative)
  | setTarget (callSite target : Handle) : Linking env Unit (setCallSiteTarget callSite target)
  | invoke {invoke : Invoker} (known : env.invoker = some invoke) (c : Class) (buffer : Handle) :
      Linking env (Option Handle) (invoke c buffer)

/-- The action is made of linking actions. -/
abbrev Links (env : Environment) {α : Type} (x : Link α) : Prop :=
  MadeOf (Linking env) x

@[grind ←] theorem links_loadClass (name : String) : Links env (loadClass env name) :=
  .given (.load name)

@[grind ←] theorem links_initMemberName (mn reflected : Handle) :
    Links env (initMemberName mn reflected) :=
  .given (.init mn reflected)

@[grind ←] theorem links_expandMemberName (mn : Handle) : Links env (expandMemberName env mn) :=
  .given (.expand mn)

@[grind ←] theorem links_resolveMemberName (mn : Handle) (caller : Option Handle)
    (speculative : Bool) : Links env (resolveMemberName mn caller speculative) :=
  .given (.resolve mn caller speculative)

@[grind ←] theorem links_setCallSiteTarget (callSite target : Handle) :
    Links env (setCallSiteTarget callSite target) :=
  .given (.setTarget callSite target)

/-- A linking action goes through changes, or it is the call of a bootstrap method. -/
theorem Linking.changing_or_invoke {rule : Discipline} {p : (α : Type) → Link α → Prop}
    (changing : ∀ {α : Type} {x : Link α}, Changing rule x → p α x)
    (invoke : ∀ invoke, env.invoker = some invoke → ∀ c buffer, p (Option Handle) (invoke c buffer))
    {α : Type} {x : Link α} (h : Linking env α x) : p α x := by
  cases h with
  | load name => exact changing (changing_of_goes (loads_loadClass env name))
  | define d => exact changing (changing_of_goes (loads_defineClass env d))
  | derive bytes => exact changing (changing_of_goes (loads_deriveClass env bytes))
  | arrayOf component =>
    refine changing (fun m => (goes_bind (Q := fun c m' => c ∈ m'.classes.classes)
      (goes_classAt component) ?_).1)
    rintro c m₁ _ ⟨rfl, hget⟩
    exact goes_defineArrayClass (ClassTable.mem_of_get? hget)
  | init mn reflected => exact changing (changing_initMemberName mn reflected)
  | expand mn => exact changing (changing_expandMemberName env mn)
  | resolve mn caller speculative =>
    exact changing (changing_resolveMemberName mn caller speculative)
  | setTarget callSite target => exact changing (changing_setCallSiteTarget callSite target)
  | invoke known c buffer => exact invoke _ known c buffer

/-- A linking action goes through changes if the bootstrap methods do. -/
theorem Linking.changing {rule : Discipline}
    (hinvoke : ∀ invoke, env.invoker = some invoke → ∀ c buffer, Changing rule (invoke c buffer))
    {α : Type} {x : Link α} (h : Linking env α x) : Changing rule x :=
  h.changing_or_invoke id hinvoke

/-! ## Signatures and reflection objects -/

@[grind ←] theorem links_classOfType (t : TypeDescriptor) : Links env (classOfType env t) :=
  links_loadClass t.className

@[grind ←] theorem links_classOfDescriptor (descriptor : String) :
    Links env (classOfDescriptor env descriptor) := by
  unfold classOfDescriptor
  grind

@[grind ←] theorem links_newMethodType (descriptor : String) :
    Links env (newMethodType env descriptor) := by
  unfold newMethodType
  have hstore : ∀ t, Links env (allocate (.methodType t)) := fun t => .allocate _ trivial
  grind

theorem links_reflectMember (env : Environment) (member : MatchedMember) :
    Links env (reflectMember env member) := by
  -- One fact for each kind of reflection object, for `grind` to apply.
  have hfield : ∀ f, Links env (allocate (.field f)) := fun f => .allocate _ trivial
  have hmethod : ∀ f, Links env (allocate (.method f)) := fun f => .allocate _ trivial
  have hconstructor : ∀ f, Links env (allocate (.constructor f)) := fun f => .allocate _ trivial
  cases member with
  | field f =>
    show Links env (newReflectedField env f)
    unfold newReflectedField
    grind
  | method r =>
    show Links env (newReflectedMethod r)
    unfold newReflectedMethod
    grind
  | constructor r =>
    show Links env (newReflectedConstructor r)
    unfold newReflectedConstructor
    grind

/-! ## Member names -/

theorem links_resultSlot (env : Environment) (results : Handle) (index : Nat) :
    Links env (resultSlot results index) := by
  unfold resultSlot
  rw [resolve_readAt]
  grind

theorem links_fillResults (env : Environment) (results : Handle) (index : Nat)
    (members : List MatchedMember) : Links env (fillResults env results index members) := by
  induction members generalizing index with
  | nil => exact .value true
  | cons member rest ih =>
    unfold fillResults
    have hslot := links_resultSlot env results index
    have hreflect := links_reflectMember env member
    grind

theorem links_optionalString (env : Environment) (handle : Option Handle) :
    Links env (optionalString handle) := by
  unfold optionalString
  grind

theorem links_check (env : Environment) (r : EnumerationRequest) : Links env r.check := by
  have hcaller : Links env r.callerFits := by
    unfold EnumerationRequest.callerFits
    grind
  unfold EnumerationRequest.check
  split
  · refine .sequence (madeOf_classOfObject _) (fun found => ?_)
    cases found with
    | none => exact .value none
    | some c =>
      refine .sequence hcaller (fun fits => ?_)
      grind
  · exact .sequence (madeOf_classOfObject _) (fun _ => .value none)
  · exact .value none

@[grind ←] theorem links_enumerateMembers (r : EnumerationRequest) :
    Links env (enumerateMembers env r) := by
  unfold enumerateMembers
  have hcheck := links_check env r
  have hstring := links_optionalString env
  have hfill := links_fillResults env
  grind

theorem links_resolvedField (env : Environment) (mn : Handle) (wantStatic : Bool) :
    Links env (resolvedField mn wantStatic) := by
  unfold resolvedField
  grind

@[grind ←] theorem links_objectFieldOffset (mn : Handle) : Links env (objectFieldOffset mn) :=
  .sequence (links_resolvedField env mn false) (fun _ => .value _)

@[grind ←] theorem links_staticFieldOffset (mn : Handle) : Links env (staticFieldOffset mn) :=
  .sequence (links_resolvedField env mn true) (fun _ => .value _)

@[grind ←] theorem links_staticFieldBase (mn : Handle) : Links env (staticFieldBase mn) :=
  .sequence (links_resolvedField env mn true) (fun _ => madeOf_orFail _ _)

theorem links_vmInfo (env : Environment) (mn : Handle) (n : MemberName) :
    Links env (vmInfo mn n) := by
  unfold vmInfo
  grind

@[grind ←] theorem links_memberVMInfo (mn : Handle) : Links env (memberVMInfo mn) := by
  unfold memberVMInfo
  refine .sequence (madeOf_readMemberName mn) (fun n => ?_)
  refine .sequence (links_vmInfo env mn n) (fun info => ?_)
  refine .sequence (madeOf_coreClass _) (fun object => ?_)
  refine .sequence (madeOf_newArray object.id 2) (fun array => ?_)
  refine .sequence (.allocate (.long info.1) trivial) (fun index => ?_)
  -- Both elements are set by a single update of the array.
  have hmap : (fun a => Object.setElement 1 info.2 (Object.setElement 0 (some index) a)) =
      Object.mapElements (fun es =>
        (es.setIfInBounds 0 (some index)).setIfInBounds 1 info.2) := by
    funext object
    cases object <;> rfl
  refine .sequence ?_ (fun _ => .value array)
  rw [hmap]
  exact .setElements array _ (fun _ => by simp)

/-! ## Constants -/

theorem links_constantAt (env : Environment) (c : Class) (index : UInt16) :
    Links env (constantAt c index) :=
  madeOf_orFail _ _

/-- A constant of one kind, resolved on first use. -/
theorem links_resolveOnce {compute : Link Handle} (c : Class) (index : UInt16)
    (h : Links env compute) : Links env (resolveOnce c index compute) :=
  .memoize _ h

@[grind ←] theorem links_resolveClassConstant (c : Class) (index : UInt16) :
    Links env (resolveClassConstant env c index) := by
  unfold resolveClassConstant
  refine .sequence (links_constantAt env c index) (fun entry => ?_)
  cases entry with
  | classRef name =>
    exact links_resolveOnce c index (.sequence (links_loadClass name) (fun c => .value _))
  | _ => exact madeOf_fail _

@[grind ←] theorem links_resolveStringConstant (c : Class) (index : UInt16) :
    Links env (resolveStringConstant c index) := by
  unfold resolveStringConstant
  refine .sequence (links_constantAt env c index) (fun entry => ?_)
  cases entry with
  | stringRef value => exact links_resolveOnce c index (.intern value)
  | _ => exact madeOf_fail _

@[grind ←] theorem links_resolveMethodTypeConstant (c : Class) (index : UInt16) :
    Links env (resolveMethodTypeConstant env c index) := by
  unfold resolveMethodTypeConstant
  refine .sequence (links_constantAt env c index) (fun entry => ?_)
  cases entry with
  | methodType descriptor => exact links_resolveOnce c index (links_newMethodType descriptor)
  | _ => exact madeOf_fail _

theorem links_memberReferenceAt (env : Environment) (c : Class) (index : UInt16) :
    Links env (memberReferenceAt c index) := by
  unfold memberReferenceAt
  refine .sequence (links_constantAt env c index) (fun entry => ?_)
  cases entry <;> first | exact .value _ | exact madeOf_fail _

theorem links_newMethodHandle (c : Class) (kind : ReferenceKind) (reference : UInt16) :
    Links env (newMethodHandle env c kind reference) := by
  unfold newMethodHandle
  refine .sequence (links_memberReferenceAt env c reference) (fun described => ?_)
  refine .sequence (links_resolveClassConstant c described.2.owner) (fun clazz => ?_)
  refine .sequence (.intern described.2.name) (fun name => ?_)
  refine .sequence (.intern described.2.descriptor) (fun type => ?_)
  -- The member name starts without identity and target.
  refine .sequence (.allocate _ ⟨rfl, rfl⟩) (fun mn => ?_)
  refine .sequence (links_resolveMemberName mn (some c.classObject) false) (fun resolved => ?_)
  cases resolved with
  | some member => exact .allocate _ trivial
  | none => exact madeOf_fail _

@[grind ←] theorem links_resolveMethodHandleConstant (c : Class) (index : UInt16) :
    Links env (resolveMethodHandleConstant env c index) := by
  unfold resolveMethodHandleConstant
  refine .sequence (links_constantAt env c index) (fun entry => ?_)
  cases entry with
  | methodHandle kind reference =>
    exact links_resolveOnce c index (links_newMethodHandle c kind reference)
  | _ => exact madeOf_fail _

theorem links_dynamicConstant (env : Environment) (r : ArgumentCopy) (c : Class) :
    Links env (r.dynamicConstant c) := by
  unfold ArgumentCopy.dynamicConstant
  grind

theorem links_dynamicType (env : Environment) (d : DynamicConstant) :
    Links env (dynamicType env d) := by
  unfold dynamicType
  grind

section Open

variable {constant : Class → UInt16 → Bool → Link (Option Handle)}

theorem links_argumentValue (hconstant : ∀ c index resolve, Links env (constant c index resolve))
    (r : ArgumentCopy) (c : Class) (d : DynamicConstant) (number : Int) :
    Links env (argumentValue env constant r c d number) := by
  unfold argumentValue
  have htype := links_dynamicType env d
  have hcount : Links env (allocate (.integer r.count)) := .allocate _ trivial
  grind

theorem links_copyArgumentsWith
    (hconstant : ∀ c index resolve, Links env (constant c index resolve)) (c : Class)
    (r : ArgumentCopy) : Links env (copyArgumentsWith env constant c r) := by
  unfold copyArgumentsWith
  rw [resolve_readAt]
  have hcopy : ∀ d distance, Links env (copyArgument env constant r c d distance) := by
    intro d distance
    unfold copyArgument
    refine .sequence (links_argumentValue hconstant r c d _) (fun value => ?_)
    rw [resolve_updateAt]
    exact madeOf_setElement _ _ _
  have hdynamic := links_dynamicConstant env r c
  grind

theorem links_callBootstrap (hconstant : ∀ c index resolve, Links env (constant c index resolve))
    (c : Class) (index number : UInt16) :
    Links env (callBootstrap env constant c index number) := by
  unfold callBootstrap
  cases hinvoker : env.invoker with
  | none =>
    -- Without an invoker the rest is never reached.
    show Links env (fail .noInvoker)
    exact madeOf_fail _
  | some invoke =>
    rw [orFail_some]
    show Links env (orFail (c.bootstrapMethod? number) .bootstrapIndexOutOfRange >>= _)
    refine .sequence (madeOf_orFail _ _) (fun bootstrap => ?_)
    refine .sequence (madeOf_coreClass _) (fun object => ?_)
    refine .sequence (madeOf_newArray _ _) (fun buffer => ?_)
    refine .sequence (links_copyArgumentsWith hconstant c _) (fun _ => ?_)
    refine .sequence (madeOf_elements buffer) (fun arguments => ?_)
    refine .sequence (.recordCall _) (fun _ => ?_)
    exact .sequence (.given (.invoke hinvoker c buffer)) (fun result => madeOf_orFail _ _)

theorem links_resolveDynamicConstantWith
    (hconstant : ∀ c index resolve, Links env (constant c index resolve)) (c : Class)
    (index : UInt16) : Links env (resolveDynamicConstantWith env constant c index) := by
  unfold resolveDynamicConstantWith
  refine .sequence (links_constantAt env c index) (fun entry => ?_)
  cases entry with
  | dynamic number _ _ =>
    exact links_resolveOnce c index (links_callBootstrap hconstant c index number)
  | _ => exact madeOf_fail _

theorem links_constantObjectWith
    (hconstant : ∀ c index resolve, Links env (constant c index resolve)) (c : Class)
    (index : UInt16) (resolve : Bool) :
    Links env (constantObjectWith env constant c index resolve) := by
  unfold constantObjectWith
  have hlazy : ∀ entry, Links env (resolveLazyWith env constant c index entry) := by
    intro entry
    have hdynamic := links_resolveDynamicConstantWith hconstant c index
    unfold resolveLazyWith
    grind
  have hbox : ∀ entry object, PoolEntry.box? entry = some object →
      Links env (allocate object) := by
    intro entry object hobject
    refine .allocate object ?_
    cases entry <;> simp only [PoolEntry.box?, Option.some.injEq, reduceCtorEq] at hobject <;>
      subst hobject <;> trivial
  grind

end Open

theorem links_constantObjectWithin (env : Environment) (bound : Nat) (c : Class) (index : UInt16)
    (resolve : Bool) : Links env (constantObjectWithin env bound c index resolve) := by
  induction bound generalizing c index resolve with
  | zero => exact madeOf_boundReached
  | succ bound ih => exact links_constantObjectWith ih c index resolve

theorem links_callBound (env : Environment) : Links env callBound := by
  refine .view _ (fun {m m'} h => ?_)
  have hcapacity := congrArg Store.capacity h.heap
  exact congrArg (· + 2) hcapacity

@[grind ←] theorem links_constantObject (c : Class) (index : UInt16) (resolve : Bool) :
    Links env (constantObject env c index resolve) :=
  .sequence (links_callBound env) (fun bound => links_constantObjectWithin env bound c index resolve)

@[grind ←] theorem links_resolveDynamicConstant (c : Class) (index : UInt16) :
    Links env (resolveDynamicConstant env c index) :=
  .sequence (links_callBound env) (fun bound =>
    links_resolveDynamicConstantWith (links_constantObjectWithin env bound) c index)

@[grind ←] theorem links_copyArguments (c : Class) (r : ArgumentCopy) :
    Links env (copyArguments env c r) :=
  .sequence (links_callBound env) (fun bound =>
    links_copyArgumentsWith (links_constantObjectWithin env bound) c r)

/-! ## Native methods -/

theorem links_required (env : Environment) (args : Arguments) (index : Nat) (what : String) :
    Links env (args.required index what) :=
  madeOf_orFail _ _

theorem links_copyOutBootstrapArguments (env : Environment) (args : Arguments) :
    Links env (copyOutBootstrapArguments env args) := by
  unfold copyOutBootstrapArguments
  have hrequired := links_required env args
  have hinfo : ∀ info, Links env (indexInfo info) := by
    intro info
    unfold indexInfo
    grind
  grind

@[grind ←] theorem links_runNative (native : Native) (args : Arguments) :
    Links env (runNative env native args) := by
  unfold runNative runNative.setTarget
  have hrequired := links_required env args
  have hcopy := links_copyOutBootstrapArguments env args
  cases native <;> grind

@[grind ←] theorem links_invokeNative (thread : Thread) (className name descriptor : String)
    (args : Arguments) : Links env (invokeNative env thread className name descriptor args) := by
  unfold invokeNative callNative
  grind

/-! ## Descriptions -/

theorem links_describeWithin (env : Environment) (depth : Nat) (r : Option Handle) :
    Links env (describeWithin depth r) := by
  induction depth generalizing r with
  | zero => exact madeOf_boundReached
  | succ depth ih =>
    show Links env (describeWith (describeWithin depth) r)
    cases r with
    | none => exact .value _
    | some handle =>
      refine .sequence (.read handle) (fun object => ?_)
      cases object with
      | methodType t =>
        exact .sequence (madeOf_forEach (fun p => ih (some p)) t.parameters) (fun _ =>
          .sequence (ih (some t.result)) (fun _ => .value _))
      | _ => grind

theorem links_describe (env : Environment) (r : Option Handle) : Links env (describe r) := by
  refine .sequence (.view _ (fun {m m'} h => ?_)) (fun live => links_describeWithin env _ r)
  exact congrArg Store.live h.heap

/-! ## Operations -/

/-- Direct uses of the heap. -/
inductive Operation.OnHeap : {α : Type} → Operation α → Prop where
  | allocate (object : Object) : (Operation.allocate object).OnHeap
  | update (handle : Handle) (f : Object → Object) : (Operation.update handle f).OnHeap
  | release (handle : Handle) : (Operation.release handle).OnHeap
  | collectGarbage : Operation.collectGarbage.OnHeap

/-- Every other operation is made of linking actions. -/
theorem Operation.links {α : Type} (env : Environment) (op : Operation α) (h : ¬ op.OnHeap) :
    Links env (op.run env) := by
  cases op with
  | allocate object => exact absurd (.allocate object) h
  | update handle f => exact absurd (.update handle f) h
  | release handle => exact absurd (.release handle) h
  | collectGarbage => exact absurd .collectGarbage h
  | defineClass d => exact .given (.define d)
  | deriveClass bytes => exact .given (.derive bytes)
  | defineArrayClass component => exact .given (.arrayOf component)
  | reflectMember matched => exact links_reflectMember env matched
  | describe reference => exact links_describe env reference
  | classObjectSignature handle => exact madeOf_signatureOr _ handle
  | _ => simp only [Operation.run]; grind

/-! ## Runs -/

/-- An operation keeps what every change and the bootstrap methods keep. -/
theorem Operation.keeps {rule : Discipline} {P : Machine → Prop}
    (hP : ∀ {m m' : Machine}, Change rule m m' → P m → P m')
    (hinvoke : ∀ invoke, env.invoker = some invoke → ∀ c buffer, Keeps P (invoke c buffer))
    {α : Type} {op : Operation α} {m : Machine} (follows : rule m op) (hm : P m) :
    P (op.run env m).2 := by
  by_cases hheap : op.OnHeap
  · cases hheap with
    | allocate object => exact hP (.allocate object (Or.inr follows)) hm
    | update handle f => exact hP (.update handle f follows) hm
    | release handle => exact hP (.release handle follows) hm
    | collectGarbage => exact hP .collectGarbage hm
  · refine (op.links env hheap).keeps hP (fun hlinking => ?_) m hm
    exact hlinking.changing_or_invoke (p := fun _ x => Keeps P x)
      (fun hx m hm => (hx m).keeps hP hm) hinvoke

/-- A run goes through changes. -/
theorem Run.changes {rule : Discipline} {m m' : Machine} (h : Run rule m m') :
    Changes rule m m' := by
  induction h with
  | refl m => exact Changes.refl m
  | @step m₀ m α env op _ follows _ hinvoke ih =>
    refine Operation.keeps (P := Changes rule m₀) (fun hchange hm => hm.trans (.single hchange)) ?_
      follows ih
    exact fun invoke known c buffer m hm => hm.trans (hinvoke invoke known c buffer m)

theorem changing_forEach {rule : Discipline} {α : Type} {f : α → Link Class}
    (hf : ∀ a, Loads rule (f a)) (as : List α) : Changing rule (forEach f as) :=
  fun m => (goes_forEach as m (fun a _ m' _ => hf a m')
    (fun _ _ _ hc hmem => hc.mem_classes hmem)).1

/-- What startup does after the declared classes. -/
theorem changing_defineOtherClasses (rule : Discipline) (env : Environment) :
    Changing rule (do
      let _ ← forEach definePrimitiveClass Primitive.all
      let _ ← loadClass env "[Ljava/lang/Object;") := by
  refine changing_bind (changing_forEach loads_definePrimitiveClass _) (fun _ => ?_)
  exact changing_bind (changing_of_goes (loads_loadClass env _)) (fun _ m => Changes.refl m)

/-- The core classes are defined through changes. -/
theorem changing_defineCoreClasses (rule : Discipline) (env : Environment) :
    Changing rule (defineCoreClasses env) :=
  changing_bind (changing_forEach (loads_defineClass env) _)
    (fun _ => changing_defineOtherClasses rule env)

theorem Machine.start_eq_ok_iff {env : Environment} {config : HeapConfig} {m : Machine} :
    Machine.start env config = .ok m ↔
      defineCoreClasses env (Machine.bare config) = (.ok (), m) := by
  unfold Machine.start
  split
  · rename_i u m₁ hm₁
    simp [hm₁]
  · rename_i e m₁ hm₁
    simp [hm₁]

/-- Every machine that is ever reached comes from the bare one through changes. -/
theorem Machine.Reachable.changes {rule : Discipline} {m : Machine} (h : m.Reachable rule) :
    ∃ config, Changes rule (Machine.bare config) m := by
  obtain ⟨env, config, m₀, hstart, hrun⟩ := h
  have hcore := (changing_defineCoreClasses rule env).of_run (Machine.start_eq_ok_iff.mp hstart)
  exact ⟨config, hcore.trans hrun.changes⟩

end Linkage
