import Linkage.Proofs.ConstantCycles

/-! # Answers of bootstrap methods

    A machine does not keep for which constants bootstrap methods have been called. Here
    the actions that call them are written once more as `Traced` actions, which also list
    the slots for which a bootstrap method has answered with an object. Only the call
    itself sees the invoker: everything else is handed an environment without one.

    * `Operation.answers`: the slots for which bootstrap methods answer during an operation.
    * `Operation.action_traced`: apart from the list, the traced operation is the
      operation. So no bootstrap method is called unnoticed. -/

namespace Linkage

open Link

variable {α β : Type}

/-- An action and the slots for which bootstrap methods answer, in order, when it is
    run on a machine. -/
structure Traced (α : Type) where
  action : Link α
  answers : Machine → List ConstantSlot

namespace Traced

/-- An action without answers. -/
def silent (x : Link α) : Traced α := ⟨x, fun _ => []⟩

/-- The call for a constant: its value is the answer. -/
def answering (slot : ConstantSlot) (call : Link Handle) : Traced Handle where
  action := call
  answers m :=
    match (call m).1 with
    | .ok _ => [slot]
    | .error _ => []

protected def bind (x : Traced α) (f : α → Traced β) : Traced β where
  action := x.action >>= fun a => (f a).action
  answers m :=
    x.answers m ++
      match x.action m with
      | (.ok a, m') => (f a).answers m'
      | (.error _, _) => []

instance : Monad Traced where
  pure a := silent (pure a)
  bind := Traced.bind

/-- Run an action for each element in turn and collect the values. -/
def forEach (f : α → Traced β) : List α → Traced (List β)
  | [] => pure []
  | a :: as => do
      let b ← f a
      let bs ← forEach f as
      pure (b :: bs)

/-- The error that an action throws as a value. -/
def attempt (x : Traced α) : Traced (Except LinkError α) :=
  ⟨Link.attempt x.action, x.answers⟩

end Traced

/-- The environment without an invoker. -/
def Environment.mute (env : Environment) : Environment :=
  { env with invoker := none }

/-! ## Traced actions -/

namespace Traced

section Open

variable (env : Environment) (constant : Class → UInt16 → Bool → Traced (Option Handle))

def argumentValue (r : ArgumentCopy) (c : Class) (d : DynamicConstant) (number : Int) :
    Traced (Option Handle) :=
  if number = -4 then constant c d.bootstrap.method true
  else if number = -3 then silent (some <$> intern d.name)
  else if number = -2 then silent (some <$> dynamicType env.mute d)
  else if number = -1 then silent (some <$> allocate (.integer r.count))
  else do
    let argument ←
      silent (orFail d.bootstrap.arguments[number.toNat]? (.argumentOutOfRange number))
    match ← constant c argument r.resolve with
    | some value => pure (some value)
    | none => pure (if r.resolve then none else r.fallback)

def copyArgument (r : ArgumentCopy) (c : Class) (d : DynamicConstant) (distance : Nat) :
    Traced Unit := do
  let value ← argumentValue env constant r c d (r.start.toInt + distance)
  silent do
    let place ← resolve r.buffer
    updateAt place (Object.setElement (r.position.toInt.toNat + distance) value)

def copyArgumentsWith (c : Class) (r : ArgumentCopy) : Traced Unit := do
  let place ← silent (resolve r.buffer)
  let object ← silent (readAt place)
  let buffer ← silent (orFail object.array? .notAnArgumentBuffer)
  if !r.fits buffer.elements.size then
    silent (fail (.badArgumentRange r.start r.stop r.position buffer.elements.size))
  else do
    let d ← silent (r.dynamicConstant c)
    let _ ← forEach (copyArgument env constant r c d)
      (List.range (r.stop.toInt - r.start.toInt).toNat)

def callBootstrap (c : Class) (index number : UInt16) : Traced Handle := do
  let invoke ← silent (orFail env.invoker .noInvoker)
  let bootstrap ← silent (orFail (c.bootstrapMethod? number) .bootstrapIndexOutOfRange)
  let object ← silent (coreClass ClassDeclaration.objectName)
  let buffer ← silent (newArray object.id (bootstrap.arguments.length + 4))
  copyArgumentsWith env constant c (ArgumentCopy.all index bootstrap.arguments.length buffer)
  let arguments ← silent (elements buffer)
  silent (recordCall { caller := c.id, arguments })
  answering { owner := c.id, index } (do orFail (← invoke c buffer) .bootstrapReturnedNull)

def memoize (slot : ConstantSlot) (compute : Traced Handle) : Traced Handle := do
  match ← silent (memo? slot) with
  | some value => pure value
  | none => do
      let value ← compute
      match ← silent (memo? slot) with
      | some first => pure first
      | none => do
          silent (remember slot value)
          pure value

def resolveDynamicConstantWith (c : Class) (index : UInt16) : Traced Handle := do
  match ← silent (constantAt c index) with
  | .dynamic number _ _ =>
      memoize { owner := c.id, index } (callBootstrap env constant c index number)
  | _ => silent (fail .notADynamicConstant)

/-- Only dynamic constants lead to calls, and only when they are resolved. -/
def constantObjectWith (c : Class) (index : UInt16) (resolve : Bool) : Traced (Option Handle) :=
  match c.pool.get? index, index ≠ 0 && resolve with
  | some (.dynamic _ _ _), true => some <$> resolveDynamicConstantWith env constant c index
  | _, _ =>
      silent (Linkage.constantObjectWith env.mute (fun _ _ _ => failWith .boundReached)
        c index resolve)

end Open

def constantObjectWithin (env : Environment) :
    Nat → Class → UInt16 → Bool → Traced (Option Handle)
  | 0, _, _, _ => silent (failWith .boundReached)
  | bound + 1, c, index, resolve =>
      constantObjectWith env (constantObjectWithin env bound) c index resolve

def constantObject (env : Environment) (c : Class) (index : UInt16) (resolve : Bool) :
    Traced (Option Handle) := do
  constantObjectWithin env (← silent callBound) c index resolve

def resolveDynamicConstant (env : Environment) (c : Class) (index : UInt16) : Traced Handle := do
  resolveDynamicConstantWith env (constantObjectWithin env (← silent callBound)) c index

def copyArguments (env : Environment) (c : Class) (r : ArgumentCopy) : Traced Unit := do
  copyArgumentsWith env (constantObjectWithin env (← silent callBound)) c r

def copyOutBootstrapArguments (env : Environment) (args : Arguments) : Traced Unit := do
  let caller ← silent (args.required 0 "caller")
  let found ← silent (classOfObject caller)
  let c ← silent (orFail found .nativeCallerNotAClass)
  let info ← silent (args.required 1 "indexInfo")
  let (count, index) ← silent (indexInfo info)
  let buffer ← silent (args.required 4 "buf")
  copyArguments env c
    { count
      index
      start := args.int 2
      stop := args.int 3
      buffer
      position := args.int 5
      resolve := args.boolean 6
      fallback := args.ref 7 }

def runNative (env : Environment) (native : Native) (args : Arguments) : Traced (Option Value) :=
  match native with
  | .copyOutBootstrapArguments => do
      copyOutBootstrapArguments env args
      pure none
  | native => silent (Linkage.runNative env.mute native args)

def callNative (env : Environment) (className name descriptor : String) (args : Arguments) :
    Traced (Option Value) := do
  let c ← silent (loadClass env.mute className)
  let native ← silent
    (orFail (c.native? name descriptor) (.noNativeImplementation className name descriptor))
  runNative env native args

def invokeNative (env : Environment) (thread : Thread) (className name descriptor : String)
    (args : Arguments) : Traced (Option Value × Thread) := do
  match ← attempt (callNative env className name descriptor args) with
  | .ok value => pure (value, thread)
  | .error e => pure (none, { pending := some e })

end Traced

/-- The operation with the answers of bootstrap methods. -/
def Operation.traced (env : Environment) : Operation α → Traced α
  | .constantObject owner index resolve => do
      Traced.constantObject env (← .silent (classAt owner)) index resolve
  | .resolveDynamicConstant owner index => do
      Traced.resolveDynamicConstant env (← .silent (classAt owner)) index
  | .copyArguments owner request => do
      Traced.copyArguments env (← .silent (classAt owner)) request
  | .runNative native args => Traced.runNative env native args
  | .invokeNative thread className name descriptor args =>
      Traced.invokeNative env thread className name descriptor args
  | op => .silent (op.run env.mute)

/-- The slots for which bootstrap methods answer during an operation, in order. -/
def Operation.answers (env : Environment) (op : Operation α) (m : Machine) : List ConstantSlot :=
  (op.traced env).answers m

/-- The other constants are not resolved, or not dynamic. -/
theorem not_resolved_of_cases {c : Class} {index : UInt16} {resolve : Bool}
    (h : ∀ number name descriptor, c.pool.get? index = some (.dynamic number name descriptor) →
      (decide (index ≠ 0) && resolve) = true → False)
    (number : UInt16) (name descriptor : String)
    (hentry : c.pool.get? index = some (.dynamic number name descriptor)) :
    index = 0 ∨ resolve = false := by
  by_cases hindex : index = 0
  · exact Or.inl hindex
  · refine Or.inr (Bool.eq_false_iff.mpr (fun hresolve => ?_))
    exact h number name descriptor hentry (by simp [hindex, hresolve])

/-! ## Without an invoker -/

section Mute

variable (env : Environment)

theorem loadClassWithin_mute (bound : Nat) :
    loadClassWithin env.mute bound = loadClassWithin env bound := by
  induction bound with
  | zero => rfl
  | succ bound ih =>
    funext name
    unfold loadClassWithin
    rw [ih]
    rfl

@[simp] theorem loadClass_mute : loadClass env.mute = loadClass env := by
  funext name
  unfold loadClass
  rw [loadClassWithin_mute]
  rfl

@[simp] theorem classOfType_mute : classOfType env.mute = classOfType env := by
  funext t
  simp [classOfType]

@[simp] theorem classOfDescriptor_mute : classOfDescriptor env.mute = classOfDescriptor env := by
  funext descriptor
  simp [classOfDescriptor]

@[simp] theorem newMethodType_mute : newMethodType env.mute = newMethodType env := by
  funext descriptor
  simp [newMethodType]

@[simp] theorem dynamicType_mute : dynamicType env.mute = dynamicType env := by
  funext d
  simp [dynamicType]

@[simp] theorem resolveClassConstant_mute :
    resolveClassConstant env.mute = resolveClassConstant env := by
  funext c index
  simp [resolveClassConstant]

@[simp] theorem resolveMethodTypeConstant_mute :
    resolveMethodTypeConstant env.mute = resolveMethodTypeConstant env := by
  funext c index
  simp [resolveMethodTypeConstant]

@[simp] theorem resolveMethodHandleConstant_mute :
    resolveMethodHandleConstant env.mute = resolveMethodHandleConstant env := by
  funext c index
  simp [resolveMethodHandleConstant, newMethodHandle]

@[simp] theorem reflectMember_mute : reflectMember env.mute = reflectMember env := by
  funext member
  cases member <;> simp [reflectMember, newReflectedField]

@[simp] theorem enumerateMembers_mute : enumerateMembers env.mute = enumerateMembers env := by
  have hfill : fillResults env.mute = fillResults env := by
    funext results index members
    induction members generalizing index with
    | nil => rfl
    | cons member rest ih => simp [fillResults, ih]
  funext r
  simp [enumerateMembers, hfill]

@[simp] theorem expandMemberName_mute : expandMemberName env.mute = expandMemberName env := by
  funext mn
  simp [expandMemberName, expandField]

theorem runNative_mute {native : Native} (h : native ≠ .copyOutBootstrapArguments)
    (args : Arguments) : runNative env.mute native args = runNative env native args := by
  cases native <;> simp_all [runNative]

/-- A constant that is not dynamic, or is not resolved, does without the invoker. -/
theorem constantObjectWith_mute {c : Class} {index : UInt16} {resolve : Bool}
    {constant constant' : Class → UInt16 → Bool → Link (Option Handle)}
    (h : ∀ number name descriptor, c.pool.get? index = some (.dynamic number name descriptor) →
      index = 0 ∨ resolve = false) :
    constantObjectWith env.mute constant c index resolve =
      constantObjectWith env constant' c index resolve := by
  unfold constantObjectWith
  split
  · rfl
  · rename_i hindex
    cases hentry : c.pool.get? index with
    | none => rfl
    | some entry =>
      cases entry with
      | dynamic number name descriptor =>
        rcases h number name descriptor hentry with hzero | hresolve
        · exact absurd (by simp [hzero]) hindex
        · simp [hresolve]
      | _ => simp [resolveLazyWith]

end Mute

/-! ## The answers of traced actions -/

namespace Traced

variable {x : Traced α} {f : α → Traced β} {m m' : Machine}

theorem answers_bind_of_ok {a : α} (h : x.action m = (.ok a, m')) :
    (x >>= f).answers m = x.answers m ++ (f a).answers m' := by
  show x.answers m ++ _ = _
  rw [h]

theorem answers_bind_of_error {e : Failure} (h : x.action m = (.error e, m')) :
    (x >>= f).answers m = x.answers m := by
  show x.answers m ++ _ = _
  rw [h, List.append_nil]

/-- Remembering a constant has the answers of computing it. -/
theorem answers_memoize {slot : ConstantSlot} {compute : Traced Handle}
    (h : m.memos.lookup slot = none) :
    (memoize slot compute).answers m = compute.answers m := by
  have hmemo : (silent (memo? slot)).action m = (.ok none, m) := by
    show memo? slot m = _
    rw [memo?_run, h]
  refine (answers_bind_of_ok hmemo).trans ?_
  show [] ++ (compute >>= _).answers m = _
  rw [List.nil_append]
  cases hrun : compute.action m with
  | mk result m₁ =>
    cases result with
    | error e => exact answers_bind_of_error hrun
    | ok value =>
      -- What follows the computation has no answers.
      rw [answers_bind_of_ok hrun, answers_bind_of_ok (memo?_run slot m₁)]
      cases m₁.memos.lookup slot <;> exact List.append_nil _

theorem answers_memoize_of_lookup {slot : ConstantSlot} {compute : Traced Handle} {value : Handle}
    (h : m.memos.lookup slot = some value) : (memoize slot compute).answers m = [] := by
  have hmemo : (silent (memo? slot)).action m = (.ok (some value), m) := by
    show memo? slot m = _
    rw [memo?_run, h]
  exact answers_bind_of_ok hmemo

end Traced

/-! ## The actions of traced actions -/

namespace Traced

@[simp] theorem action_silent (x : Link α) : (silent x).action = x := rfl

@[simp] theorem action_pure (a : α) : (pure a : Traced α).action = pure a := rfl

@[simp] theorem action_bind (x : Traced α) (f : α → Traced β) :
    (x >>= f).action = x.action >>= fun a => (f a).action := rfl

@[simp] theorem action_map (g : α → β) (x : Traced α) : (g <$> x).action = g <$> x.action := rfl

theorem action_forEach (f : α → Traced β) (as : List α) :
    (forEach f as).action = Link.forEach (fun a => (f a).action) as := by
  induction as with
  | nil => rfl
  | cons a as ih => simp [forEach, Link.forEach, ih]

section Open

variable {env : Environment} {constant : Class → UInt16 → Bool → Traced (Option Handle)}
  {plain : Class → UInt16 → Bool → Link (Option Handle)}
  (hconstant : ∀ c index resolve, (constant c index resolve).action = plain c index resolve)

include hconstant

theorem action_argumentValue (r : ArgumentCopy) (c : Class) (d : DynamicConstant) (number : Int) :
    (argumentValue env constant r c d number).action =
      Linkage.argumentValue env plain r c d number := by
  unfold argumentValue Linkage.argumentValue
  split
  · exact hconstant _ _ _
  split
  · rfl
  split
  · show some <$> dynamicType env.mute d = some <$> dynamicType env d
    rw [dynamicType_mute]
  split
  · rfl
  · refine congrArg (orFail _ _ >>= ·) (funext fun argument => ?_)
    rw [← hconstant]
    -- The value is passed on the same way.
    refine congrArg ((constant c argument r.resolve).action >>= ·) (funext fun value => ?_)
    cases value <;> rfl

theorem action_copyArgumentsWith (c : Class) (r : ArgumentCopy) :
    (copyArgumentsWith env constant c r).action = Linkage.copyArgumentsWith env plain c r := by
  have hcopy : ∀ d, (fun distance => (copyArgument env constant r c d distance).action) =
      Linkage.copyArgument env plain r c d := by
    intro d
    funext distance
    simp [copyArgument, Linkage.copyArgument, action_argumentValue hconstant]
  unfold copyArgumentsWith Linkage.copyArgumentsWith
  simp only [action_bind, action_silent, apply_ite action, action_forEach, hcopy, action_pure]

theorem action_callBootstrap (c : Class) (index number : UInt16) :
    (callBootstrap env constant c index number).action =
      Linkage.callBootstrap env plain c index number := by
  unfold callBootstrap Linkage.callBootstrap
  simp only [action_bind, action_silent, action_copyArgumentsWith hconstant]
  rfl

omit hconstant in
theorem action_memoize (slot : ConstantSlot) (compute : Traced Handle) :
    (memoize slot compute).action = Link.memoize slot compute.action := by
  unfold memoize Link.memoize
  simp only [action_bind, action_silent]
  congr 1
  funext found
  cases found with
  | some value => rfl
  | none =>
    simp only [action_bind, action_silent]
    congr 1
    funext value
    congr 1
    funext late
    cases late <;> rfl

theorem action_resolveDynamicConstantWith (c : Class) (index : UInt16) :
    (resolveDynamicConstantWith env constant c index).action =
      Linkage.resolveDynamicConstantWith env plain c index := by
  unfold resolveDynamicConstantWith Linkage.resolveDynamicConstantWith
  simp only [action_bind, action_silent]
  congr 1
  funext entry
  cases entry with
  | dynamic number name descriptor =>
    simp only [action_memoize, action_callBootstrap hconstant]
    rfl
  | _ => rfl

theorem action_constantObjectWith (c : Class) (index : UInt16) (resolve : Bool) :
    (constantObjectWith env constant c index resolve).action =
      Linkage.constantObjectWith env plain c index resolve := by
  unfold constantObjectWith
  split
  · rename_i number name descriptor hentry hresolved
    obtain ⟨hindex, rfl⟩ : index ≠ 0 ∧ resolve = true := by simpa using hresolved
    funext m
    rw [action_map, action_resolveDynamicConstantWith hconstant,
      constantObjectWith_run hentry hindex rfl]
    -- A remembered constant is given at once, by both.
    cases hmemo : m.memos.lookup ⟨c.id, index⟩ with
    | none => rfl
    | some value =>
      have hresolve : Linkage.resolveDynamicConstantWith env plain c index m = (.ok value, m) := by
        unfold Linkage.resolveDynamicConstantWith constantAt resolveOnce Link.memoize
        rw [hentry, orFail_some, bind_of_ok (pure_run _ m)]
        dsimp only
        rw [bind_of_ok (memo?_run _ m), hmemo]
        rfl
      show (Linkage.resolveDynamicConstantWith env plain c index >>= fun a => pure (some a)) m = _
      rw [bind_of_ok hresolve]
      rfl
  · rename_i hcases
    exact constantObjectWith_mute env (not_resolved_of_cases hcases)

end Open

theorem action_constantObjectWithin (env : Environment) (bound : Nat) (c : Class) (index : UInt16)
    (resolve : Bool) : (constantObjectWithin env bound c index resolve).action =
      Linkage.constantObjectWithin env bound c index resolve := by
  induction bound generalizing c index resolve with
  | zero => rfl
  | succ bound ih => exact action_constantObjectWith ih c index resolve

theorem action_copyArguments (env : Environment) (c : Class) (r : ArgumentCopy) :
    (copyArguments env c r).action = Linkage.copyArguments env c r := by
  unfold copyArguments Linkage.copyArguments
  simp only [action_bind, action_silent,
    action_copyArgumentsWith (action_constantObjectWithin env _)]

theorem action_runNative (env : Environment) (native : Native) (args : Arguments) :
    (runNative env native args).action = Linkage.runNative env native args := by
  unfold runNative
  split
  · unfold copyOutBootstrapArguments Linkage.runNative Linkage.copyOutBootstrapArguments
    simp only [action_bind, action_silent, action_copyArguments, action_pure]
  · rename_i hnative
    exact runNative_mute env hnative args

theorem action_invokeNative (env : Environment) (thread : Thread)
    (className name descriptor : String) (args : Arguments) :
    (invokeNative env thread className name descriptor args).action =
      Linkage.invokeNative env thread className name descriptor args := by
  have hcall : (attempt (callNative env className name descriptor args)).action =
      Link.attempt (Linkage.callNative env className name descriptor args) := by
    simp [attempt, callNative, Linkage.callNative, action_runNative]
  unfold invokeNative Linkage.invokeNative
  rw [action_bind, hcall]
  refine congrArg (Link.attempt _ >>= ·) ?_
  funext outcome
  cases outcome <;> rfl

end Traced

/-- Apart from the answers, the traced operation is the operation. -/
theorem Operation.action_traced (env : Environment) (op : Operation α) :
    (op.traced env).action = op.run env := by
  cases op with
  -- Only these operations can come to call a bootstrap method.
  | constantObject owner index resolve =>
    simp only [Operation.traced, Traced.constantObject, Traced.action_bind, Traced.action_silent,
      Traced.action_constantObjectWithin]
    rfl
  | resolveDynamicConstant owner index =>
    simp only [Operation.traced, Traced.resolveDynamicConstant, Traced.action_bind,
      Traced.action_silent,
      Traced.action_resolveDynamicConstantWith (Traced.action_constantObjectWithin env _)]
    rfl
  | copyArguments owner request =>
    simp only [Operation.traced, Traced.action_bind, Traced.action_silent,
      Traced.action_copyArguments]
    rfl
  | runNative native args => exact Traced.action_runNative env native args
  | invokeNative thread className name descriptor args =>
    exact Traced.action_invokeNative env thread className name descriptor args
  | _ => simp [Operation.traced, Operation.run, Linkage.defineClass, Linkage.deriveClass]

end Linkage
