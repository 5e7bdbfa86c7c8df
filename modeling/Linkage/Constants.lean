import Linkage.MemberName.Resolution

/-! # Constants

    The objects that the constants of a class stand for. Classes, strings, method
    types, method handles and dynamic constants are resolved on first use and
    remembered; the first remembered value stays. A failure is not remembered.
    Numbers are boxed anew each time.

    A dynamic constant is the result of a call of a bootstrap method. Its static
    arguments are constants too, dynamic ones among them, so the two are defined
    together. -/

namespace Linkage

open Link

/-- The constant in a slot of a class. -/
def constantAt (c : Class) (index : UInt16) : Link PoolEntry :=
  orFail (c.pool.get? index) (.invalidPoolIndex c.name index)

/-- Resolve a constant once. -/
def resolveOnce (c : Class) (index : UInt16) (compute : Link Handle) : Link Handle :=
  memoize { owner := c.id, index } compute

/-! ## Classes, strings, method types -/

/-- Resolve a class constant to the class object. -/
def resolveClassConstant (env : Environment) (c : Class) (index : UInt16) : Link Handle := do
  match ← constantAt c index with
  | .classRef name => resolveOnce c index do pure (← loadClass env name).classObject
  | _ => fail .notAClassConstant

/-- Resolve a string constant to the interned string. -/
def resolveStringConstant (c : Class) (index : UInt16) : Link Handle := do
  match ← constantAt c index with
  | .stringRef value => resolveOnce c index (intern value)
  | _ => fail .notAStringConstant

/-- Resolve a method type constant. -/
def resolveMethodTypeConstant (env : Environment) (c : Class) (index : UInt16) :
    Link Handle := do
  match ← constantAt c index with
  | .methodType descriptor => resolveOnce c index (newMethodType env descriptor)
  | _ => fail .notAMethodTypeConstant

/-! ## Method handles -/

/-- The member that a member reference of a class names. -/
def memberReferenceAt (c : Class) (index : UInt16) : Link (MemberKind × SymbolicRef) := do
  match ← constantAt c index with
  | .fieldref r => pure (.field, r)
  | .methodref r => pure (methodKind r, r)
  | .interfaceMethodref r => pure (methodKind r, r)
  | other => fail (.notAMemberReference other.tag?)
where
  methodKind (r : SymbolicRef) : MemberKind :=
    if r.name == Method.constructorName then .constructor else .method

/-- A new method handle of a class. Its member is resolved on behalf of the
    class. -/
def newMethodHandle (env : Environment) (c : Class) (kind : ReferenceKind) (reference : UInt16) :
    Link Handle := do
  let (memberKind, r) ← memberReferenceAt c reference
  let clazz ← resolveClassConstant env c r.owner
  let name ← intern r.name
  let type ← intern r.descriptor
  let mn ← allocate (.memberName
    { flags := (MemberFlags.make memberKind kind 0).encode
      name := some name
      type := some type
      clazz := some clazz })
  match ← resolveMemberName mn (some c.classObject) false with
  | some member => allocate (.methodHandle { kind, member })
  | none => fail .resolutionFailed

/-- Resolve a method handle constant. -/
def resolveMethodHandleConstant (env : Environment) (c : Class) (index : UInt16) :
    Link Handle := do
  match ← constantAt c index with
  | .methodHandle kind reference => resolveOnce c index (newMethodHandle env c kind reference)
  | _ => fail .notAMethodHandleConstant

/-! ## Arguments of bootstrap methods

    The arguments of a dynamic constant are numbered: -4 is the bootstrap method,
    -3 the name, -2 the type, -1 the number of static arguments, and the static
    arguments start at 0. -/

/-- What is copied where: arguments `start` up to `stop`, to place `position` on of
    the array `buffer`. -/
structure ArgumentCopy where
  /-- Number of static arguments, as the caller knows it. -/
  count : Int32
  /-- The slot of the dynamic constant. -/
  index : Int32
  start : Int32
  stop : Int32
  buffer : Handle
  position : Int32
  /-- Constants that are not resolved yet are resolved. -/
  resolve : Bool
  /-- What stands for a constant that is not resolved. -/
  fallback : Option Handle

namespace ArgumentCopy

/-- The number of the bootstrap method. -/
def first : Int := -4

/-- The range of arguments makes sense and fits into an array of the given length. -/
def fits (r : ArgumentCopy) (length : Nat) : Bool :=
  first ≤ r.start.toInt && r.start ≤ r.stop && 0 ≤ r.position
    && r.position.toInt + (r.stop.toInt - r.start.toInt) ≤ length

/-- The slot number, if it is one. -/
def slot? (r : ArgumentCopy) : Option UInt16 :=
  if 0 ≤ r.index ∧ r.index.toInt ≤ 65535 then some (UInt16.ofNat r.index.toInt.toNat) else none

end ArgumentCopy

/-- A dynamic constant with its bootstrap method. -/
structure DynamicConstant where
  name : String
  descriptor : String
  bootstrap : BootstrapEntry

/-- The dynamic constant whose arguments are to be copied. -/
def ArgumentCopy.dynamicConstant (r : ArgumentCopy) (c : Class) : Link DynamicConstant := do
  let index ← orFail r.slot? (.argumentPoolIndexOutOfRange r.index)
  match c.pool.get? index with
  | some (.dynamic number name descriptor) => do
      let bootstrap ← orFail (c.bootstrapMethod? number) (.noBootstrapMethod c.name number)
      if (bootstrap.arguments.length : Int) ≠ r.count.toInt then
        fail (.argumentCountMismatch r.count bootstrap.arguments.length)
      else pure { name, descriptor, bootstrap }
  | _ => fail (.argumentsOfNoDynamicConstant c.name r.index)

section Open

variable (env : Environment)
variable (constant : Class → UInt16 → Bool → Link (Option Handle))

/-- The type of a dynamic constant: a method type or a class object. -/
def dynamicType (d : DynamicConstant) : Link Handle := do
  if d.descriptor.toList.head? = some '(' then newMethodType env d.descriptor
  else pure (← classOfDescriptor env d.descriptor).classObject

/-- The argument with the given number. -/
def argumentValue (r : ArgumentCopy) (c : Class) (d : DynamicConstant) (number : Int) :
    Link (Option Handle) := do
  if number = -4 then constant c d.bootstrap.method true
  else if number = -3 then some <$> intern d.name
  else if number = -2 then some <$> dynamicType env d
  else if number = -1 then some <$> allocate (.integer r.count)
  else do
    let argument ← orFail d.bootstrap.arguments[number.toNat]? (.argumentOutOfRange number)
    match ← constant c argument r.resolve with
    | some value => pure (some value)
    | none => pure (if r.resolve then none else r.fallback)

/-- Copy the argument at the given distance from the first one. Computing it may
    move the array, so its place is asked for afterwards. -/
def copyArgument (r : ArgumentCopy) (c : Class) (d : DynamicConstant) (distance : Nat) :
    Link Unit := do
  let value ← argumentValue env constant r c d (r.start.toInt + distance)
  let place ← resolve r.buffer
  updateAt place (Object.setElement (r.position.toInt.toNat + distance) value)

/-- Copy arguments of a dynamic constant of a class. -/
def copyArgumentsWith (c : Class) (r : ArgumentCopy) : Link Unit := do
  let place ← resolve r.buffer
  let buffer ← orFail (← readAt place).array? .notAnArgumentBuffer
  if !r.fits buffer.elements.size then
    fail (.badArgumentRange r.start r.stop r.position buffer.elements.size)
  else do
    let d ← r.dynamicConstant c
    let _ ← forEach (copyArgument env constant r c d)
      (List.range (r.stop.toInt - r.start.toInt).toNat)

/-! ## Dynamic constants -/

/-- Call the bootstrap method of a dynamic constant. -/
def callBootstrap (c : Class) (index number : UInt16) : Link Handle := do
  let invoke ← orFail env.invoker .noInvoker
  let bootstrap ← orFail (c.bootstrapMethod? number) .bootstrapIndexOutOfRange
  let count := bootstrap.arguments.length
  let object ← coreClass ClassDeclaration.objectName
  let buffer ← newArray object.id (count + 4)
  copyArgumentsWith env constant c
    { count := Int32.ofNat count
      index := Int32.ofNat index.toNat
      start := -4
      stop := Int32.ofNat count
      buffer
      position := 0
      resolve := true
      fallback := none }
  recordCall { caller := c.id, arguments := ← elements buffer }
  orFail (← invoke c buffer) .bootstrapReturnedNull

/-- Resolve a dynamic constant. -/
def resolveDynamicConstantWith (c : Class) (index : UInt16) : Link Handle := do
  match ← constantAt c index with
  | .dynamic number _ _ => resolveOnce c index (callBootstrap env constant c index number)
  | _ => fail .notADynamicConstant

/-- Resolve a constant that is resolved on first use; other constants have
    nothing to resolve. -/
def resolveLazyWith (c : Class) (index : UInt16) : PoolEntry → Link (Option Handle)
  | .classRef _ => some <$> resolveClassConstant env c index
  | .stringRef _ => some <$> resolveStringConstant c index
  | .methodType _ => some <$> resolveMethodTypeConstant env c index
  | .methodHandle _ _ => some <$> resolveMethodHandleConstant env c index
  | .dynamic _ _ _ => some <$> resolveDynamicConstantWith env constant c index
  | _ => pure none

/-- A new object for a number. -/
def PoolEntry.box? : PoolEntry → Option Object
  | .integer value => some (.integer value)
  | .float bits => some (.float bits)
  | .long words => some (.long words.value.toInt64)
  | .double words => some (.double words.value)
  | _ => none

/-- The object of a constant, if it has one. -/
def constantObjectWith (c : Class) (index : UInt16) (resolve : Bool) :
    Link (Option Handle) := do
  if index = 0 || c.pool.size ≤ index.toNat then fail (.poolIndexOutOfRange c.name index)
  else
    match c.pool.get? index with
    | none => pure none
    | some entry =>
        match ← memo? { owner := c.id, index } with
        | some value => pure (some value)
        | none =>
            if entry.isLazy then
              if resolve then resolveLazyWith env constant c index entry else pure none
            else
              match entry.box? with
              | some object => some <$> allocate object
              | none => pure none

end Open

/-! ## Closing the recursion -/

/-- The object of a constant, with at most `bound` calls of bootstrap methods inside
    each other. -/
def constantObjectWithin (env : Environment) :
    Nat → Class → UInt16 → Bool → Link (Option Handle)
  | 0, _, _, _ => failWith .boundReached
  | bound + 1, c, index, resolve =>
      constantObjectWith env (constantObjectWithin env bound) c index resolve

/-- Enough for every machine: each call of a bootstrap method stores an array
    first, and the heap holds only so many objects. -/
def callBound : Link Nat :=
  view (fun m => m.heap.config.capacity + 2)

/-- The object that the constant in slot `index` of a class stands for. Without
    `resolve`, a constant that is not resolved yet has none. -/
def constantObject (env : Environment) (c : Class) (index : UInt16) (resolve : Bool) :
    Link (Option Handle) := do
  constantObjectWithin env (← callBound) c index resolve

/-- Resolve a dynamic constant of a class. -/
def resolveDynamicConstant (env : Environment) (c : Class) (index : UInt16) : Link Handle := do
  resolveDynamicConstantWith env (constantObjectWithin env (← callBound)) c index

/-- Copy arguments of a dynamic constant of a class. -/
def copyArguments (env : Environment) (c : Class) (r : ArgumentCopy) : Link Unit := do
  copyArgumentsWith env (constantObjectWithin env (← callBound)) c r

end Linkage
