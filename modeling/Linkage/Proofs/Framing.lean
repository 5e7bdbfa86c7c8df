import Linkage.Proofs.Effects
import Linkage.Proofs.Relocation

/-! # What linkage leaves alone

    Apart from writing to objects and remembering constants, linkage only adds to a
    machine: new objects, interned strings, classes, identities. A property that such
    additions do not touch is `Framed`. Loading classes and making method types and
    reflection objects keep every framed property, and an action that writes keeps those
    that its writes keep.

    * `Loadable`: loading classes keeps the property. Nothing more is asked of it than that
      it survives a new class.
    * `Machine.Carries handle S`: the object behind the handle satisfies `S`. It is framed,
      since a new object never gets a handle that is in use.
    * `carries_allocate_bind`: what is done to an object that was stored just now is not
      done to the one behind the handle. -/

namespace Linkage

open Link

/-! ## Framed properties -/

/-- A property of the objects that exist and of what constants have been resolved to. -/
structure Framed (P : Machine → Prop) : Prop where
  others : ∀ {m m' : Machine}, P m → m'.heap = m.heap → m'.memos = m.memos → P m'
  allocate : ∀ {m : Machine} (object : Object), P m →
    P { m with heap := (m.heap.allocate object).2 }

variable {α β : Type} {P : Machine → Prop}

namespace Link

/-! ## Composition -/

attribute [grind ←] keeps_bind keeps_forEach

@[grind ←] theorem keeps_pure (a : α) : Keeps P (pure a : Link α) := fun _ hm => hm

@[grind ←] theorem keeps_map (g : α → β) {x : Link α} (hx : Keeps P x) : Keeps P (g <$> x) :=
  keeps_bind hx (fun a => keeps_pure (g a))

@[grind ←] theorem keeps_failWith (e : Failure) : Keeps P (failWith e : Link α) := fun _ hm => hm

@[grind ←] theorem keeps_fail (e : LinkError) : Keeps P (fail e : Link α) := fun _ hm => hm

@[grind ←] theorem keeps_view (f : Machine → α) : Keeps P (view f) := fun _ hm => hm

@[grind ←] theorem keeps_orFail (o : Option α) (e : LinkError) : Keeps P (orFail o e) := by
  cases o with
  | none => exact keeps_fail e
  | some a => exact keeps_pure a

theorem keeps_bind_orFail {o : Option α} {e : LinkError} {f : α → Link β}
    (hf : ∀ a, o = some a → Keeps P (f a)) : Keeps P (orFail o e >>= f) := by
  cases o with
  | none => exact fun _ hm => hm
  | some a => exact fun m hm => hf a rfl m hm

@[grind ←] theorem keeps_ofExcept (r : Except LinkError α) : Keeps P (ofExcept r) := by
  cases r with
  | error e => exact keeps_fail e
  | ok a => exact keeps_pure a

@[grind ←] theorem keeps_attempt {x : Link α} (hx : Keeps P x) : Keeps P (attempt x) := by
  intro m hm
  rw [attempt_machine]
  exact hx m hm

/-! ## Elementary actions -/

theorem keeps_ofHeap (ask : Heap Object → Except Heap.Fault α) :
    Keeps P (fun m => ofHeap (ask m.heap) m) := by
  intro m hm
  dsimp only
  cases ask m.heap <;> exact hm

@[grind ←] theorem keeps_read (handle : Handle) : Keeps P (read handle) :=
  keeps_ofHeap (fun heap => heap.read handle)

@[grind ←] theorem keeps_resolve (handle : Handle) : Keeps P (resolve handle) :=
  keeps_ofHeap (fun heap => heap.resolve handle)

@[grind ←] theorem keeps_readAt (place : Pointer) : Keeps P (readAt place) :=
  keeps_ofHeap (fun heap => heap.readAt place)

@[grind ←] theorem keeps_classes : Keeps P classes := keeps_view _

@[grind ←] theorem keeps_findClass (name : String) : Keeps P (findClass name) := keeps_view _

@[grind ←] theorem keeps_memo? (slot : ConstantSlot) : Keeps P (memo? slot) := keeps_view _

@[grind ←] theorem keeps_classAt (id : ClassId) : Keeps P (classAt id) := by
  unfold classAt
  grind

@[grind ←] theorem keeps_coreClass (name : String) : Keeps P (coreClass name) := by
  unfold coreClass
  grind

@[grind ←] theorem keeps_classOfObject (handle : Handle) : Keeps P (classOfObject handle) := by
  unfold classOfObject
  grind

@[grind ←] theorem keeps_elements (array : Handle) : Keeps P (elements array) := by
  unfold elements
  grind

@[grind ←] theorem keeps_stringValue (handle : Handle) : Keeps P (stringValue handle) := by
  unfold stringValue
  grind

@[grind ←] theorem keeps_readMemberName (handle : Handle) : Keeps P (readMemberName handle) := by
  unfold readMemberName
  grind

@[grind ←] theorem keeps_signatureOr (e : LinkError) (classObject : Handle) :
    Keeps P (signatureOr e classObject) := by
  unfold signatureOr
  grind

@[grind ←] theorem keeps_methodDescriptor (result : Handle) (parameters : List Handle) :
    Keeps P (methodDescriptor result parameters) := by
  unfold methodDescriptor
  grind

@[grind ←] theorem keeps_searchedClass (clazz : Handle) : Keeps P (searchedClass clazz) := by
  unfold searchedClass
  grind

@[grind ←] theorem keeps_callerClass (caller : Option Handle) : Keeps P (callerClass caller) := by
  unfold callerClass
  grind

@[grind ←] theorem keeps_resolvedField (mn : Handle) (wantStatic : Bool) :
    Keeps P (resolvedField mn wantStatic) := by
  unfold resolvedField
  grind

@[grind ←] theorem keeps_objectFieldOffset (mn : Handle) : Keeps P (objectFieldOffset mn) :=
  keeps_bind (keeps_resolvedField mn false) (fun _ => keeps_pure _)

@[grind ←] theorem keeps_staticFieldOffset (mn : Handle) : Keeps P (staticFieldOffset mn) :=
  keeps_bind (keeps_resolvedField mn true) (fun _ => keeps_pure _)

@[grind ←] theorem keeps_staticFieldBase (mn : Handle) : Keeps P (staticFieldBase mn) :=
  keeps_bind (keeps_resolvedField mn true) (fun _ => keeps_orFail _ _)

@[grind ←] theorem keeps_vmInfo (mn : Handle) (n : MemberName) : Keeps P (vmInfo mn n) := by
  have hmember : Keeps P (member? n.vmindex) := keeps_view _
  unfold vmInfo
  grind

theorem keeps_check (r : EnumerationRequest) : Keeps P r.check := by
  have hcaller : Keeps P r.callerFits := by
    unfold EnumerationRequest.callerFits
    grind
  unfold EnumerationRequest.check
  split
  · refine keeps_bind (keeps_classOfObject _) (fun found => ?_)
    cases found with
    | none => exact keeps_pure none
    | some c =>
      refine keeps_bind hcaller (fun fits => ?_)
      grind
  · exact keeps_bind (keeps_classOfObject _) (fun _ => keeps_pure none)
  · exact keeps_pure none

/-- An enumeration fills results, and does nothing else to the machine. -/
theorem keeps_enumerateMembers_of (env : Environment) (r : EnumerationRequest)
    (hfill : ∀ results index members, Keeps P (fillResults env results index members)) :
    Keeps P (enumerateMembers env r) := by
  have hstring : ∀ handle, Keeps P (optionalString handle) := by
    intro handle
    unfold optionalString
    grind
  have hcheck := keeps_check (P := P) r
  unfold enumerateMembers
  grind

/-! ## Loading -/

/-- Loading keeps the property: adding a class does, and it does not look at the names of the
    classes that are being loaded. -/
structure Loadable (P : Machine → Prop) : Prop where
  loading : ∀ {m : Machine} (names : List String), P m → P { m with loading := names }
  addClass : ∀ (name : String) {make : ClassId → Handle → Class}
    (named : ∀ id h, (make id h).name = name),
    (∀ id h, (make id h).classObject = h) → Keeps P (addClass name make named)

namespace Loadable

variable (hP : Loadable P) {load : String → Link Class} (hload : ∀ name, Keeps P (load name))

include hP

theorem whileLoading (name : String) {x : Link α} (hx : Keeps P x) :
    Keeps P (whileLoading name x) :=
  fun m hm => hP.loading _ (hx { m with loading := name :: m.loading } (hP.loading _ hm))

theorem definePrimitiveClass (p : Primitive) : Keeps P (definePrimitiveClass p) :=
  hP.addClass _ _ (fun _ _ => rfl)

theorem defineArrayClass (component : Class) : Keeps P (defineArrayClass component) := by
  have hadd : ∀ name object cloneable serializable, Keeps P (Link.addClass name
      (Class.ofArray name component object cloneable serializable) (fun _ _ => rfl)) :=
    fun name _ _ _ => hP.addClass name _ (fun _ _ => rfl)
  unfold Linkage.defineArrayClass
  grind

section

include hload

theorem defineClassWith (d : ClassDeclaration) : Keeps P (defineClassWith load d) := by
  have hsuper : Keeps P (loadSuperclass load d) := by
    unfold loadSuperclass
    grind
  have hinterface : ∀ name, Keeps P (loadInterface load d name) := by
    intro name
    unfold loadInterface
    grind
  have hadd : ∀ layout : Layout,
      Keeps P (Link.addClass layout.declaration.name layout.toClass (fun _ _ => rfl)) :=
    fun layout => hP.addClass layout.declaration.name _ (fun _ _ => rfl)
  unfold Linkage.defineClassWith
  grind

theorem deriveClassWith (bytes : Text.Bytes) : Keeps P (deriveClassWith load bytes) := by
  unfold Linkage.deriveClassWith
  split
  · exact hP.defineClassWith hload _
  · exact keeps_fail _

theorem classOfTypeWith (t : TypeDescriptor) : Keeps P (classOfTypeWith load t) := by
  have harray := hP.defineArrayClass
  induction t with
  | primitive p => exact hload _
  | object name => exact hload _
  | array component ih =>
    unfold Linkage.classOfTypeWith
    grind

end

theorem loadClassWithin (env : Environment) (bound : Nat) (name : String) :
    Keeps P (loadClassWithin env bound name) := by
  -- By induction on the bound: supertypes are loaded under a smaller one.
  induction bound generalizing name with
  | zero => exact keeps_failWith _
  | succ bound ih =>
    have hwhile : ∀ name {x : Link Class}, Keeps P x → Keeps P (Linkage.whileLoading name x) :=
      fun name _ hx => hP.whileLoading name hx
    have hderive := hP.deriveClassWith ih
    have htype := hP.classOfTypeWith ih
    have harray := hP.defineArrayClass
    have hfile : Keeps P (loadFile env (Linkage.loadClassWithin env bound) name) := by
      unfold loadFile
      grind
    unfold Linkage.loadClassWithin
    grind

theorem loadClass (env : Environment) (name : String) : Keeps P (loadClass env name) :=
  hP.loadClassWithin env env.loadBound name

end Loadable

/-! ## Resolving member names -/

/-- Method types may remember their descriptors. -/
theorem keeps_typeSignature_of (hintern : ∀ text, Keeps P (intern text))
    (hdescriptor : ∀ type text, Keeps P (update type (Object.setDescriptor text)))
    (type : Handle) : Keeps P (typeSignature type) := by
  unfold typeSignature classObjectSignature
  refine keeps_bind (keeps_read type) (fun object => ?_)
  cases object with
  | methodType t => grind
  | string text => exact keeps_pure text
  | classObject id => exact keeps_signatureOr _ type
  | _ => exact keeps_fail _

/-- A member name is resolved as the name of a method or of a field. -/
theorem keeps_resolveMemberName_of {mn : Handle} {speculative : Bool}
    (hmethod : ∀ c kind name signature referenceKind caller, Keeps P
      (resolveMethod mn c kind name signature referenceKind caller speculative))
    (hfield : ∀ c name signature referenceKind caller, Keeps P
      (resolveField mn c name signature referenceKind caller speculative))
    (hsignature : ∀ type, Keeps P (typeSignature type)) (caller : Option Handle) :
    Keeps P (resolveMemberName mn caller speculative) := by
  have hmember : Keeps P (resolveMember mn caller speculative) := by
    unfold resolveMember
    refine keeps_bind (keeps_readMemberName mn) (fun n => ?_)
    split
    · exact keeps_pure true
    · refine keeps_bind (keeps_orFail _ _) (fun referenceKind => ?_)
      split
      · refine keeps_bind (keeps_searchedClass _) (fun found => ?_)
        grind
      · exact keeps_pure false
  unfold resolveMemberName
  grind

section Framed

variable (hP : Framed P)

include hP

@[grind ←] theorem keeps_allocate (object : Object) : Keeps P (allocate object) := by
  intro m hm
  rw [allocate_run]
  exact hP.allocate object hm

@[grind ←] theorem keeps_intern (text : String) : Keeps P (intern text) := by
  intro m hm
  have hmemos : (intern text m).2.memos = m.memos := by
    unfold intern
    split <;> rfl
  rcases intern_cases text m with hsame | ⟨hheap, _, _⟩
  · rw [hsame]
    exact hm
  · exact hP.others (hP.allocate (.string text) hm) hheap hmemos

@[grind ←] theorem keeps_identify (member : MemberRef) : Keeps P (identify member) :=
  fun _ hm => hP.others hm rfl rfl

@[grind ←] theorem keeps_recordCall (call : BootstrapCall) : Keeps P (recordCall call) :=
  fun _ hm => hP.others hm rfl rfl

@[grind ←] theorem keeps_appendClass (name : String) (c : Class) (named : c.name = name) :
    Keeps P (appendClass name c named) :=
  fun _ hm => hP.others hm rfl rfl

@[grind ←] theorem keeps_addClass (name : String) (make : ClassId → Handle → Class)
    (named : ∀ id h, (make id h).name = name) : Keeps P (addClass name make named) := by
  unfold addClass
  grind

theorem framed_loadable : Loadable P where
  loading := fun _ hm => hP.others hm rfl rfl
  addClass := fun name make named _ => keeps_addClass hP name make named

theorem keeps_defineClassWith {load : String → Link Class} (hload : ∀ name, Keeps P (load name))
    (d : ClassDeclaration) : Keeps P (defineClassWith load d) :=
  (framed_loadable hP).defineClassWith hload d

theorem keeps_deriveClassWith {load : String → Link Class} (hload : ∀ name, Keeps P (load name))
    (bytes : Text.Bytes) : Keeps P (deriveClassWith load bytes) :=
  (framed_loadable hP).deriveClassWith hload bytes

@[grind ←] theorem keeps_defineArrayClass (component : Class) :
    Keeps P (defineArrayClass component) :=
  (framed_loadable hP).defineArrayClass component

theorem keeps_loadClassWithin (env : Environment) (bound : Nat) (name : String) :
    Keeps P (loadClassWithin env bound name) :=
  (framed_loadable hP).loadClassWithin env bound name

@[grind ←] theorem keeps_loadClass (env : Environment) (name : String) :
    Keeps P (loadClass env name) :=
  (framed_loadable hP).loadClass env name

/-! ## Signatures and reflection objects -/

@[grind ←] theorem keeps_classOfType (env : Environment) (t : TypeDescriptor) :
    Keeps P (classOfType env t) :=
  keeps_loadClass hP env t.className

@[grind ←] theorem keeps_classOfDescriptor (env : Environment) (descriptor : String) :
    Keeps P (classOfDescriptor env descriptor) := by
  unfold classOfDescriptor
  grind

@[grind ←] theorem keeps_newMethodType (env : Environment) (descriptor : String) :
    Keeps P (newMethodType env descriptor) := by
  unfold newMethodType
  grind

theorem keeps_reflectMember (env : Environment) (member : MatchedMember) :
    Keeps P (reflectMember env member) := by
  cases member with
  | field f =>
    show Keeps P (newReflectedField env f)
    unfold newReflectedField
    grind
  | method r =>
    show Keeps P (newReflectedMethod r)
    unfold newReflectedMethod
    grind
  | constructor r =>
    show Keeps P (newReflectedConstructor r)
    unfold newReflectedConstructor
    grind

@[grind ←] theorem keeps_typeSignature
    (hdescriptor : ∀ type text, Keeps P (update type (Object.setDescriptor text)))
    (type : Handle) : Keeps P (typeSignature type) :=
  keeps_typeSignature_of (keeps_intern hP) hdescriptor type

/-! ## Member names -/

section MemberNames

variable {mn : Handle} (hmn : ∀ f, Keeps P (updateMemberName mn f))

include hmn

theorem keeps_initMemberName (reflected : Handle) : Keeps P (initMemberName mn reflected) := by
  -- One fact for each helper, for `grind` to put together.
  have hdeclaring : ∀ handle, Keeps P (declaringClass handle) := by
    intro handle
    unfold declaringClass
    grind
  unfold initMemberName
  refine keeps_bind (keeps_read reflected) (fun object => ?_)
  cases object with
  | field r =>
    show Keeps P (initFromField mn r)
    unfold initFromField
    grind
  | method r =>
    show Keeps P (initFromMethod mn r)
    unfold initFromMethod
    grind
  | constructor r =>
    show Keeps P (initFromConstructor mn r)
    unfold initFromConstructor
    grind
  | _ => exact keeps_fail _

theorem keeps_resolveMemberName
    (hdescriptor : ∀ type text, Keeps P (update type (Object.setDescriptor text)))
    (caller : Option Handle) (speculative : Bool) :
    Keeps P (resolveMemberName mn caller speculative) := by
  have hcommit : ∀ flags clazz member target,
      Keeps P (commitMember mn flags clazz member target) := by
    intro flags clazz member target
    unfold commitMember
    grind
  refine keeps_resolveMemberName_of ?_ ?_ (keeps_typeSignature hP hdescriptor) caller
  · intro c kind name signature referenceKind caller
    unfold resolveMethod
    grind
  · intro c name signature referenceKind caller
    unfold resolveField
    grind

end MemberNames

end Framed

end Link

/-! ## One object -/

/-- The heap is in order, and the object behind the handle satisfies `S`. -/
structure Machine.Carries (handle : Handle) (S : Object → Prop) (m : Machine) : Prop where
  heap : m.heap.WellFormed
  object : ∃ object, m.object? handle = some object ∧ S object

section Carries

variable {handle other : Handle} {S : Object → Prop} {m m' : Machine}

theorem Machine.carries_of_read {object : Object} (hw : m.heap.WellFormed)
    (hread : m.heap.read handle = .ok object) (hobject : S object) : m.Carries handle S :=
  ⟨hw, object, (read_eq_ok_iff hw).mp hread, hobject⟩

theorem Machine.Carries.read (h : m.Carries handle S) :
    ∃ object, m.heap.read handle = .ok object ∧ S object := by
  obtain ⟨object, hobject, hS⟩ := h.object
  exact ⟨object, (read_eq_ok_iff h.heap).mpr hobject, hS⟩

theorem Machine.Carries.of_heap (h : m.Carries handle S) (hheap : m'.heap = m.heap) :
    m'.Carries handle S := by
  obtain ⟨object, hobject, hS⟩ := h.object
  exact ⟨hheap ▸ h.heap, object, by unfold Machine.object?; rw [hheap]; exact hobject, hS⟩

/-- A new object gets a handle that is free. -/
theorem object?_of_allocate {object : Object} {fresh : Handle} (hw : m.heap.WellFormed)
    (hrun : allocate object m = (.ok fresh, m')) : m.object? fresh = none := by
  rcases allocate_run_cases object m with ⟨_, _, hfull⟩ | ⟨_, _, hheap, hstored⟩
  · rw [hfull] at hrun
    cases hrun
  · rw [hstored] at hrun
    cases hrun
    exact (Heap.allocate_eq_some hw hheap).1

theorem Machine.Carries.ne_of_free (h : m.Carries handle S) (hfree : m.object? other = none) :
    other ≠ handle := by
  rintro rfl
  obtain ⟨object, hobject, _⟩ := h.object
  rw [hobject] at hfree
  cases hfree

theorem framed_carries (handle : Handle) (S : Object → Prop) :
    Framed (Machine.Carries handle S) where
  others := fun h hheap _ => h.of_heap hheap
  allocate := by
    intro m object h
    obtain ⟨old, hold, hS⟩ := h.object
    refine ⟨Heap.wellFormed_allocate h.heap object, old, ?_, hS⟩
    -- The new object, if there is room for it, is behind a handle that was free.
    rcases Heap.allocate_cases h.heap object with ⟨_, hkept⟩ | ⟨stored, _, hfree, hset⟩
    · exact (congrFun hkept handle).trans hold
    · have hne := h.ne_of_free hfree
      exact (congrFun hset handle).trans ((Function.update_of_ne hne.symm _ _).trans hold)

/-- What follows goes on with an object that is not the one behind the handle. -/
theorem carries_allocate_bind {object : Object} {f : Handle → Link β}
    (hf : ∀ fresh, fresh ≠ handle → Keeps (Machine.Carries handle S) (f fresh)) :
    Keeps (Machine.Carries handle S) (allocate object >>= f) := by
  intro m h
  have hkept := keeps_allocate (framed_carries handle S) object m h
  rcases bind_cases (allocate object) f m with ⟨e, m', hrun, hbind⟩ | ⟨fresh, m', hrun, hbind⟩
  · rw [hrun] at hkept
    rw [hbind]
    exact hkept
  · rw [hrun] at hkept
    rw [hbind]
    exact hf fresh (h.ne_of_free (object?_of_allocate h.heap hrun)) m' hkept

/-- Writing to another object, or what the object may become. -/
theorem carries_update {f : Object → Object}
    (hf : other ≠ handle ∨ ∀ object, S object → S (f object)) :
    Keeps (Machine.Carries handle S) (update other f) := by
  intro m h
  obtain ⟨old, hold, hS⟩ := h.object
  have hw : (update other f m).2.heap.WellFormed := by
    rw [update_machine]
    exact Heap.wellFormed_update h.heap other f
  refine ⟨hw, ?_⟩
  rcases update_object?_cases h.heap other f with ⟨_, hkept⟩ | ⟨found, hfound, hset⟩
  · exact ⟨old, (congrFun hkept handle).trans hold, hS⟩
  · rw [hset]
    by_cases hsame : handle = other
    · -- The object itself is written to, so the second alternative is the one that applies.
      subst hsame
      rw [hold, Option.some.injEq] at hfound
      subst hfound
      exact ⟨f old, Function.update_self _ _ _, (hf.resolve_left (fun hne => hne rfl)) old hS⟩
    · exact ⟨old, (Function.update_of_ne hsame _ _).trans hold, hS⟩

theorem carries_updateMemberName (hne : other ≠ handle) (f : MemberName → MemberName) :
    Keeps (Machine.Carries handle S) (updateMemberName other f) :=
  keeps_bind (keeps_readMemberName other) (fun _ => carries_update (Or.inl hne))

theorem carries_memoize (slot : ConstantSlot) {compute : Link Handle}
    (hcompute : Keeps (Machine.Carries handle S) compute) :
    Keeps (Machine.Carries handle S) (memoize slot compute) := by
  refine keeps_bind (keeps_memo? slot) (fun found => ?_)
  cases found with
  | some value => exact keeps_pure value
  | none =>
    refine keeps_bind hcompute (fun value => keeps_bind (keeps_memo? slot) (fun first => ?_))
    cases first with
    | some first => exact keeps_pure first
    | none => exact keeps_bind (fun m h => h.of_heap rfl) (fun _ => keeps_pure value)

end Carries

/-! ## Room for objects -/

/-- The second heap holds at least as many objects as the first one, in as much room. -/
structure Heap.Fuller {α : Type} (h h' : Heap α) : Prop where
  capacity : h'.config.capacity = h.config.capacity
  live : h.live ≤ h'.live
  room : h.live ≤ h.config.capacity → h'.live ≤ h'.config.capacity

theorem Heap.fuller_of_eq {α : Type} {h h' : Heap α}
    (hcapacity : h'.view.capacity = h.view.capacity)
    (hlive : h'.view.live = h.view.live) : h.Fuller h' where
  capacity := hcapacity
  live := Nat.le_of_eq hlive.symm
  room := fun hroom => by
    show h'.view.live ≤ h'.view.capacity
    rw [hlive, hcapacity]
    exact hroom

theorem Heap.fuller_allocate {α : Type} {h : Heap α} (hw : h.WellFormed) (object : α) :
    h.Fuller (h.allocate object).2 := by
  have hview := (Heap.allocate_view hw object).2
  unfold Store.allocate at hview
  by_cases hfull : h.view.capacity ≤ h.view.live
  · rw [if_pos hfull] at hview
    exact Heap.fuller_of_eq (congrArg Store.capacity hview) (congrArg Store.live hview)
  · rw [if_neg hfull] at hview
    have hcapacity : (h.allocate object).2.config.capacity = h.config.capacity :=
      congrArg Store.capacity hview
    have hlive : (h.allocate object).2.live = h.live + 1 := congrArg Store.live hview
    have hless : h.live < h.config.capacity := Nat.lt_of_not_le hfull
    exact ⟨hcapacity, by omega, by omega⟩

theorem Heap.fuller_update {α : Type} {h : Heap α} (hw : h.WellFormed) (handle : Handle)
    (f : α → α) : h.Fuller (h.update handle f).2 := by
  have hview := (Heap.update_view hw handle f).2
  have hstore : (h.view.update handle f).2.capacity = h.view.capacity ∧
      (h.view.update handle f).2.live = h.view.live := by
    unfold Store.update
    split <;> exact ⟨rfl, rfl⟩
  rw [← hview] at hstore
  exact Heap.fuller_of_eq hstore.1 hstore.2

section Room

variable {rule : Discipline} {m m' : Machine}

/-- Only giving up an object makes room. -/
theorem Change.fuller (hw : m.heap.WellFormed) (h : Change rule m m') :
    m.heap.Fuller m'.heap ∨
      ∃ handle, rule m (.release handle) ∧ m' = (Link.release handle m).2 := by
  cases h with
  | allocate object _ => rw [allocate_run]; exact Or.inl (Heap.fuller_allocate hw object)
  | update handle f _ => rw [update_machine]; exact Or.inl (Heap.fuller_update hw handle f)
  | release handle allowed => exact Or.inr ⟨handle, allowed, rfl⟩
  -- Collecting garbage moves objects, and gives none up.
  | collectGarbage =>
    have hview := Heap.view_relocate m.heap
    exact Or.inl (Heap.fuller_of_eq (congrArg Store.capacity hview) (congrArg Store.live hview))
  | intern text =>
    rcases intern_cases text m with hsame | ⟨hheap, _, _⟩
    · rw [hsame]; exact Or.inl (Heap.fuller_of_eq rfl rfl)
    · rw [hheap]; exact Or.inl (Heap.fuller_allocate hw _)
  | identify member => exact Or.inl (Heap.fuller_of_eq rfl rfl)
  | remember slot value _ => exact Or.inl (Heap.fuller_of_eq rfl rfl)
  | recordCall call => exact Or.inl (Heap.fuller_of_eq rfl rfl)
  | loading names => exact Or.inl (Heap.fuller_of_eq rfl rfl)
  | fill _ _ => rw [update_machine]; exact Or.inl (Heap.fuller_update hw _ _)
  | setElements handle g _ => rw [update_machine]; exact Or.inl (Heap.fuller_update hw _ _)
  | setDescriptor handle text => rw [update_machine]; exact Or.inl (Heap.fuller_update hw _ _)
  | setTarget target _ => rw [update_machine]; exact Or.inl (Heap.fuller_update hw _ _)
  | define _ stored =>
    have hfuller := Heap.fuller_allocate hw (.classObject m.classes.size)
    rw [stored] at hfuller
    exact Or.inl hfuller
  | refuse object full =>
    have hfuller := Heap.fuller_allocate hw object
    rw [full] at hfuller
    exact Or.inl hfuller

theorem Changes.wellFormed (h : Changes rule m m') (hw : m.heap.WellFormed) :
    m'.heap.WellFormed :=
  h.keeps (fun hchange => hchange.wellFormed) hw

/-- The heap has the room that it was given at the start. -/
theorem Changes.capacity (h : Changes rule m m') (hw : m.heap.WellFormed) :
    m'.heap.config.capacity = m.heap.config.capacity := by
  refine (h.keeps (P := fun m' => m'.heap.WellFormed ∧
    m'.heap.config.capacity = m.heap.config.capacity) ?_ ⟨hw, rfl⟩).2
  rintro m₁ m₂ hchange ⟨hw₁, hcapacity⟩
  refine ⟨hchange.wellFormed hw₁, ?_⟩
  rcases hchange.fuller hw₁ with hfuller | ⟨handle, _, rfl⟩
  · exact hfuller.capacity.trans hcapacity
  · have hview := (Heap.release_view hw₁ handle).2
    have hstore : (m₁.heap.view.release handle).2.capacity = m₁.heap.view.capacity := by
      unfold Store.release
      split <;> rfl
    rw [release_run]
    exact (congrArg Store.capacity hview).trans (hstore.trans hcapacity)

end Room

end Linkage
