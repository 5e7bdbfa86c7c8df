import Linkage.Proofs.Framing

/-! # Actions that do not resolve constants

    `Link.Preserves Q x`: whatever the action `x` does, `Q` still holds of the
    remembered constants afterwards. Actions that never resolve a constant preserve
    every `Q`, so they leave what is remembered as it is. The others preserve those
    `Q` that outlast the constants that they remember. -/

namespace Linkage

open Link

variable {α β : Type} {Q : List (ConstantSlot × Handle) → Prop}

/-- The action preserves a property of what constants have been resolved to. -/
def Link.Preserves (Q : List (ConstantSlot × Handle) → Prop) (x : Link α) : Prop :=
  Keeps (fun m => Q m.memos) x

theorem Link.memos_of_preserves {x : Link α} (hx : ∀ Q, Preserves Q x) (m : Machine) :
    (x m).2.memos = m.memos :=
  hx (· = m.memos) m rfl

theorem preserves_of_memos {x : Link α} (hx : ∀ m, (x m).2.memos = m.memos) : Preserves Q x := by
  intro m hm
  rw [hx m]
  exact hm

/-- What has been resolved is not touched by anything that only adds to the machine. -/
theorem framed_memos (Q : List (ConstantSlot × Handle) → Prop) : Framed (fun m => Q m.memos) where
  others := fun hm _ hmemos => by rw [hmemos]; exact hm
  allocate := fun _ hm => hm

/-! ## Composition -/

@[grind ←] theorem preserves_pure (a : α) : Preserves Q (pure a : Link α) := fun _ hm => hm

@[grind ←] theorem preserves_bind {x : Link α} {f : α → Link β} (hx : Preserves Q x)
    (hf : ∀ a, Preserves Q (f a)) : Preserves Q (x >>= f) :=
  keeps_bind hx hf

@[grind ←] theorem preserves_map (g : α → β) {x : Link α} (hx : Preserves Q x) :
    Preserves Q (g <$> x) :=
  keeps_map g hx

@[grind ←] theorem preserves_failWith (e : Failure) : Preserves Q (failWith e : Link α) :=
  fun _ hm => hm

@[grind ←] theorem preserves_fail (e : LinkError) : Preserves Q (fail e : Link α) := fun _ hm => hm

@[grind ←] theorem preserves_view (f : Machine → α) : Preserves Q (view f) := fun _ hm => hm

@[grind ←] theorem preserves_orFail (o : Option α) (e : LinkError) : Preserves Q (orFail o e) :=
  keeps_orFail o e

theorem preserves_bind_orFail {o : Option α} {e : LinkError} {f : α → Link β}
    (hf : ∀ a, o = some a → Preserves Q (f a)) : Preserves Q (orFail o e >>= f) :=
  keeps_bind_orFail hf

@[grind ←] theorem preserves_forEach {f : α → Link β} {as : List α}
    (hf : ∀ a ∈ as, Preserves Q (f a)) : Preserves Q (forEach f as) :=
  keeps_forEach hf

/-- The property still holds when the slot, which was empty, is filled. -/
def Outlasts (Q : List (ConstantSlot × Handle) → Prop) (slot : ConstantSlot) : Prop :=
  ∀ memos value, memos.lookup slot = none → Q memos → Q ((slot, value) :: memos)

theorem preserves_memoize {slot : ConstantSlot} {compute : Link Handle} (hslot : Outlasts Q slot)
    (hcompute : ∀ m, m.memos.lookup slot = none → Q m.memos → Q (compute m).2.memos) :
    Preserves Q (memoize slot compute) := by
  intro m hm
  unfold memoize
  rw [bind_of_ok (memo?_run slot m)]
  cases hmemo : m.memos.lookup slot with
  | some value => exact hm
  | none =>
    have hm' := hcompute m hmemo hm
    dsimp only
    rcases bind_cases compute _ m with ⟨e, m₁, hrun, hbind⟩ | ⟨value, m₁, hrun, hbind⟩
    · rw [hbind]
      rw [hrun] at hm'
      exact hm'
    · -- The computation itself may have filled the slot.
      rw [hbind, bind_of_ok (memo?_run slot m₁)]
      rw [hrun] at hm'
      cases hlate : m₁.memos.lookup slot with
      | some first => exact hm'
      | none => exact hslot _ value hlate hm'

/-! ## Elementary actions -/

@[grind ←] theorem preserves_allocate (object : Object) : Preserves Q (allocate object) :=
  keeps_allocate (framed_memos Q) object

@[grind ←] theorem preserves_changeHeap
    (change : Heap Object → Except Heap.Fault Unit × Heap Object) :
    Preserves Q (changeHeap change) := by
  refine preserves_of_memos (fun m => ?_)
  unfold changeHeap
  split <;> rfl

@[grind ←] theorem preserves_read (handle : Handle) : Preserves Q (read handle) := keeps_read handle

@[grind ←] theorem preserves_resolve (handle : Handle) : Preserves Q (resolve handle) :=
  keeps_resolve handle

@[grind ←] theorem preserves_readAt (place : Pointer) : Preserves Q (readAt place) :=
  keeps_readAt place

@[grind ←] theorem preserves_update (handle : Handle) (f : Object → Object) :
    Preserves Q (update handle f) :=
  preserves_changeHeap _

@[grind ←] theorem preserves_updateAt (place : Pointer) (f : Object → Object) :
    Preserves Q (updateAt place f) :=
  preserves_changeHeap _

@[grind ←] theorem preserves_intern (text : String) : Preserves Q (intern text) :=
  keeps_intern (framed_memos Q) text

@[grind ←] theorem preserves_recordCall (call : BootstrapCall) : Preserves Q (recordCall call) :=
  fun _ hm => hm

@[grind ←] theorem preserves_newArray (component : ClassId) (length : Nat) :
    Preserves Q (newArray component length) :=
  preserves_allocate _

@[grind ←] theorem preserves_classes : Preserves Q classes := preserves_view _

@[grind ←] theorem preserves_member? (id : Nat) : Preserves Q (member? id) := preserves_view _

@[grind ←] theorem preserves_memo? (slot : ConstantSlot) : Preserves Q (memo? slot) :=
  preserves_view _

@[grind ←] theorem preserves_classAt (id : ClassId) : Preserves Q (classAt id) := keeps_classAt id

@[grind ←] theorem preserves_coreClass (name : String) : Preserves Q (coreClass name) :=
  keeps_coreClass name

@[grind ←] theorem preserves_classOfObject (handle : Handle) :
    Preserves Q (classOfObject handle) :=
  keeps_classOfObject handle

@[grind ←] theorem preserves_elements (array : Handle) : Preserves Q (elements array) :=
  keeps_elements array

@[grind ←] theorem preserves_stringValue (handle : Handle) : Preserves Q (stringValue handle) :=
  keeps_stringValue handle

@[grind ←] theorem preserves_readMemberName (handle : Handle) :
    Preserves Q (readMemberName handle) :=
  keeps_readMemberName handle

@[grind ←] theorem preserves_updateMemberName (handle : Handle) (f : MemberName → MemberName) :
    Preserves Q (updateMemberName handle f) := by
  unfold updateMemberName
  grind

@[grind ←] theorem preserves_addClass (name : String) (make : ClassId → Handle → Class)
    (named : ∀ id h, (make id h).name = name) : Preserves Q (addClass name make named) :=
  keeps_addClass (framed_memos Q) name make named

/-! ## Loading -/

section Loading

variable {load : String → Link Class}

theorem preserves_deriveClassWith (hload : ∀ name, Preserves Q (load name)) :
    (∀ d, Preserves Q (defineClassWith load d)) ∧
      ∀ bytes, Preserves Q (deriveClassWith load bytes) :=
  ⟨keeps_defineClassWith (framed_memos Q) hload, keeps_deriveClassWith (framed_memos Q) hload⟩

@[grind ←] theorem preserves_defineArrayClass (component : Class) :
    Preserves Q (defineArrayClass component) :=
  keeps_defineArrayClass (framed_memos Q) component

theorem preserves_loadClassWithin (env : Environment) (bound : Nat) (name : String) :
    Preserves Q (loadClassWithin env bound name) :=
  keeps_loadClassWithin (framed_memos Q) env bound name

@[grind ←] theorem preserves_loadClass (env : Environment) (name : String) :
    Preserves Q (loadClass env name) :=
  preserves_loadClassWithin env env.loadBound name

end Loading

/-! ## Signatures and member names -/

@[grind ←] theorem preserves_classOfType (env : Environment) (t : TypeDescriptor) :
    Preserves Q (classOfType env t) :=
  preserves_loadClass env t.className

@[grind ←] theorem preserves_classOfDescriptor (env : Environment) (descriptor : String) :
    Preserves Q (classOfDescriptor env descriptor) :=
  keeps_classOfDescriptor (framed_memos Q) env descriptor

@[grind ←] theorem preserves_newMethodType (env : Environment) (descriptor : String) :
    Preserves Q (newMethodType env descriptor) :=
  keeps_newMethodType (framed_memos Q) env descriptor

@[grind ←] theorem preserves_signatureOr (e : LinkError) (classObject : Handle) :
    Preserves Q (signatureOr e classObject) :=
  keeps_signatureOr e classObject

@[grind ←] theorem preserves_methodDescriptor (result : Handle) (parameters : List Handle) :
    Preserves Q (methodDescriptor result parameters) :=
  keeps_methodDescriptor result parameters

@[grind ←] theorem preserves_typeSignature (type : Handle) : Preserves Q (typeSignature type) :=
  keeps_typeSignature (framed_memos Q) (fun type _ => preserves_update type _) type

@[grind ←] theorem preserves_initMemberName (mn reflected : Handle) :
    Preserves Q (initMemberName mn reflected) :=
  keeps_initMemberName (framed_memos Q) (preserves_updateMemberName mn) reflected

@[grind ←] theorem preserves_expandMemberName (env : Environment) (mn : Handle) :
    Preserves Q (expandMemberName env mn) := by
  -- What is made is made only where a part is missing.
  have hmake : ∀ present make, Preserves Q make → Preserves Q (orMake present make) := by
    intro present make hmake
    cases present with
    | some handle => exact preserves_pure handle
    | none => exact hmake
  have htype : ∀ present t,
      Preserves Q (orMake present (do pure (← classOfType env t).classObject)) := fun present t =>
    hmake present _ (preserves_bind (preserves_classOfType env t) (fun c => preserves_pure _))
  have hfield : ∀ n, Preserves Q (expandField env mn n) := by
    intro n
    unfold expandField
    grind
  have hmethod : ∀ n, Preserves Q (expandMethod mn n) := by
    intro n
    unfold expandMethod
    grind
  unfold expandMemberName
  grind

@[grind ←] theorem preserves_resolveMemberName (mn : Handle) (caller : Option Handle)
    (speculative : Bool) : Preserves Q (resolveMemberName mn caller speculative) :=
  keeps_resolveMemberName (framed_memos Q) (preserves_updateMemberName mn)
    (fun type _ => preserves_update type _) caller speculative

/-! ## Reflection and enumeration -/

@[grind ←] theorem preserves_reflectMember (env : Environment) (member : MatchedMember) :
    Preserves Q (reflectMember env member) :=
  keeps_reflectMember (framed_memos Q) env member

theorem preserves_fillResults (env : Environment) (results : Handle) (index : Nat)
    (members : List MatchedMember) : Preserves Q (fillResults env results index members) := by
  induction members generalizing index with
  | nil => exact preserves_pure true
  | cons member rest ih =>
    have hslot : Preserves Q (resultSlot results index) := by
      unfold resultSlot
      grind
    unfold fillResults
    grind

@[grind ←] theorem preserves_enumerateMembers (env : Environment) (r : EnumerationRequest) :
    Preserves Q (enumerateMembers env r) :=
  keeps_enumerateMembers_of env r (preserves_fillResults env)

/-! ## Questions to member names -/

@[grind ←] theorem preserves_objectFieldOffset (mn : Handle) : Preserves Q (objectFieldOffset mn) :=
  keeps_objectFieldOffset mn

@[grind ←] theorem preserves_staticFieldOffset (mn : Handle) : Preserves Q (staticFieldOffset mn) :=
  keeps_staticFieldOffset mn

@[grind ←] theorem preserves_staticFieldBase (mn : Handle) : Preserves Q (staticFieldBase mn) :=
  keeps_staticFieldBase mn

@[grind ←] theorem preserves_memberVMInfo (mn : Handle) : Preserves Q (memberVMInfo mn) := by
  have hinfo : ∀ n, Preserves Q (vmInfo mn n) := fun n => keeps_vmInfo mn n
  unfold memberVMInfo
  grind

/-! ## Operations -/

theorem preserves_runNative (env : Environment) {native : Native}
    (h : native ≠ .copyOutBootstrapArguments) (args : Arguments) :
    Preserves Q (runNative env native args) := by
  have htarget : Preserves Q (runNative.setTarget args) := by
    unfold runNative.setTarget setCallSiteTarget Arguments.required
    grind
  unfold runNative Arguments.required
  cases native <;> grind

theorem preserves_describe (reference : Option Handle) : Preserves Q (describe reference) := by
  refine preserves_bind (preserves_view _) (fun live => ?_)
  generalize live + 2 = depth
  induction depth generalizing reference with
  | zero => exact preserves_failWith _
  | succ depth ih =>
    show Preserves Q (describeWith (describeWithin depth) reference)
    cases reference with
    | none => exact preserves_pure _
    | some handle =>
      refine preserves_bind (preserves_read handle) (fun object => ?_)
      cases object <;> grind

/-- Operations that may resolve constants. -/
inductive Operation.Resolves : {α : Type} → Operation α → Prop where
  | object (owner : ClassId) (index : UInt16) (resolve : Bool) :
      (Operation.constantObject owner index resolve).Resolves
  | classRef (owner : ClassId) (index : UInt16) :
      (Operation.resolveClassConstant owner index).Resolves
  | stringRef (owner : ClassId) (index : UInt16) :
      (Operation.resolveStringConstant owner index).Resolves
  | methodType (owner : ClassId) (index : UInt16) :
      (Operation.resolveMethodTypeConstant owner index).Resolves
  | methodHandle (owner : ClassId) (index : UInt16) :
      (Operation.resolveMethodHandleConstant owner index).Resolves
  | dynamic (owner : ClassId) (index : UInt16) :
      (Operation.resolveDynamicConstant owner index).Resolves
  | copy (owner : ClassId) (request : ArgumentCopy) :
      (Operation.copyArguments owner request).Resolves
  | native (args : Arguments) : (Operation.runNative .copyOutBootstrapArguments args).Resolves
  | call (thread : Thread) (className name descriptor : String) (args : Arguments) :
      (Operation.invokeNative thread className name descriptor args).Resolves

/-- The other operations do not. -/
theorem Operation.preserves (env : Environment) (op : Operation α) (h : ¬ op.Resolves) :
    Preserves Q (op.run env) := by
  cases op with
  | constantObject owner index resolve => exact absurd (.object owner index resolve) h
  | resolveClassConstant owner index => exact absurd (.classRef owner index) h
  | resolveStringConstant owner index => exact absurd (.stringRef owner index) h
  | resolveMethodTypeConstant owner index => exact absurd (.methodType owner index) h
  | resolveMethodHandleConstant owner index => exact absurd (.methodHandle owner index) h
  | resolveDynamicConstant owner index => exact absurd (.dynamic owner index) h
  | copyArguments owner request => exact absurd (.copy owner request) h
  | invokeNative thread className name descriptor args => exact absurd (.call _ _ _ _ args) h
  | runNative native args =>
    -- Only one of the natives resolves constants.
    refine preserves_runNative env ?_ args
    rintro rfl
    exact h (.native args)
  | release handle => exact preserves_changeHeap _
  | collectGarbage => exact fun _ hm => hm
  | identify member => exact fun _ hm => hm
  | defineClass d => exact (preserves_deriveClassWith (preserves_loadClass env)).1 d
  | deriveClass bytes => exact (preserves_deriveClassWith (preserves_loadClass env)).2 bytes
  | classObjectSignature handle => exact preserves_signatureOr _ handle
  | describe reference => exact preserves_describe reference
  | _ => simp only [Operation.run]; grind

end Linkage
