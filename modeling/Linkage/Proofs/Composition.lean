import Linkage.Proofs.Changes

/-! # Actions made of others

    Most of linkage only looks at the machine, stores new objects and calls a few
    actions that do more. `Link.MadeOf B` says so: the action is built by the
    combinators from actions of `B` and from elementary actions that may be taken
    on any machine. What holds of the parts then holds of the whole. -/

namespace Linkage

/-- Machines that differ in the places of their objects only. -/
structure Machine.Alike (m m' : Machine) : Prop where
  heap : m.heap.view = m'.heap.view
  others : { m' with heap := m.heap } = m

namespace Link

variable {α β : Type}

/-! ## Composition -/

/-- The action is built from actions of `B` and elementary ones. -/
inductive MadeOf (B : (α : Type) → Link α → Prop) : {α : Type} → Link α → Prop where
  | given {α : Type} {x : Link α} (h : B α x) : MadeOf B x
  | value {α : Type} (a : α) : MadeOf B (pure a)
  | sequence {α β : Type} {x : Link α} {f : α → Link β} (hx : MadeOf B x)
      (hf : ∀ a, MadeOf B (f a)) : MadeOf B (x >>= f)
  | failure {α : Type} (e : Failure) (h : ∀ fault, e ≠ .fault fault) :
      MadeOf B (failWith e : Link α)
  | attempt {α : Type} {x : Link α} (hx : MadeOf B x) : MadeOf B (attempt x)
  /-- Where objects are is not looked at. -/
  | view {α : Type} (f : Machine → α) (h : ∀ {m m'}, m.Alike m' → f m = f m') :
      MadeOf B (view f)
  | read (handle : Handle) : MadeOf B (read handle)
  | allocate (object : Object) (h : object.Plain) : MadeOf B (allocate object)
  | intern (text : String) : MadeOf B (intern text)
  | identify (member : MemberRef) : MadeOf B (identify member)
  | memoize (slot : ConstantSlot) {compute : Link Handle} (h : MadeOf B compute) :
      MadeOf B (memoize slot compute)
  | recordCall (call : BootstrapCall) : MadeOf B (recordCall call)
  | setElements (handle : Handle) (g : Array (Option Handle) → Array (Option Handle))
      (sized : ∀ elements, (g elements).size = elements.size) :
      MadeOf B (update handle (Object.mapElements g))
  | setDescriptor (handle text : Handle) :
      MadeOf B (update handle (Object.setDescriptor text))

attribute [grind ←] MadeOf.value MadeOf.sequence MadeOf.attempt MadeOf.read MadeOf.intern
  MadeOf.identify MadeOf.memoize MadeOf.recordCall MadeOf.setDescriptor

variable {B : (α : Type) → Link α → Prop}

@[grind ←] theorem madeOf_fail (e : LinkError) : MadeOf B (fail e : Link α) :=
  .failure _ (fun _ h => by cases h)

@[grind ←] theorem madeOf_boundReached : MadeOf B (failWith .boundReached : Link α) :=
  .failure _ (fun _ h => by cases h)

@[grind ←] theorem madeOf_unknownClass (id : ClassId) :
    MadeOf B (failWith (.unknownClass id) : Link α) :=
  .failure _ (fun _ h => by cases h)

@[grind ←] theorem madeOf_orFail (o : Option α) (e : LinkError) : MadeOf B (orFail o e) := by
  cases o with
  | none => exact madeOf_fail e
  | some a => exact .value a

@[grind ←] theorem madeOf_ofExcept (r : Except LinkError α) : MadeOf B (ofExcept r) := by
  cases r with
  | error e => exact madeOf_fail e
  | ok a => exact .value a

@[grind ←] theorem madeOf_map (g : α → β) {x : Link α} (hx : MadeOf B x) : MadeOf B (g <$> x) :=
  .sequence hx (fun a => .value (g a))

@[grind ←] theorem madeOf_forEach {f : α → Link β} (hf : ∀ a, MadeOf B (f a)) (as : List α) :
    MadeOf B (forEach f as) := by
  induction as with
  | nil => exact .value []
  | cons a as ih => exact .sequence (hf a) (fun b => .sequence ih (fun bs => .value _))

/-! ## Looking at the machine -/

theorem madeOf_classes : MadeOf B classes :=
  .view _ (fun h => by rw [← h.others])

theorem madeOf_findClass (name : String) : MadeOf B (findClass name) :=
  .view _ (fun h => by rw [← h.others])

theorem madeOf_member? (id : Nat) : MadeOf B (member? id) :=
  .view _ (fun h => by rw [← h.others])

theorem madeOf_memo? (slot : ConstantSlot) : MadeOf B (memo? slot) :=
  .view _ (fun h => by rw [← h.others])

attribute [grind ←] madeOf_classes madeOf_findClass madeOf_member? madeOf_memo?

@[grind ←] theorem madeOf_classAt (id : ClassId) : MadeOf B (classAt id) := by
  unfold classAt
  grind

@[grind ←] theorem madeOf_coreClass (name : String) : MadeOf B (coreClass name) := by
  unfold coreClass
  grind

@[grind ←] theorem madeOf_classOfObject (handle : Handle) : MadeOf B (classOfObject handle) := by
  unfold classOfObject
  grind

@[grind ←] theorem madeOf_elements (array : Handle) : MadeOf B (elements array) := by
  unfold elements
  grind

@[grind ←] theorem madeOf_stringValue (handle : Handle) : MadeOf B (stringValue handle) := by
  unfold stringValue
  grind

@[grind ←] theorem madeOf_readMemberName (handle : Handle) :
    MadeOf B (readMemberName handle) := by
  unfold readMemberName
  grind

@[grind ←] theorem madeOf_newArray (component : ClassId) (length : Nat) :
    MadeOf B (newArray component length) :=
  .allocate _ trivial

@[grind ←] theorem madeOf_setElement (handle : Handle) (index : Nat) (value : Option Handle) :
    MadeOf B (update handle (Object.setElement index value)) := by
  rw [Object.setElement_eq_mapElements]
  exact .setElements handle _ (fun _ => Array.size_setIfInBounds)

/-! ## Signatures -/

section Signatures

@[grind ←] theorem madeOf_signatureOr (e : LinkError) (classObject : Handle) :
    MadeOf B (signatureOr e classObject) := by
  unfold signatureOr
  grind

@[grind ←] theorem madeOf_methodDescriptor (result : Handle) (parameters : List Handle) :
    MadeOf B (methodDescriptor result parameters) := by
  unfold methodDescriptor
  grind

@[grind ←] theorem madeOf_typeSignature (type : Handle) : MadeOf B (typeSignature type) := by
  unfold typeSignature classObjectSignature
  refine .sequence (.read type) (fun object => ?_)
  cases object with
  | methodType t => grind
  | string text => exact .value text
  | classObject id => exact madeOf_signatureOr _ type
  | _ => exact madeOf_fail _

end Signatures

/-! ## Changes -/

variable {rule : Discipline}

theorem changing_bind {x : Link α} {f : α → Link β} (hx : Changing rule x)
    (hf : ∀ a, Changing rule (f a)) : Changing rule (x >>= f) :=
  fun m => (goes_bind (hx.goes m) (fun a m' _ _ => (hf a).goes m')).1

/-- What every change keeps is kept when a constant is remembered. -/
theorem keeps_memoize {P : Machine → Prop} (hP : ∀ {m m'}, Change rule m m' → P m → P m')
    (slot : ConstantSlot) {compute : Link Handle} (hcompute : Keeps P compute) :
    Keeps P (memoize slot compute) := by
  intro m hm
  have hkept := hcompute m hm
  unfold memoize
  rw [bind_of_ok (memo?_run slot m)]
  cases m.memos.lookup slot with
  | some value => exact hm
  | none =>
    dsimp only
    rcases bind_cases compute _ m with ⟨e, m₁, hrun, hbind⟩ | ⟨value, m₁, hrun, hbind⟩
    · rw [hrun] at hkept
      rw [hbind]
      exact hkept
    · rw [hrun] at hkept
      -- The computation may have left a value; only if not, one is remembered.
      rw [hbind, bind_of_ok (memo?_run slot m₁)]
      cases hnew : m₁.memos.lookup slot with
      | some first => exact hkept
      | none => exact hP (Change.remember slot value hnew) hkept

/-- An action that is made of actions that keep a property keeps it, if every change does. -/
theorem MadeOf.keeps {P : Machine → Prop} (hP : ∀ {m m'}, Change rule m m' → P m → P m')
    (hB : ∀ {α : Type} {x : Link α}, B α x → Keeps P x) {x : Link α} (hx : MadeOf B x) :
    Keeps P x := by
  induction hx with
  | given h => exact hB h
  | value a => exact fun _ hm => hm
  | sequence _ _ ihx ihf => exact keeps_bind ihx ihf
  | failure e _ => exact fun _ hm => hm
  | attempt _ ih => exact fun m hm => by rw [attempt_machine]; exact ih m hm
  | view f _ => exact fun _ hm => hm
  | read handle =>
    intro m hm
    have hsame : Changes rule m (Link.read handle m).2 := (goes_read handle).1
    exact hsame.keeps hP hm
  | allocate object h => exact fun m hm => hP (Change.allocate object (Or.inl h)) hm
  | intern text => exact fun m hm => hP (Change.intern text) hm
  | identify member => exact fun m hm => hP (Change.identify member) hm
  | memoize slot _ ih => exact keeps_memoize hP slot ih
  | recordCall call => exact fun m hm => hP (Change.recordCall call) hm
  | setElements handle g sized => exact fun m hm => hP (Change.setElements handle g sized) hm
  | setDescriptor handle text => exact fun m hm => hP (Change.setDescriptor handle text) hm

/-- To be reached through changes is such a property. -/
theorem changing_iff_keeps {x : Link α} :
    Changing rule x ↔ ∀ m, Keeps (Changes rule m) x :=
  ⟨fun hx _ m' hm' => hm'.trans (hx m'), fun hx m => hx m m (.refl m)⟩

theorem changing_memoize (slot : ConstantSlot) {compute : Link Handle}
    (hcompute : Changing rule compute) : Changing rule (memoize slot compute) :=
  changing_iff_keeps.mpr (fun m => keeps_memoize (fun hchange hm => hm.trans (.single hchange)) slot
    (changing_iff_keeps.mp hcompute m))

/-- An action that is made of actions that go through changes goes through changes. -/
theorem MadeOf.changing (hB : ∀ {α : Type} {x : Link α}, B α x → Changing rule x) {x : Link α}
    (hx : MadeOf B x) : Changing rule x :=
  changing_iff_keeps.mpr (fun m => hx.keeps (fun hchange hm => hm.trans (.single hchange))
    (fun hpart => changing_iff_keeps.mp (hB hpart) m))

end Link

end Linkage
