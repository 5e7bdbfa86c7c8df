import Linkage.Proofs.Runs
import Mathlib.Data.List.Forall2

/-! # Moving objects is not seen

    Two machines are the `Same` if they differ only in where their objects are. An
    action is `Transparent` if it answers the same on such machines, leaves the same
    machines behind and never uses a place that is out of date. Every operation is
    transparent, and collecting garbage leaves the same machine, so how often the heap
    moves its objects makes no difference to any session.

    Bootstrap methods are code of their own: they are taken to use the machine through
    its operations only (`Link.ByHandle`), and so to hold nothing but handles. -/

namespace Linkage

open Link

/-! ## The same machine -/

/-- Machines that differ in the places of objects only, with heaps in order. -/
structure Machine.Same (m m' : Machine) : Prop extends m.Alike m' where
  left : m.heap.WellFormed
  right : m'.heap.WellFormed

variable {m m' m'' : Machine}

theorem Machine.Alike.eq (h : m.Alike m') : m' = { m with heap := m'.heap } := by
  have hothers := h.others
  cases m
  cases m'
  simp only [Machine.mk.injEq, true_and] at hothers ⊢
  obtain ⟨h₁, h₂, h₃, h₄, h₅, h₆⟩ := hothers
  exact ⟨h₁, h₂, h₃, h₄, h₅, h₆⟩

/-- The same machine with another heap that looks the same. -/
theorem Machine.same_of_view {heap heap' : Heap Object} (m : Machine) (hview : heap.view = heap'.view)
    (hleft : heap.WellFormed) (hright : heap'.WellFormed) :
    { m with heap := heap }.Same { m with heap := heap' } :=
  ⟨⟨hview, rfl⟩, hleft, hright⟩

theorem Machine.Same.read (h : m.Same m') (handle : Handle) :
    m.heap.read handle = m'.heap.read handle := by
  rw [Heap.read_view h.left, Heap.read_view h.right, h.heap]

/-- Moving the objects of one of them leaves machines the same. -/
theorem Machine.Same.relocate (h : m.Same m') :
    { m with heap := m.heap.relocate }.Same m' where
  heap := by
    show m.heap.relocate.view = m'.heap.view
    rw [Heap.view_relocate, h.heap]
  others := by
    rw [h.toAlike.eq]
  left := Heap.wellFormed_relocate h.left
  right := h.right

/-- Heaps that look the same take a new object in the same way. -/
theorem Machine.Same.allocate (h : m.Same m') (object : Object) :
    (m.heap.allocate object).1 = (m'.heap.allocate object).1 ∧
      (m.heap.allocate object).2.view = (m'.heap.allocate object).2.view := by
  obtain ⟨h₁, h₂⟩ := Heap.allocate_view h.left object
  obtain ⟨h₁', h₂'⟩ := Heap.allocate_view h.right object
  rw [h₁, h₂, h₁', h₂', h.heap]
  exact ⟨rfl, rfl⟩

/-- Setting what is being loaded. -/
theorem Machine.Same.loading (h : m.Same m') (names : List String → List String) :
    { m with loading := names m.loading }.Same { m' with loading := names m'.loading } := by
  rw [h.toAlike.eq]
  exact ⟨⟨h.heap, rfl⟩, h.left, h.right⟩

/-! ## Transparent actions -/

namespace Link

variable {α β : Type}

/-- On machines that are the same, the action answers the same and leaves machines
    that are the same. It never uses a place that is out of date. -/
def Transparent (x : Link α) : Prop :=
  ∀ m m' : Machine, m.Same m' → (x m).1 = (x m').1 ∧ (x m).2.Same (x m').2 ∧
    (x m).1 ≠ .error (.fault .stalePointer)

theorem transparent_bind {x : Link α} {f : α → Link β} (hx : Transparent x)
    (hf : ∀ a, Transparent (f a)) : Transparent (x >>= f) := by
  intro m m' h
  obtain ⟨hresult, hsame, hstale⟩ := hx m m' h
  rw [bind_run, bind_run]
  cases hxm : x m with
  | mk result m₁ =>
    cases hxm' : x m' with
    | mk result' m₁' =>
      rw [hxm, hxm'] at hresult hsame
      rw [hxm] at hstale
      dsimp only at hresult hsame hstale
      subst hresult
      -- A value is the same on both sides, so the same action goes on.
      cases result with
      | error e => exact ⟨rfl, hsame, fun he => hstale (by cases he; rfl)⟩
      | ok a => exact hf a m₁ m₁' hsame

theorem transparent_attempt {x : Link α} (hx : Transparent x) : Transparent (attempt x) := by
  intro m m' h
  obtain ⟨hresult, hsame, hstale⟩ := hx m m' h
  rw [attempt_run, attempt_run]
  cases hxm : x m with
  | mk result m₁ =>
    cases hxm' : x m' with
    | mk result' m₁' =>
      rw [hxm, hxm'] at hresult hsame
      rw [hxm] at hstale
      dsimp only at hresult hsame hstale
      subst hresult
      -- The two results are equal, so only a fault is left to look at: it is no stale pointer.
      cases result with
      | ok a => exact ⟨rfl, hsame, by simp⟩
      | error e =>
        cases e with
        | thrown error => exact ⟨rfl, hsame, by simp⟩
        | fault fault => exact ⟨rfl, hsame, fun he => hstale (by cases he; rfl)⟩
        | unknownClass id => exact ⟨rfl, hsame, by simp⟩
        | boundReached => exact ⟨rfl, hsame, by simp⟩

theorem transparent_view {f : Machine → α} (hf : ∀ {m m'}, m.Alike m' → f m = f m') :
    Transparent (view f) := by
  intro m m' h
  exact ⟨by rw [view_run, view_run, hf h.toAlike], h, by simp⟩

/-! ## The heap -/

theorem transparent_read (handle : Handle) : Transparent (read handle) := by
  intro m m' h
  have hread := h.read handle
  rw [read_run, read_run, ← hread]
  cases hobject : m.heap.read handle with
  | ok object => exact ⟨rfl, h, by simp⟩
  | error fault =>
    refine ⟨rfl, h, ?_⟩
    -- Reading through a handle fails only if the handle is free.
    rw [Heap.read_view h.left] at hobject
    unfold Store.read at hobject
    split at hobject
    · cases hobject
    · cases hobject
      simp

/-- A change of the heap that is a change of what clients see. -/
theorem transparent_changeHeap {change : Heap Object → Except Heap.Fault Unit × Heap Object}
    {S : Store Object → Except Heap.Fault Unit × Store Object}
    (hwell : ∀ {h}, h.WellFormed → (change h).2.WellFormed)
    (hview : ∀ {h}, h.WellFormed → (change h).1 = (S h.view).1 ∧
      (change h).2.view = (S h.view).2)
    (hstale : ∀ s, (S s).1 ≠ .error .stalePointer) : Transparent (changeHeap change) := by
  intro m m' h
  -- Both heaps change as their views do, and the views are the same.
  obtain ⟨hresult, hheap⟩ := hview h.left
  obtain ⟨hresult', hheap'⟩ := hview h.right
  have hleft := hwell h.left
  have hright := hwell h.right
  have hs := hstale m.heap.view
  rw [h.toAlike.eq]
  rw [← h.heap] at hresult' hheap'
  unfold changeHeap
  dsimp only
  cases hc : change m.heap with
  | mk result heap =>
    cases hc' : change m'.heap with
    | mk result' heap' =>
      rw [hc] at hresult hheap hleft
      rw [hc'] at hresult' hheap' hright
      dsimp only at hresult hheap hleft hresult' hheap' hright
      subst hresult
      subst hresult'
      have hsame := m.same_of_view (hheap.trans hheap'.symm) hleft hright
      cases hseen : (S m.heap.view).1 with
      | ok u => exact ⟨rfl, hsame, by simp⟩
      | error fault =>
        refine ⟨rfl, hsame, fun he => hs ?_⟩
        rw [hseen]
        cases he
        rfl

theorem transparent_update (handle : Handle) (f : Object → Object) :
    Transparent (update handle f) := by
  refine transparent_changeHeap (S := fun s => s.update handle f)
    (fun hw => Heap.wellFormed_update hw handle f) (fun hw => Heap.update_view hw handle f) ?_
  intro s
  unfold Store.update
  split <;> simp

theorem transparent_release (handle : Handle) : Transparent (release handle) := by
  refine transparent_changeHeap (S := fun s => s.release handle)
    (fun hw => Heap.wellFormed_release hw handle) (fun hw => Heap.release_view hw handle) ?_
  intro s
  unfold Store.release
  split <;> simp

theorem transparent_collectGarbage : Transparent collectGarbage := by
  intro m m' h
  refine ⟨rfl, ?_, by simp [collectGarbage]⟩
  show { m with heap := m.heap.relocate }.Same { m' with heap := m'.heap.relocate }
  rw [h.toAlike.eq]
  refine m.same_of_view ?_ (Heap.wellFormed_relocate h.left) (Heap.wellFormed_relocate h.right)
  rw [Heap.view_relocate, Heap.view_relocate, h.heap]

theorem transparent_allocate (object : Object) : Transparent (allocate object) := by
  intro m m' h
  -- Equal views give out the same handle, or are both full.
  obtain ⟨hresult, hview⟩ := h.allocate object
  have hleft := Heap.wellFormed_allocate h.left object
  have hright := Heap.wellFormed_allocate h.right object
  rw [h.toAlike.eq]
  unfold allocate
  dsimp only
  cases ha : m.heap.allocate object with
  | mk stored heap =>
    cases ha' : m'.heap.allocate object with
    | mk stored' heap' =>
      rw [ha, ha'] at hresult hview
      rw [ha] at hleft
      rw [ha'] at hright
      dsimp only at hresult
      subst hresult
      have hsame := m.same_of_view hview hleft hright
      cases stored with
      | none => exact ⟨rfl, hsame, by simp⟩
      | some handle => exact ⟨rfl, hsame, by simp⟩

theorem transparent_intern (text : String) : Transparent (intern text) := by
  intro m m' h
  obtain ⟨hresult, hview⟩ := h.allocate (.string text)
  have hleft := Heap.wellFormed_allocate h.left (.string text)
  have hright := Heap.wellFormed_allocate h.right (.string text)
  have hsame := h
  rw [h.toAlike.eq] at hsame ⊢
  unfold intern StringPool.intern
  dsimp only
  -- A text that is known is answered from the pool, which the two machines share.
  cases m.strings.find? text with
  | some handle => exact ⟨rfl, hsame, by simp⟩
  | none =>
    dsimp only
    cases ha : m.heap.allocate (.string text) with
    | mk stored heap =>
      cases ha' : m'.heap.allocate (.string text) with
      | mk stored' heap' =>
        rw [ha, ha'] at hresult hview
        rw [ha] at hleft
        rw [ha'] at hright
        dsimp only at hresult
        subst hresult
        cases stored with
        | none => exact ⟨rfl, m.same_of_view hview hleft hright, by simp⟩
        | some handle =>
          refine ⟨rfl, ?_, by simp⟩
          exact { m with strings := m.strings.insert text handle }.same_of_view hview hleft hright

/-! ## The rest of the machine -/

theorem transparent_identify (member : MemberRef) : Transparent (identify member) := by
  intro m m' h
  rw [h.toAlike.eq]
  exact ⟨rfl, ⟨⟨h.heap, rfl⟩, h.left, h.right⟩, fun he => by cases he⟩

theorem transparent_remember (slot : ConstantSlot) (value : Handle) :
    Transparent (remember slot value) := by
  intro m m' h
  rw [h.toAlike.eq]
  exact ⟨rfl, ⟨⟨h.heap, rfl⟩, h.left, h.right⟩, fun he => by cases he⟩

theorem transparent_recordCall (call : BootstrapCall) : Transparent (recordCall call) := by
  intro m m' h
  rw [h.toAlike.eq]
  exact ⟨rfl, ⟨⟨h.heap, rfl⟩, h.left, h.right⟩, fun he => by cases he⟩

theorem transparent_appendClass (name : String) (c : Class) (named : c.name = name) :
    Transparent (appendClass name c named) := by
  intro m m' h
  rw [h.toAlike.eq]
  exact ⟨rfl, ⟨⟨h.heap, rfl⟩, h.left, h.right⟩, fun he => by cases he⟩

theorem transparent_whileLoading (name : String) {x : Link α} (hx : Transparent x) :
    Transparent (whileLoading name x) := by
  intro m m' h
  obtain ⟨hresult, hsame, hstale⟩ := hx _ _ (h.loading (fun names => name :: names))
  exact ⟨hresult, hsame.loading (fun names => names.erase name), hstale⟩

/-! ## Composition -/

theorem transparent_memoize (slot : ConstantSlot) {compute : Link Handle}
    (hcompute : Transparent compute) : Transparent (memoize slot compute) := by
  have hmemo : Transparent (memo? slot) := transparent_view (fun h => by rw [← h.others])
  have hvalue : ∀ handle : Handle, Transparent (pure handle) := fun handle =>
    fun _ _ h => ⟨rfl, h, by simp⟩
  refine transparent_bind hmemo (fun found => ?_)
  cases found with
  | some value => exact hvalue value
  | none =>
    refine transparent_bind hcompute (fun value => transparent_bind hmemo (fun first => ?_))
    cases first with
    | some first => exact hvalue first
    | none => exact transparent_bind (transparent_remember slot value) (fun _ => hvalue value)

/-- An action that is made of transparent actions is transparent. -/
theorem MadeOf.transparent {B : (α : Type) → Link α → Prop}
    (hB : ∀ {α : Type} {x : Link α}, B α x → Transparent x) {x : Link α} (hx : MadeOf B x) :
    Transparent x := by
  induction hx with
  | given h => exact hB h
  | value a => exact fun _ _ h => ⟨rfl, h, by simp⟩
  | sequence _ _ ihx ihf => exact transparent_bind ihx ihf
  -- A failure that is made on purpose is never a stale pointer.
  | failure e hfault =>
    refine fun _ _ h => ⟨rfl, h, fun he => hfault .stalePointer ?_⟩
    cases he
    rfl
  | attempt _ ih => exact transparent_attempt ih
  | view f h => exact transparent_view h
  | read handle => exact transparent_read handle
  | allocate object _ => exact transparent_allocate object
  | intern text => exact transparent_intern text
  | identify member => exact transparent_identify member
  | memoize slot _ ih => exact transparent_memoize slot ih
  | recordCall call => exact transparent_recordCall call
  | setElements handle g _ => exact transparent_update handle _
  | setDescriptor handle text => exact transparent_update handle _

/-- The action is made of transparent actions. -/
abbrev Clear (x : Link α) : Prop :=
  MadeOf (fun _ x => Transparent x) x

theorem Clear.transparent {x : Link α} (h : Clear x) : Transparent x :=
  MadeOf.transparent (fun h => h) h

@[grind ←] theorem clear_identify (member : MemberRef) : Clear (identify member) :=
  .given (transparent_identify member)

@[grind ←] theorem clear_allocate (object : Object) : Clear (allocate object) :=
  .given (transparent_allocate object)

@[grind ←] theorem clear_update (handle : Handle) (f : Object → Object) :
    Clear (update handle f) :=
  .given (transparent_update handle f)

@[grind ←] theorem clear_appendClass (name : String) (c : Class) (named : c.name = name) :
    Clear (appendClass name c named) :=
  .given (transparent_appendClass name c named)

@[grind ←] theorem clear_updateMemberName (handle : Handle) (f : MemberName → MemberName) :
    Clear (updateMemberName handle f) := by
  unfold updateMemberName
  grind

end Link

/-! ## Classes -/

section Loading

variable {load : String → Link Class}

@[grind ←] theorem clear_addClass (name : String) (make : ClassId → Handle → Class)
    (named : ∀ id h, (make id h).name = name) : Clear (addClass name make named) := by
  unfold addClass
  grind

theorem clear_defineClassWith (hload : ∀ name, Clear (load name)) (d : ClassDeclaration) :
    Clear (defineClassWith load d) := by
  have hsuper : Clear (loadSuperclass load d) := by
    unfold loadSuperclass
    grind
  have hinterface : ∀ name, Clear (loadInterface load d name) := by
    intro name
    unfold loadInterface
    grind
  unfold defineClassWith
  grind

theorem clear_deriveClassWith (hload : ∀ name, Clear (load name)) (bytes : Text.Bytes) :
    Clear (deriveClassWith load bytes) := by
  unfold deriveClassWith
  split
  · exact clear_defineClassWith hload _
  · exact madeOf_fail _

@[grind ←] theorem clear_defineArrayClass (component : Class) :
    Clear (defineArrayClass component) := by
  unfold defineArrayClass
  grind

theorem clear_classOfTypeWith (hload : ∀ name, Clear (load name)) (t : TypeDescriptor) :
    Clear (classOfTypeWith load t) := by
  induction t with
  | primitive p => exact hload _
  | object name => exact hload _
  | array component ih =>
    unfold classOfTypeWith
    grind

theorem clear_loadFile (env : Environment) (hload : ∀ name, Clear (load name)) (name : String) :
    Clear (loadFile env load name) := by
  unfold loadFile
  have hloading : Clear (view Machine.loading) := .view _ (fun h => by rw [← h.others])
  have hderive : ∀ bytes, Clear (whileLoading name (deriveClassWith load bytes)) := fun bytes =>
    .given (transparent_whileLoading name (clear_deriveClassWith hload bytes).transparent)
  grind

theorem clear_loadClassWithin (env : Environment) (bound : Nat) (name : String) :
    Clear (loadClassWithin env bound name) := by
  induction bound generalizing name with
  | zero => exact madeOf_boundReached
  | succ bound ih =>
    have hfile := clear_loadFile env ih name
    have htype := clear_classOfTypeWith ih
    unfold loadClassWithin
    grind

@[grind ←] theorem clear_loadClass (env : Environment) (name : String) :
    Clear (loadClass env name) :=
  clear_loadClassWithin env env.loadBound name

theorem clear_defineClass (env : Environment) (d : ClassDeclaration) :
    Clear (defineClass env d) :=
  clear_defineClassWith (clear_loadClass env) d

theorem clear_defineCoreClasses (env : Environment) : Clear (defineCoreClasses env) := by
  unfold defineCoreClasses definePrimitiveClass
  have hdefine := clear_defineClass env
  grind

end Loading

/-! ## Member names -/

theorem clear_initMemberName (mn reflected : Handle) : Clear (initMemberName mn reflected) := by
  -- One fact for each helper, for `grind` to put together.
  have hdeclaring : ∀ handle, Clear (declaringClass handle) := by
    intro handle
    unfold declaringClass
    grind
  unfold initMemberName
  refine .sequence (.read reflected) (fun object => ?_)
  cases object with
  | field r =>
    show Clear (initFromField mn r)
    unfold initFromField
    grind
  | method r =>
    show Clear (initFromMethod mn r)
    unfold initFromMethod
    grind
  | constructor r =>
    show Clear (initFromConstructor mn r)
    unfold initFromConstructor
    grind
  | _ => exact madeOf_fail _

theorem clear_orMake (present : Option Handle) {make : Link Handle}
    (hmake : Clear make) : Clear (orMake present make) := by
  cases present with
  | some handle => exact .value handle
  | none => exact hmake

theorem clear_expandMemberName (env : Environment) (mn : Handle) :
    Clear (expandMemberName env mn) := by
  -- The parts that are filled in are interned or loaded, and both are clear.
  have hname : ∀ present text, Clear (orMake present (intern text)) := fun present text =>
    clear_orMake present (.intern text)
  have htype : ∀ present t,
      Clear (orMake present (do pure (← classOfType env t).classObject)) := fun present t =>
    clear_orMake present (.sequence (clear_loadClass env t.className) (fun c => .value _))
  have hfield : ∀ n, Clear (expandField env mn n) := by
    intro n
    unfold expandField
    grind
  have hmethod : ∀ n, Clear (expandMethod mn n) := by
    intro n
    unfold expandMethod
    grind
  unfold expandMemberName
  grind

theorem clear_resolveMemberName (mn : Handle) (caller : Option Handle) (speculative : Bool) :
    Clear (resolveMemberName mn caller speculative) := by
  -- From the inside out: storing the answer, the two searches, the question.
  have hcommit : ∀ flags clazz member target,
      Clear (commitMember mn flags clazz member target) := by
    intro flags clazz member target
    unfold commitMember
    grind
  have hmethod : ∀ c kind name signature referenceKind caller,
      Clear (resolveMethod mn c kind name signature referenceKind caller speculative) := by
    intro c kind name signature referenceKind caller
    unfold resolveMethod
    grind
  have hfield : ∀ c name signature referenceKind caller,
      Clear (resolveField mn c name signature referenceKind caller speculative) := by
    intro c name signature referenceKind caller
    unfold resolveField
    grind
  have hcaller := fun caller => madeOf_callerClass (B := fun _ x => Transparent x) caller
  have hmember : Clear (resolveMember mn caller speculative) := by
    unfold resolveMember
    refine .sequence (madeOf_readMemberName mn) (fun n => ?_)
    split
    · exact .value true
    · refine .sequence (madeOf_orFail _ _) (fun referenceKind => ?_)
      split
      · refine .sequence (madeOf_searchedClass _) (fun found => ?_)
        grind
      · exact .value false
  unfold resolveMemberName
  grind

theorem clear_setCallSiteTarget (callSite target : Handle) :
    Clear (setCallSiteTarget callSite target) := by
  unfold setCallSiteTarget
  grind

/-! ## Operations -/

section Operations

variable {env : Environment} {α : Type}

/-- A linking action is transparent if the bootstrap methods are. -/
theorem Linking.transparent
    (hinvoke : ∀ invoke, env.invoker = some invoke → ∀ c buffer, Transparent (invoke c buffer))
    {x : Link α} (h : Linking env α x) : Transparent x := by
  cases h with
  | load name => exact (clear_loadClass env name).transparent
  | define d => exact (clear_defineClass env d).transparent
  | derive bytes => exact (clear_deriveClassWith (clear_loadClass env) bytes).transparent
  | arrayOf component =>
    exact Clear.transparent (.sequence (madeOf_classAt component) clear_defineArrayClass)
  | init mn reflected => exact (clear_initMemberName mn reflected).transparent
  | expand mn => exact (clear_expandMemberName env mn).transparent
  | resolve mn caller speculative =>
    exact (clear_resolveMemberName mn caller speculative).transparent
  | setTarget callSite target => exact (clear_setCallSiteTarget callSite target).transparent
  | invoke known c buffer => exact hinvoke _ known c buffer

/-- Every operation is transparent if the bootstrap methods are. -/
theorem Operation.transparent
    (hinvoke : ∀ invoke, env.invoker = some invoke → ∀ c buffer, Transparent (invoke c buffer))
    (op : Operation α) : Transparent (op.run env) := by
  by_cases hheap : op.OnHeap
  · cases hheap with
    | allocate object => exact transparent_allocate object
    | update handle f => exact transparent_update handle f
    | release handle => exact transparent_release handle
    | collectGarbage => exact transparent_collectGarbage
  · exact (op.links env hheap).transparent (Linking.transparent hinvoke)

end Operations

/-- Code that uses a machine through operations only: it computes, fails, carries out
    operations and goes on with their answers. -/
inductive Link.ByHandle : {α : Type} → Link α → Prop where
  | value {α : Type} (a : α) : ByHandle (pure a)
  | failure {α : Type} (e : Failure) (h : e ≠ .fault .stalePointer) :
      ByHandle (failWith e : Link α)
  | sequence {α β : Type} {x : Link α} {f : α → Link β} (hx : ByHandle x)
      (hf : ∀ a, ByHandle (f a)) : ByHandle (x >>= f)
  | attempt {α : Type} {x : Link α} (hx : ByHandle x) : ByHandle (attempt x)
  | operation {α : Type} (env : Environment) (op : Operation α)
      (hinvoke : ∀ invoke, env.invoker = some invoke → ∀ c buffer, ByHandle (invoke c buffer)) :
      ByHandle (op.run env)

theorem Link.ByHandle.transparent {α : Type} {x : Link α} (h : ByHandle x) : Transparent x := by
  induction h with
  | value a => exact fun _ _ h => ⟨rfl, h, by simp⟩
  | failure e he => exact fun _ _ h => ⟨rfl, h, fun hfail => he (by cases hfail; rfl)⟩
  | sequence _ _ ihx ihf => exact transparent_bind ihx ihf
  | attempt _ ih => exact transparent_attempt ih
  | operation env op _ ih => exact op.transparent ih

/-! ## Sessions -/

/-- A step of a session: how often garbage is collected, and the operation that is
    then carried out. -/
abbrev Step : Type 1 := Nat × (α : Type) × Operation α

/-- What a step shows: the answer, and the machine afterwards. -/
abbrev Outcome : Type 1 := ((α : Type) × Except Failure α) × Machine

/-- Collect garbage so many times. -/
def Machine.collect : Nat → Machine → Machine
  | 0, m => m
  | n + 1, m => Machine.collect n (collectGarbage m).2

/-- Take steps in turn, whatever they answer. -/
def Machine.session (env : Environment) : Machine → List Step → List Outcome
  | _, [] => []
  | m, (n, op) :: steps =>
      let (result, m') := op.2.run env (m.collect n)
      (⟨op.1, result⟩, m') :: Machine.session env m' steps

/-- The same answer, the same contents behind every handle, and the same classes,
    strings, constants and members. -/
structure Outcome.Agrees (a b : Outcome) : Prop where
  result : a.1 = b.1
  contents : ∀ handle, a.2.heap.read handle = b.2.heap.read handle
  others : { b.2 with heap := a.2.heap } = a.2

theorem Machine.Same.collect (h : m.Same m') (n : Nat) : (m.collect n).Same m' := by
  induction n generalizing m with
  | zero => exact h
  | succ n ih => exact ih h.relocate

theorem Machine.Same.session {env : Environment}
    (hinvoke : ∀ invoke, env.invoker = some invoke → ∀ c buffer, ByHandle (invoke c buffer))
    (h : m.Same m') (steps : List Step) :
    List.Forall₂ Outcome.Agrees (m.session env steps)
        (m'.session env (steps.map (fun step => (0, step.2)))) ∧
      ∀ outcome ∈ m.session env steps, outcome.1.2 ≠ .error (.fault .stalePointer) := by
  induction steps generalizing m m' with
  | nil => exact ⟨.nil, fun _ hmem => absurd hmem List.not_mem_nil⟩
  | cons step steps ih =>
    obtain ⟨n, op⟩ := step
    -- Garbage is collected on one side only, and the machines stay the same.
    have htransparent := op.2.transparent (fun invoke known c buffer =>
      (hinvoke invoke known c buffer).transparent)
    obtain ⟨hresult, hsame, hstale⟩ := htransparent _ _ (h.collect n)
    obtain ⟨hagree, hnever⟩ := ih hsame
    refine ⟨.cons ⟨Sigma.ext rfl (heq_of_eq hresult), hsame.read, hsame.others⟩ hagree, ?_⟩
    intro outcome hmem
    rcases List.mem_cons.mp hmem with rfl | hmem
    · exact hstale
    · exact hnever outcome hmem

theorem Machine.same_bare {config config' : HeapConfig}
    (h : config.capacity = config'.capacity) :
    (Machine.bare config).Same (Machine.bare config') where
  heap := by
    show ({ capacity := config.capacity, .. } : Store Object) = { capacity := config'.capacity, .. }
    rw [h]
    rfl
  others := rfl
  left := Heap.wellFormed_empty config
  right := Heap.wellFormed_empty config'

/-- Heaps of one capacity start the same machine or fail in the same way, however
    often they move their objects. -/
theorem start_same (env : Environment) (config config' : HeapConfig)
    (h : config.capacity = config'.capacity) :
    (∃ m m', Machine.start env config = .ok m ∧ Machine.start env config' = .ok m' ∧ m.Same m') ∨
      ∃ e, Machine.start env config = .error e ∧ Machine.start env config' = .error e ∧
        e ≠ .fault .stalePointer := by
  obtain ⟨hresult, hsame, hstale⟩ :=
    (clear_defineCoreClasses env).transparent _ _ (Machine.same_bare h)
  unfold Machine.start
  cases hm : defineCoreClasses env (Machine.bare config) with
  | mk result m =>
    cases hm' : defineCoreClasses env (Machine.bare config') with
    | mk result' m' =>
      rw [hm, hm'] at hresult hsame
      rw [hm] at hstale
      dsimp only at hresult hsame hstale
      subst hresult
      -- Starting fails or succeeds on both sides alike.
      cases result with
      | ok u => exact Or.inl ⟨m, m', rfl, rfl, hsame⟩
      | error e => exact Or.inr ⟨e, rfl, rfl, fun he => hstale (by rw [he])⟩

/-- The two machines fail to start in the same way, or the first one goes through the
    session as the second one does without collecting garbage. No place that is out of
    date is ever used. -/
inductive SessionsAgree (env : Environment) (steps : List Step) :
    Except Failure Machine → Except Failure Machine → Prop where
  | failed {e : Failure} (stale : e ≠ .fault .stalePointer) :
      SessionsAgree env steps (.error e) (.error e)
  | started {m m' : Machine}
      (contents : ∀ handle, m.heap.read handle = m'.heap.read handle)
      (outcomes : List.Forall₂ Outcome.Agrees (m.session env steps)
        (m'.session env (steps.map (fun step => (0, step.2)))))
      (stale : ∀ outcome ∈ m.session env steps, outcome.1.2 ≠ .error (.fault .stalePointer)) :
      SessionsAgree env steps (.ok m) (.ok m')

/-- How often the heap moves its objects, and when garbage is collected, is not seen:
    every session goes as it goes on a heap that never moves anything. -/
theorem session_without_relocation (env : Environment)
    (hinvoke : ∀ invoke, env.invoker = some invoke → ∀ c buffer, ByHandle (invoke c buffer))
    (capacity every : Nat) (steps : List Step) :
    SessionsAgree env steps (Machine.start env { capacity, relocateEvery := every })
      (Machine.start env { capacity, relocateEvery := 0 }) := by
  rcases start_same env ⟨capacity, every⟩ ⟨capacity, 0⟩ rfl with
    ⟨m, m', hm, hm', hsame⟩ | ⟨e, he, he', hstale⟩
  · obtain ⟨houtcomes, hstale⟩ := hsame.session hinvoke steps
    rw [hm, hm']
    exact .started hsame.read houtcomes hstale
  · rw [he, he']
    exact .failed hstale

theorem SessionsAgree.of_ok {env : Environment} {steps : List Step}
    {started : Except Failure Machine} (h : SessionsAgree env steps started (.ok m')) :
    ∃ m, started = .ok m ∧ List.Forall₂ Outcome.Agrees (m.session env steps)
      (m'.session env (steps.map (fun step => (0, step.2)))) := by
  cases h with
  | started _ outcomes _ => exact ⟨_, rfl, outcomes⟩

theorem Sample.byHandle :
    ∀ invoke, Sample.env.invoker = some invoke → ∀ c buffer, ByHandle (invoke c buffer) := by
  intro invoke hinvoke c buffer
  cases hinvoke
  exact .sequence (.operation ⟨⟨[]⟩, none⟩ .collectGarbage (fun _ h => by cases h))
    (fun _ => .value (some buffer))

/-- The sample run, with all objects moved at every allocation and twice more before
    every operation. -/
theorem sample_session_without_relocation :
    ∃ m m', Machine.start Sample.env { relocateEvery := 1 } = .ok m ∧
      Machine.start Sample.env {} = .ok m' ∧
      List.Forall₂ Outcome.Agrees (m.session Sample.env (Sample.operations.map ((2, ·))))
        (m'.session Sample.env ((Sample.operations.map ((2, ·))).map
          (fun step => (0, step.2)))) := by
  obtain ⟨m', hstart, _⟩ := Sample.succeeds
  have h := session_without_relocation Sample.env Sample.byHandle 0x100000 1
    (Sample.operations.map ((2, ·)))
  rw [hstart] at h
  obtain ⟨m, hm, houtcomes⟩ := h.of_ok
  exact ⟨m, m', hm, hstart, houtcomes⟩

end Linkage
