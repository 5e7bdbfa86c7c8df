import Linkage.CoreClasses
import Linkage.Describe
import Linkage.Natives

/-! # Runs of a machine

    `Operation` lists what code outside may ask of a machine. A `Run` is any
    sequence of operations, whether they succeed or fail, starting from a machine
    as `Machine.start` makes it or from a later one.

    * Outside code also has the heap in its hands: it stores, changes and gives up
      objects. How far it may go is the `Discipline` of the run.
    * Bootstrap methods are outside code too. An operation that calls one goes on
      from wherever the call leaves the machine, so what an invoker does must be a
      run of the same discipline. -/

namespace Linkage

open Link

/-! ## Operations -/

/-- What code outside may ask of a machine, with the type of the answer. Classes
    are named by their place in the class table. -/
inductive Operation : Type → Type where
  /-- Store an object. -/
  | allocate (object : Object) : Operation Handle
  /-- Look at an object. -/
  | read (handle : Handle) : Operation Object
  /-- Change an object. -/
  | update (handle : Handle) (f : Object → Object) : Operation Unit
  /-- Give up an object. -/
  | release (handle : Handle) : Operation Unit
  /-- Move every object. -/
  | collectGarbage : Operation Unit
  /-- Look at the class table. -/
  | classes : Operation ClassTable
  | defineClass (d : ClassDeclaration) : Operation Class
  | deriveClass (bytes : Text.Bytes) : Operation Class
  | loadClass (name : String) : Operation Class
  | defineArrayClass (component : ClassId) : Operation Class
  | classOfObject (handle : Handle) : Operation (Option Class)
  | intern (text : String) : Operation Handle
  | stringValue (handle : Handle) : Operation String
  | classObjectSignature (handle : Handle) : Operation String
  | typeSignature (type : Handle) : Operation String
  | methodDescriptor (result : Handle) (parameters : List Handle) : Operation String
  | classOfDescriptor (descriptor : String) : Operation Class
  | newMethodType (descriptor : String) : Operation Handle
  /-- Look at what a constant has been resolved to. -/
  | memo (slot : ConstantSlot) : Operation (Option Handle)
  | constantObject (owner : ClassId) (index : UInt16) (resolve : Bool) : Operation (Option Handle)
  | resolveClassConstant (owner : ClassId) (index : UInt16) : Operation Handle
  | resolveStringConstant (owner : ClassId) (index : UInt16) : Operation Handle
  | resolveMethodTypeConstant (owner : ClassId) (index : UInt16) : Operation Handle
  | resolveMethodHandleConstant (owner : ClassId) (index : UInt16) : Operation Handle
  | resolveDynamicConstant (owner : ClassId) (index : UInt16) : Operation Handle
  | copyArguments (owner : ClassId) (request : ArgumentCopy) : Operation Unit
  /-- Look at the member with an identity. -/
  | member (id : Nat) : Operation (Option MemberRef)
  /-- Ask for the identity of a member. -/
  | identify (member : MemberRef) : Operation Nat
  | reflectMember (member : MatchedMember) : Operation Handle
  | initMemberName (mn reflected : Handle) : Operation Unit
  | expandMemberName (mn : Handle) : Operation Unit
  | resolveMemberName (mn : Handle) (caller : Option Handle) (speculative : Bool) :
      Operation (Option Handle)
  | enumerateMembers (request : EnumerationRequest) : Operation Enumeration
  | objectFieldOffset (mn : Handle) : Operation Int64
  | staticFieldOffset (mn : Handle) : Operation Int64
  | staticFieldBase (mn : Handle) : Operation Handle
  | memberVMInfo (mn : Handle) : Operation Handle
  | runNative (native : Native) (args : Arguments) : Operation (Option Value)
  | invokeNative (thread : Thread) (className name descriptor : String) (args : Arguments) :
      Operation (Option Value × Thread)
  | describe (reference : Option Handle) : Operation String

/-- Carry out an operation. -/
def Operation.run (env : Environment) {α : Type} : Operation α → Link α
  | .allocate object => Link.allocate object
  | .read handle => Link.read handle
  | .update handle f => Link.update handle f
  | .release handle => Link.release handle
  | .collectGarbage => Link.collectGarbage
  | .classes => Link.classes
  | .defineClass d => Linkage.defineClass env d
  | .deriveClass bytes => Linkage.deriveClass env bytes
  | .loadClass name => Linkage.loadClass env name
  | .defineArrayClass component => do Linkage.defineArrayClass (← classAt component)
  | .classOfObject handle => Link.classOfObject handle
  | .intern text => Link.intern text
  | .stringValue handle => Link.stringValue handle
  | .classObjectSignature handle => Linkage.classObjectSignature handle
  | .typeSignature type => Linkage.typeSignature type
  | .methodDescriptor result parameters => Linkage.methodDescriptor result parameters
  | .classOfDescriptor descriptor => Linkage.classOfDescriptor env descriptor
  | .newMethodType descriptor => Linkage.newMethodType env descriptor
  | .memo slot => memo? slot
  | .constantObject owner index resolve => do
      Linkage.constantObject env (← classAt owner) index resolve
  | .resolveClassConstant owner index => do
      Linkage.resolveClassConstant env (← classAt owner) index
  | .resolveStringConstant owner index => do
      Linkage.resolveStringConstant (← classAt owner) index
  | .resolveMethodTypeConstant owner index => do
      Linkage.resolveMethodTypeConstant env (← classAt owner) index
  | .resolveMethodHandleConstant owner index => do
      Linkage.resolveMethodHandleConstant env (← classAt owner) index
  | .resolveDynamicConstant owner index => do
      Linkage.resolveDynamicConstant env (← classAt owner) index
  | .copyArguments owner request => do Linkage.copyArguments env (← classAt owner) request
  | .member id => member? id
  | .identify asked => Link.identify asked
  | .reflectMember matched => Linkage.reflectMember env matched
  | .initMemberName mn reflected => Linkage.initMemberName mn reflected
  | .expandMemberName mn => Linkage.expandMemberName env mn
  | .resolveMemberName mn caller speculative => Linkage.resolveMemberName mn caller speculative
  | .enumerateMembers request => Linkage.enumerateMembers env request
  | .objectFieldOffset mn => Linkage.objectFieldOffset mn
  | .staticFieldOffset mn => Linkage.staticFieldOffset mn
  | .staticFieldBase mn => Linkage.staticFieldBase mn
  | .memberVMInfo mn => Linkage.memberVMInfo mn
  | .runNative native args => Linkage.runNative env native args
  | .invokeNative thread className name descriptor args =>
      Linkage.invokeNative env thread className name descriptor args
  | .describe reference => Linkage.describe reference

/-! ## Runs -/

/-- Which operations outside code allows itself on a machine. -/
abbrev Discipline : Type 1 := Machine → {α : Type} → Operation α → Prop

/-- The second machine is reached from the first one by operations that follow the
    rule. Bootstrap methods follow it too, whatever machine they are called on. -/
inductive Run (rule : Discipline) : Machine → Machine → Prop where
  | refl (m : Machine) : Run rule m m
  | step {m₀ m : Machine} {α : Type} (env : Environment) (op : Operation α)
      (invoker : ∀ invoke, env.invoker = some invoke →
        ∀ c buffer m, Run rule m (invoke c buffer m).2)
      (follows : rule m op) (before : Run rule m₀ m) : Run rule m₀ (op.run env m).2

theorem Run.trans {rule : Discipline} {m₁ m₂ m₃ : Machine} (h₁ : Run rule m₁ m₂)
    (h₂ : Run rule m₂ m₃) : Run rule m₁ m₃ := by
  induction h₂ with
  | refl => exact h₁
  | step env op invoker follows _ _ ih => exact .step env op invoker follows (ih h₁)

/-- Carry out operations in turn, whatever they answer. -/
def Machine.perform (env : Environment) (m : Machine) : List ((α : Type) × Operation α) → Machine
  | [] => m
  | op :: ops => Machine.perform env (op.2.run env m).2 ops

/-- Operations that follow the rule on any machine are a run, if the bootstrap methods
    are. -/
theorem Run.perform {rule : Discipline} {env : Environment}
    (invoker : ∀ invoke, env.invoker = some invoke →
      ∀ c buffer m, Run rule m (invoke c buffer m).2)
    {ops : List ((α : Type) × Operation α)} (hops : ∀ op ∈ ops, ∀ m, rule m op.2) (m : Machine) :
    Run rule m (m.perform env ops) := by
  induction ops generalizing m with
  | nil => exact .refl m
  | cons op ops ih =>
    have hfirst : Run rule m (op.2.run env m).2 :=
      .step env op.2 invoker (hops op List.mem_cons_self m) (.refl m)
    exact hfirst.trans (ih (fun op hop => hops op (List.mem_cons_of_mem _ hop)) _)

/-- A machine that some run of the discipline leads to. -/
def Machine.Reachable (rule : Discipline) (m : Machine) : Prop :=
  ∃ env config m₀, Machine.start env config = .ok m₀ ∧ Run rule m₀ m

theorem Machine.Reachable.step {rule : Discipline} {m : Machine} (h : m.Reachable rule) {α : Type}
    (env : Environment) (op : Operation α)
    (invoker : ∀ invoke, env.invoker = some invoke →
      ∀ c buffer m, Run rule m (invoke c buffer m).2)
    (follows : rule m op) : (op.run env m).2.Reachable rule := by
  obtain ⟨env₀, config, m₀, hstart, hrun⟩ := h
  exact ⟨env₀, config, m₀, hstart, .step env op invoker follows hrun⟩

/-! ## A sample run -/

/-- The result is a value that satisfies `P`. -/
def Succeeds {ε α : Type} (result : Except ε α) (P : α → Prop) : Prop :=
  ∃ a, result = .ok a ∧ P a

instance {ε α : Type} (result : Except ε α) (P : α → Prop) [DecidablePred P] :
    Decidable (Succeeds result P) :=
  match result with
  | .ok a => decidable_of_iff (P a)
      ⟨fun h => ⟨a, rfl, h⟩, fun ⟨_, he, h⟩ => by cases he; exact h⟩
  | .error _ => .isFalse (fun ⟨_, he, _⟩ => by cases he)

theorem Succeeds.of_eq_ok {ε α : Type} {result : Except ε α} {P : α → Prop} {a : α}
    (h : Succeeds result P) (ha : result = .ok a) : P a := by
  obtain ⟨a', ha', hP⟩ := h
  rw [ha, Except.ok.injEq] at ha'
  exact ha' ▸ hP

theorem Succeeds.eq_ok {ε α : Type} {result : Except ε α} {a : α} (h : Succeeds result (· = a)) :
    result = .ok a := by
  obtain ⟨_, he, rfl⟩ := h
  exact he

namespace Sample

/-- No class files. Bootstrap methods move all objects and answer with the array of
    their arguments. -/
def env : Environment :=
  ⟨⟨[]⟩, some (fun _ buffer => do
    collectGarbage
    pure (some buffer))⟩

/-- A name for the second method of the class `Square`. -/
def asked : MemberName :=
  { flags := (MemberFlags.make .method .invokeVirtual 0).encode
    name := some ⟨36⟩
    type := some ⟨37⟩
    clazz := some ⟨35⟩ }

/-- The method as a place in its class. -/
def scale : MatchedMember :=
  .method { owner := 35, index := 1 }

/-- Define an interface, one below it and a class with two methods of one name, and
    make two member names. Before that, there are 33 core classes, and their class
    objects have the first handles. -/
def operations : List ((α : Type) × Operation α) :=
  [⟨_, .defineClass (ClassDeclaration.interface "Shape")⟩,
   ⟨_, .defineClass { ClassDeclaration.interface "Polygon" with interfaces := ["Shape"] }⟩,
   ⟨_, .defineClass
      { ClassDeclaration.plain "Square" with
        interfaces := ["Polygon"]
        methods :=
          [{ access := Access.publicFlag, name := "scale", descriptor := "()V" },
           { access := Access.publicFlag, name := "scale", descriptor := "(I)V" }] }⟩,
   ⟨_, .intern "scale"⟩,
   ⟨_, .intern "(I)V"⟩,
   ⟨_, .allocate (.memberName asked)⟩,
   ⟨_, .allocate (.memberName {})⟩]

/-- The machine after the operations. -/
def after (m : Machine) : Machine :=
  m.perform env operations

/-- Then the method is reflected. -/
def reflected (m : Machine) : Except Failure Handle × Machine :=
  reflectMember env scale (after m)

/-- The second member name is filled from the reflection object. -/
def filled (m : Machine) : Machine :=
  (initMemberName ⟨39⟩ ⟨40⟩ (reflected m).2).2

/-- The first one is resolved. -/
def resolved (m : Machine) : Machine :=
  (resolveMemberName ⟨38⟩ none false (after m)).2

/-- What the run comes to, from a machine with the core classes. -/
abbrev Facts (m : Machine) : Prop :=
  (((after m).classes.get? 35).map (fun c => (c.kind, c.itable, c.classObject)) =
      some (.object, [34, 33], ⟨35⟩) ∧
    ((after m).classes.get? 35).map (fun c => (c.fields.size, c.methods.toList.map
      (fun method => (method.name, method.descriptor.render)))) =
      some (0, [("scale", "()V"), ("scale", "(I)V")])) ∧
  (Succeeds (reflected m).1 (· = ⟨40⟩) ∧
    Succeeds ((reflected m).2.heap.read ⟨39⟩) (· = .memberName {})) ∧
  (Succeeds ((filled m).heap.read ⟨36⟩) (· = .string "scale") ∧
    Succeeds ((filled m).heap.read ⟨37⟩) (· = .string "(I)V") ∧
    Succeeds ((filled m).heap.read ⟨38⟩) (· = .memberName asked) ∧
    Succeeds ((filled m).heap.read ⟨39⟩) (fun object => object.memberName?.map
      (fun n => ((MemberFlags.decode n.flags).kind, (MemberFlags.decode n.flags).referenceKind)) =
        some (some .method, some .invokeVirtual))) ∧
  Succeeds ((resolved m).heap.read ⟨38⟩) (fun object =>
    object.memberName?.map MemberName.vmindex = some 1)

/-- A method type without a descriptor. -/
def undescribed : MethodType :=
  { result := ⟨35⟩, parameters := [⟨35⟩], descriptor := none }

/-- A name with this type, for a method that `Square` does not have. -/
def misnamed (m : Machine) : Machine :=
  (after m).perform env
    [⟨_, .allocate (.methodType undescribed)⟩,
     ⟨_, .allocate (.memberName { asked with type := some ⟨40⟩ })⟩]

/-- The speculative resolution of this name. -/
def declined (m : Machine) : Except Failure (Option Handle) × Machine :=
  resolveMemberName ⟨41⟩ none true (misnamed m)

/-- The member is not found, but the type has a descriptor now. -/
abbrev DeclinedFacts (m : Machine) : Prop :=
  Succeeds (declined m).1 (· = none) ∧
  Succeeds ((declined m).2.heap.read ⟨40⟩)
    (· = .methodType { undescribed with descriptor := some ⟨42⟩ }) ∧
  Succeeds ((declined m).2.heap.read ⟨42⟩) (· = .string "(LSquare;)LSquare;")

set_option maxRecDepth 100000 in
set_option synthInstance.maxSize 1000 in
theorem all_succeeds : Succeeds (Machine.start env {}) (fun m => Facts m ∧ DeclinedFacts m) := by
  decide +kernel

theorem succeeds : Succeeds (Machine.start env {}) Facts := by
  obtain ⟨m, hstart, hfacts, -⟩ := all_succeeds
  exact ⟨m, hstart, hfacts⟩

theorem invoker_runs {rule : Discipline} (hgarbage : ∀ m, rule m .collectGarbage) :
    ∀ invoke, env.invoker = some invoke → ∀ c buffer m, Run rule m (invoke c buffer m).2 := by
  intro invoke hinvoke c buffer m
  cases hinvoke
  exact .step ⟨⟨[]⟩, none⟩ .collectGarbage (fun _ h => by cases h) (hgarbage m) (.refl m)

/-- The machine after the operations is reachable in every discipline that allows
    them. -/
theorem reachable_after {rule : Discipline} (hgarbage : ∀ m, rule m .collectGarbage)
    (hops : ∀ op ∈ operations, ∀ m, rule m op.2) :
    ∃ m, Machine.start env {} = .ok m ∧ (after m).Reachable rule ∧ Facts m := by
  obtain ⟨m, hstart, hfacts⟩ := succeeds
  exact ⟨m, hstart, ⟨env, {}, m, hstart, Run.perform (invoker_runs hgarbage) hops m⟩, hfacts⟩

end Sample

end Linkage
