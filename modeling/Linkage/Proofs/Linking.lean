import Linkage.Proofs.Composition
import Linkage.Proofs.Search

/-! # Linking goes through changes

    The actions that add classes and those that fill member names, each with what it
    has made sure of before it writes: they go through changes, and a class that is
    loaded or defined is in the class table afterwards. -/

namespace Linkage

open Link

variable {rule : Discipline} {m : Machine} {env : Environment} {load : String → Link Class}

/-! ## Defining classes -/

/-- The action goes through changes and ends with a class of the class table. -/
def Link.Loads (rule : Discipline) (x : Link Class) : Prop :=
  ∀ m, Goes rule x m (fun c m' => c ∈ m'.classes.classes)

theorem goes_addClass {name : String} {make : ClassId → Handle → Class}
    {named : ∀ id h, (make id h).name = name} (hobject : ∀ id h, (make id h).classObject = h)
    (hmake : m.classes.find? name = none → ∀ h, m.classes.Admits (make m.classes.size h)) :
    Goes rule (addClass name make named) m (fun c m' => c ∈ m'.classes.classes) := by
  unfold addClass
  refine goes_bind_of_ok (findClass_run name m) ?_
  cases hfind : m.classes.find? name with
  | some c => exact goes_pure (ClassTable.mem_of_find? hfind)
  | none =>
    refine goes_bind_of_ok (classes_run m) ?_
    unfold Goes
    rcases allocate_run_cases (.classObject m.classes.size) m with
      ⟨heap, hheap, hrun⟩ | ⟨h, heap, hheap, hrun⟩
    · -- No room for the class object: only the heap has been touched.
      rw [bind_of_error hrun]
      exact ⟨Changes.single (Change.refuse _ hheap), fun c m' h => by simp at h⟩
    · -- The class object is there before the class, so the class can know it.
      have hadmits := hmake hfind h
      have hstored : m.heap.allocate (.classObject m.classes.size) =
          (some (make m.classes.size h).classObject, heap) := by
        rw [hobject]
        exact hheap
      rw [bind_of_ok hrun, appendClass_run]
      refine ⟨Changes.single (Change.define hadmits hstored), ?_⟩
      intro c m' hc
      rw [Prod.mk.injEq, Except.ok.injEq] at hc
      obtain ⟨rfl, rfl⟩ := hc
      simp

theorem goes_loadSuperclass (hload : ∀ name, Loads rule (load name)) (d : ClassDeclaration) :
    Goes rule (loadSuperclass load d) m (fun superclass m' => ∀ s, superclass = some s →
      s ∈ m'.classes.classes ∧ s.isSealed = false) := by
  unfold loadSuperclass
  cases d.superclass with
  | none => exact goes_pure (fun s hs => by cases hs)
  | some name =>
    refine goes_bind (hload name m) ?_
    intro s m' _ hs
    cases hsealed : s.isSealed with
    | true => exact goes_fail _
    | false =>
      refine goes_pure (fun s' hs' => ?_)
      rw [Option.some.injEq] at hs'
      exact hs' ▸ ⟨hs, hsealed⟩

theorem goes_loadInterface (hload : ∀ name, Loads rule (load name)) (d : ClassDeclaration)
    (name : String) :
    Goes rule (loadInterface load d name) m (fun i m' =>
      i ∈ m'.classes.classes ∧ i.isInterface = true) := by
  unfold loadInterface
  refine goes_bind (hload name m) ?_
  intro i m' _ hi
  cases hinterface : i.isInterface with
  | true => exact goes_pure ⟨hi, hinterface⟩
  | false => exact goes_fail _

theorem loads_defineClassWith (hload : ∀ name, Loads rule (load name)) (d : ClassDeclaration) :
    Loads rule (defineClassWith load d) := by
  intro m
  unfold defineClassWith
  refine goes_bind_of_ok (findClass_run d.name m) ?_
  cases hfind : m.classes.find? d.name with
  | some c => exact goes_pure (ClassTable.mem_of_find? hfind)
  | none =>
    refine goes_bind (goes_loadSuperclass hload d) ?_
    intro superclass m₁ _ hsuper
    refine goes_bind (goes_forEach d.interfaces m₁
      (fun name _ m' _ => goes_loadInterface hload d name)
      (fun i m₁ m₂ hc hi => ⟨hc.mem_classes hi.1, hi.2⟩)) ?_
    rintro interfaces m₂ hc₂ ⟨_, hinterfaces⟩
    refine goes_bind_of_ok (classes_run m₂) ?_
    cases hlaid : Layout.ofDeclaration m₂.classes d superclass interfaces with
    | error e => exact goes_bind (goes_fail (Q := fun _ _ => False) e) (fun _ _ _ h => h.elim)
    | ok layout =>
      refine goes_bind_of_ok (a := layout) (by rw [ofExcept_ok, pure_run]) ?_
      refine goes_addClass (fun id h => rfl) (fun hnew h => ?_)
      rw [(Layout.ofDeclaration_eq_ok hlaid).1] at hnew
      refine ClassTable.Admits.declared hnew ?_ hinterfaces hlaid h
      -- Loading the interfaces has not taken the superclass out of the table.
      intro s hs
      exact ⟨hc₂.mem_classes (hsuper s hs).1, (hsuper s hs).2⟩

theorem loads_deriveClassWith (hload : ∀ name, Loads rule (load name)) (bytes : Text.Bytes) :
    Loads rule (deriveClassWith load bytes) := by
  intro m
  unfold deriveClassWith
  split
  · exact loads_defineClassWith hload _ m
  · exact goes_fail _

theorem loads_definePrimitiveClass (p : Primitive) : Loads rule (definePrimitiveClass p) := by
  intro m
  exact goes_addClass (fun id h => rfl) (fun hnew h => ClassTable.Admits.primitive p hnew h)

theorem goes_defineArrayClass {component : Class} (hcomponent : component ∈ m.classes.classes) :
    Goes rule (defineArrayClass component) m (fun c m' => c ∈ m'.classes.classes) := by
  unfold defineArrayClass
  split
  · exact goes_fail _
  · refine goes_bind_of_ok (classes_run m) ?_
    refine goes_bind_of_ok (findClass_run _ m) ?_
    split
    · rename_i c hfind
      exact goes_pure (ClassTable.mem_of_find? hfind)
    · -- The core classes are only looked up, so the name is still free when the class is added.
      refine goes_bind (goes_coreClass ClassDeclaration.objectName) ?_
      rintro object m₁ _ ⟨rfl, hobject⟩
      refine goes_bind (goes_coreClass "java/lang/Cloneable") ?_
      rintro cloneable m₂ _ ⟨rfl, hcloneable⟩
      refine goes_bind (goes_coreClass "java/io/Serializable") ?_
      rintro serializable m₃ _ ⟨rfl, hserializable⟩
      exact goes_addClass (fun id h => rfl) (fun hnew h =>
        ClassTable.Admits.array hnew hcomponent rfl hobject hcloneable hserializable h)

/-! ## Loading -/

theorem loads_classOfTypeWith (hload : ∀ name, Loads rule (load name)) (t : TypeDescriptor) :
    Loads rule (classOfTypeWith load t) := by
  induction t with
  | primitive p => exact hload _
  | object name => exact hload _
  | array component ih =>
    intro m
    unfold classOfTypeWith
    refine goes_bind_of_ok (findClass_run _ m) ?_
    split
    · rename_i c hfind
      exact goes_pure (ClassTable.mem_of_find? hfind)
    · refine goes_bind (ih m) ?_
      intro c m' _ hc
      exact goes_defineArrayClass hc

theorem loads_whileLoading {x : Link Class} (hx : Loads rule x) (name : String) :
    Loads rule (whileLoading name x) := by
  intro m
  have hinside := hx { m with loading := name :: m.loading }
  have hrun : whileLoading name x m =
      ((x { m with loading := name :: m.loading }).1,
        { (x { m with loading := name :: m.loading }).2 with
          loading := (x { m with loading := name :: m.loading }).2.loading.erase name }) := rfl
  refine ⟨?_, ?_⟩
  -- The name is put on the list, the class is loaded, and the name is taken off again.
  · rw [hrun]
    exact ((Changes.single (Change.loading _)).trans hinside.1).trans
      (Changes.single (Change.loading _))
  · intro c m' hc
    rw [hrun, Prod.mk.injEq] at hc
    obtain ⟨hc, rfl⟩ := hc
    exact hinside.2 c (x { m with loading := name :: m.loading }).2 (Prod.ext hc rfl)

theorem loads_loadFile (hload : ∀ name, Loads rule (load name)) (name : String) :
    Loads rule (loadFile env load name) := by
  intro m
  unfold loadFile
  refine goes_bind (goes_orFail (Q := fun _ _ => True) (fun _ _ => trivial)) ?_
  intro bytes m₁ _ _
  refine goes_bind_of_ok (view_run Machine.loading m₁) ?_
  split
  · exact goes_fail _
  · refine goes_bind (loads_whileLoading (loads_deriveClassWith hload bytes) name m₁) ?_
    intro c m₂ _ hc
    split
    · exact goes_pure hc
    · exact goes_fail _

theorem loads_loadClassWithin (env : Environment) (bound : Nat) (name : String) :
    Loads rule (loadClassWithin env bound name) := by
  induction bound generalizing name with
  | zero => exact fun m => goes_failWith _
  | succ bound ih =>
    intro m
    unfold loadClassWithin
    refine goes_bind_of_ok (findClass_run name m) ?_
    split
    · rename_i c hfind
      exact goes_pure (ClassTable.mem_of_find? hfind)
    · split
      · -- The name of an array class: its component comes first.
        split
        · refine goes_bind (loads_classOfTypeWith ih _ m) ?_
          intro component m' _ hcomponent
          exact goes_defineArrayClass hcomponent
        · exact goes_fail _
      · exact loads_loadFile ih name m

theorem loads_loadClass (env : Environment) (name : String) : Loads rule (loadClass env name) :=
  loads_loadClassWithin env env.loadBound name

theorem loads_defineClass (env : Environment) (d : ClassDeclaration) :
    Loads rule (defineClass env d) :=
  loads_defineClassWith (loads_loadClass env) d

theorem loads_deriveClass (env : Environment) (bytes : Text.Bytes) :
    Loads rule (deriveClass env bytes) :=
  loads_deriveClassWith (loads_loadClass env) bytes

/-! ## Filling member names -/

theorem goes_declaringClass (handle : Handle) :
    Goes rule (declaringClass handle) m (fun c m' => m' = m ∧ m.Declares handle c.id c) := by
  unfold declaringClass
  refine goes_bind (goes_classOfObject handle) ?_
  rintro result m' _ ⟨rfl, hresult⟩
  refine goes_orFail (fun c hc => ⟨rfl, ?_⟩)
  obtain ⟨id, hread, hget⟩ := hresult c hc
  exact Machine.Declares.classObject hread hget

/-- Which class declares a member does not hang on the identities. -/
theorem Machine.Declares.congr {m' : Machine} {clazz : Handle} {owner : ClassId} {c : Class}
    (h : m.Declares clazz owner c) (hheap : m'.heap = m.heap) (hclasses : m'.classes = m.classes) :
    m'.Declares clazz owner c := by
  cases h with
  | place found => exact .place (hclasses ▸ found)
  | classObject read found => exact .classObject (hheap ▸ read) (hclasses ▸ found)

theorem goes_initFromField (mn : Handle) (r : ReflectedField) :
    Goes rule (initFromField mn r) m (fun _ _ => True) := by
  unfold initFromField
  refine goes_bind (goes_declaringClass r.declaringClass) ?_
  rintro c m₁ _ ⟨rfl, hdeclares⟩
  refine goes_bind (goes_orFail (Q := fun f m' => m' = m₁ ∧ c.field? r.slot = some f)
    (fun f hf => ⟨rfl, hf⟩)) ?_
  rintro f m₂ _ ⟨rfl, hf⟩
  refine goes_bind (goes_identify _) ?_
  rintro id m₃ _ ⟨hid, hheap, hclasses⟩
  refine goes_updateMemberName mn _ (fun old _ => .settled ?_)
  -- The reference kind is chosen by the field itself, so it fits.
  refine .field (hdeclares.congr hheap hclasses) hf hid rfl ?_ ?_ rfl rfl
  · cases f.isStatic <;> rfl
  · cases f.isStatic <;> rfl

/-- A method is named after its reflection object. -/
theorem goes_initFromExecutable (mn : Handle) (r : ReflectedMethod) (kind : MemberKind)
    (referenceKind : Method → ReferenceKind) (name : Option Handle)
    (hkind : ∀ c method, Method.NamedAs method c kind (referenceKind method)) :
    Goes rule (do
      let c ← declaringClass r.declaringClass
      let method ← orFail (c.method? r.slot) .methodSlotOutOfRange
      let target : MethodRef := { owner := c.id, index := r.slot }
      let vmindex ← identify (.method target)
      updateMemberName mn fun _ =>
        { flags := (method.memberFlags kind (referenceKind method)).encode
          name
          type := some r.signature
          clazz := some r.declaringClass
          vmindex
          vmtarget := target.target }) m (fun _ _ => True) := by
  refine goes_bind (goes_declaringClass r.declaringClass) ?_
  rintro c m₁ _ ⟨rfl, hdeclares⟩
  refine goes_bind (goes_orFail (Q := fun method m' => m' = m₁ ∧ c.method? r.slot = some method)
    (fun method hmethod => ⟨rfl, hmethod⟩)) ?_
  rintro method m₂ _ ⟨rfl, hmethod⟩
  refine goes_bind (goes_identify _) ?_
  -- Only the registry has changed, so the class object still declares the method.
  rintro id m₃ _ ⟨hid, hheap, hclasses⟩
  refine goes_updateMemberName mn _ (fun old _ => .settled ?_)
  exact .method (hdeclares.congr hheap hclasses) hmethod hid rfl (hkind c method) rfl rfl

theorem changing_initMemberName (mn reflected : Handle) :
    Changing rule (initMemberName mn reflected) := by
  intro m
  suffices h : Goes rule (initMemberName mn reflected) m (fun _ _ => True) from h.1
  unfold initMemberName
  refine goes_bind (goes_read reflected) ?_
  rintro object m₁ _ ⟨rfl, _⟩
  cases object with
  | field r => exact goes_initFromField mn r
  | method r =>
    exact goes_initFromExecutable mn r .method Method.referenceKind r.name (fun _ _ => .method)
  | constructor r =>
    exact goes_initFromExecutable mn r .constructor (fun _ => .invokeSpecial) none
      (fun _ _ => .constructor)
  | _ => exact goes_fail _

/-! ## Expanding member names -/

theorem changing_orMake (present : Option Handle) {make : Link Handle}
    (hmake : Changing rule make) : Changing rule (orMake present make) := by
  cases present with
  | some handle => exact fun m => Changes.refl m
  | none => exact hmake

/-- The class of a type goes through changes like every load. -/
theorem changing_classOfType (env : Environment) (t : TypeDescriptor) :
    Changing rule (classOfType env t) :=
  changing_of_goes (loads_loadClass env t.className)

theorem changing_intern (text : String) : Changing rule (intern text) :=
  fun _ => Changes.single (Change.intern text)

theorem goes_expandField (mn : Handle) (n : MemberName) :
    Goes rule (expandField env mn n) m (fun _ _ => True) := by
  unfold expandField
  split
  · exact goes_fail _
  · refine goes_bind_of_ok (member?_run n.vmindex m) ?_
    split
    · rename_i r _
      refine goes_bind (goes_classAt r.owner) ?_
      intro c m₁ _ _
      refine goes_bind (goes_orFail (Q := fun _ _ => True) (fun _ _ => trivial)) ?_
      intro f m₂ _ _
      refine goes_bind ((changing_orMake n.name (changing_intern f.name)).goes m₂) ?_
      intro name m₃ _ _
      -- The type of a field stands for a class, which may have to be loaded first.
      have hmake : Changing rule (do pure (← classOfType env f.type).classObject) :=
        changing_bind (changing_classOfType env f.type) (fun c m => Changes.refl m)
      refine goes_bind ((changing_orMake n.type hmake).goes m₃) ?_
      intro type m₄ _ _
      exact goes_updateMemberName mn _ (fun old _ => .expanded (Or.inl rfl))
    · exact goes_fail _

theorem goes_expandMethod (mn : Handle) (n : MemberName) :
    Goes rule (expandMethod mn n) m (fun _ _ => True) := by
  unfold expandMethod
  split
  · exact goes_fail _
  · refine goes_bind_of_ok (member?_run n.vmindex m) ?_
    split
    · rename_i r _
      refine goes_bind (goes_classAt r.owner) ?_
      intro c m₁ _ _
      refine goes_bind (goes_orFail (Q := fun _ _ => True) (fun _ _ => trivial)) ?_
      intro method m₂ _ _
      refine goes_bind ((changing_orMake n.name (changing_intern method.name)).goes m₂) ?_
      intro name m₃ _ _
      refine goes_bind
        ((changing_orMake n.type (changing_intern method.descriptor.render)).goes m₃) ?_
      intro type m₄ _ _
      -- A class is filled in only where there is none.
      refine goes_updateMemberName mn _ (fun old _ => .expanded ?_)
      cases hclazz : old.clazz with
      | none => exact Or.inr rfl
      | some clazz => exact Or.inl rfl
    · exact goes_fail _

theorem changing_expandMemberName (env : Environment) (mn : Handle) :
    Changing rule (expandMemberName env mn) := by
  intro m
  suffices h : Goes rule (expandMemberName env mn) m (fun _ _ => True) from h.1
  unfold expandMemberName
  refine goes_bind (goes_readMemberName mn) ?_
  intro n m₁ _ _
  split
  · exact goes_expandField mn n
  · exact goes_expandMethod mn n
  · exact goes_expandMethod mn n
  · exact goes_fail _

/-! ## Resolving member names -/

/-- A member is committed once what is written is known to be its name. -/
theorem goes_commitMember (mn : Handle) (flags : MemberFlags) (clazz : Handle)
    (member : MemberRef) (vmtarget : Nat)
    (hsettles : ∀ (m' : Machine) (n : MemberName), m'.heap = m.heap → m'.classes = m.classes →
      m'.members.get? n.vmindex = some member → n.clazz = some clazz →
      n.flags = flags.encode → n.vmtarget = vmtarget → m'.Settles n) :
    Goes rule (commitMember mn flags clazz member vmtarget) m (fun _ _ => True) := by
  unfold commitMember
  refine goes_bind (goes_identify member) ?_
  rintro id m₁ _ ⟨hid, hheap, hclasses⟩
  exact goes_updateMemberName mn _ (fun old _ =>
    .settled (hsettles m₁ _ hheap hclasses hid rfl rfl rfl))

theorem ClassTable.method?_of_get? {t : ClassTable} {r : MethodRef} {c : Class}
    (h : t.get? r.owner = some c) : t.method? r = c.method? r.index := by
  simp [ClassTable.method?, h]

theorem ClassTable.field?_of_get? {t : ClassTable} {r : FieldRef} {c : Class}
    (h : t.get? r.owner = some c) : t.field? r = c.field? r.index := by
  simp [ClassTable.field?, h]

/-- A reference that finds a method names it by its own kinds, except that only an
    interface declares a method of an interface call. -/
theorem Method.namedAs_toDeclaring {method : Method} {c : Class} {kind : MemberKind}
    {referenceKind : ReferenceKind} (hkind : kind = .method ∨ kind = .constructor)
    (hstatic : referenceKind = .invokeStatic ↔ method.isStatic = true) :
    method.NamedAs c kind (referenceKind.toDeclaring c) := by
  unfold ReferenceKind.toDeclaring
  split
  · rename_i h
    refine .reference hkind ?_ (fun hi => by cases hi)
    rw [← hstatic, h.1]
    simp
  · rename_i h
    refine .reference hkind hstatic (fun hi => ?_)
    simpa [hi] using h

theorem goes_resolveMethod (mn : Handle) (c : Class) {kind : MemberKind}
    (hkind : kind = .method ∨ kind = .constructor) (name signature : String)
    (referenceKind : ReferenceKind) (caller : Option Class) (speculative : Bool) :
    Goes rule (resolveMethod mn c kind name signature referenceKind caller speculative) m
      (fun _ _ => True) := by
  unfold resolveMethod
  split
  · exact goes_pure trivial
  · refine goes_bind_of_ok (classes_run m) ?_
    refine goes_bind (goes_ofExcept (Q := fun found m' => m' = m ∧
      m.classes.linkMethod c name signature referenceKind caller speculative = .ok found)
      (fun found hfound => ⟨rfl, hfound⟩)) ?_
    rintro found m₁ _ ⟨rfl, hlink⟩
    cases found with
    | none => exact goes_pure trivial
    | some r =>
      obtain ⟨method, hmethod, hstatic⟩ := ClassTable.linkMethod_found hlink
      refine goes_bind (goes_classAt r.owner) ?_
      rintro declaring m₂ _ ⟨rfl, hget⟩
      rw [ClassTable.method?_of_get? hget] at hmethod
      -- The search has found a method, so the place is not out of range.
      refine goes_bind_of_ok (a := method) (by rw [hmethod, orFail_some, pure_run]) ?_
      refine goes_bind (goes_commitMember mn _ _ _ _ ?_) (fun _ _ _ _ => goes_pure trivial)
      intro m' n _ hclasses hid hclazz hflags htarget
      exact .method (.place (hclasses ▸ hget)) hmethod hid hclazz
        (Method.namedAs_toDeclaring hkind hstatic) hflags htarget

theorem goes_resolveField (mn : Handle) (c : Class) (name signature : String)
    (referenceKind : ReferenceKind) (caller : Option Class) (speculative : Bool) :
    Goes rule (resolveField mn c name signature referenceKind caller speculative) m
      (fun _ _ => True) := by
  unfold resolveField
  refine goes_bind_of_ok (classes_run m) ?_
  refine goes_bind (goes_ofExcept (Q := fun found m' => m' = m ∧
    m.classes.linkField c name signature referenceKind caller speculative = .ok found)
    (fun found hfound => ⟨rfl, hfound⟩)) ?_
  rintro found m₁ _ ⟨rfl, hlink⟩
  cases found with
  | none => exact goes_pure trivial
  | some result =>
    obtain ⟨r, kind⟩ := result
    obtain ⟨f, hf, hkind⟩ := ClassTable.linkField_found hlink
    -- The search has seen the field in this table, so looking it up again does not fail.
    refine goes_bind (goes_classAt r.owner) ?_
    rintro declaring m₂ _ ⟨rfl, hget⟩
    rw [ClassTable.field?_of_get? hget] at hf
    refine goes_bind_of_ok (a := f) (by rw [hf, orFail_some, pure_run]) ?_
    refine goes_bind (goes_commitMember mn _ _ _ _ ?_) (fun _ _ _ _ => goes_pure trivial)
    intro m' n _ hclasses hid hclazz hflags htarget
    subst hkind
    exact .field (.place (hclasses ▸ hget)) hf hid hclazz (ReferenceKind.forField_isField _ _)
      (ReferenceKind.forField_isStaticField _ _) hflags htarget

/-- An action that only looks at the machine and stores new objects. -/
theorem changing_of_madeOf {α : Type} {x : Link α} (hx : MadeOf (fun _ _ => False) x) :
    Changing rule x :=
  hx.changing (fun h => h.elim)

theorem madeOf_searchedClass {B : (α : Type) → Link α → Prop} (clazz : Handle) :
    MadeOf B (searchedClass clazz) := by
  unfold searchedClass
  grind

theorem madeOf_callerClass {B : (α : Type) → Link α → Prop} (caller : Option Handle) :
    MadeOf B (callerClass caller) := by
  unfold callerClass
  grind

theorem goes_resolveMember (mn : Handle) (caller : Option Handle) (speculative : Bool) :
    Goes rule (resolveMember mn caller speculative) m (fun _ _ => True) := by
  unfold resolveMember
  refine goes_bind (goes_readMemberName mn) ?_
  intro n m₁ _ _
  split
  · exact goes_pure trivial
  · refine goes_bind (goes_orFail (Q := fun _ _ => True) (fun _ _ => trivial)) ?_
    intro referenceKind m₂ _ _
    split
    · rename_i name type clazz _ _ _
      -- The parts of the question are read; nothing about their values is needed below.
      refine goes_bind ((changing_of_madeOf (madeOf_searchedClass clazz)).goes m₂) ?_
      intro searched m₃ _ _
      cases searched with
      | none => exact goes_pure trivial
      | some c =>
        refine goes_bind ((changing_of_madeOf (madeOf_callerClass caller)).goes m₃) ?_
        intro callerClass m₄ _ _
        refine goes_bind ((changing_of_madeOf (madeOf_stringValue name)).goes m₄) ?_
        intro name m₅ _ _
        refine goes_bind ((changing_of_madeOf (madeOf_typeSignature type)).goes m₅) ?_
        intro signature m₆ _ _
        split
        · exact goes_resolveMethod mn c (Or.inl rfl) _ _ _ _ _
        · exact goes_resolveMethod mn c (Or.inr rfl) _ _ _ _ _
        · exact goes_resolveField mn c _ _ _ _ _
        · exact goes_pure trivial
    · exact goes_pure trivial

theorem changing_resolveMemberName (mn : Handle) (caller : Option Handle) (speculative : Bool) :
    Changing rule (resolveMemberName mn caller speculative) := by
  intro m
  suffices h : Goes rule (resolveMemberName mn caller speculative) m (fun _ _ => True) from h.1
  unfold resolveMemberName
  -- A failed attempt leaves its changes behind.
  have hattempt : Changing rule (attempt (resolveMember mn caller speculative)) := by
    intro m
    rw [attempt_machine]
    exact (goes_resolveMember mn caller speculative).1
  refine goes_bind (hattempt.goes m) ?_
  intro outcome m₁ _ _
  split
  · exact goes_pure trivial
  · split
    · exact goes_pure trivial
    · exact goes_bind (goes_readMemberName mn) (fun _ _ _ _ => goes_fail _)
  · split
    · exact goes_pure trivial
    · exact goes_fail _

/-! ## Call sites -/

theorem changing_setCallSiteTarget (callSite target : Handle) :
    Changing rule (setCallSiteTarget callSite target) := by
  intro m
  suffices h : Goes rule (setCallSiteTarget callSite target) m (fun _ _ => True) from h.1
  unfold setCallSiteTarget
  refine goes_bind (goes_read callSite) ?_
  rintro object m₁ _ ⟨rfl, hread⟩
  cases object with
  | callSite old => exact goes_of_change (Change.setTarget (some target) hread) (fun _ _ _ => trivial)
  | _ => exact goes_fail _

end Linkage
