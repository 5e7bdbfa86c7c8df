import Linkage.Proofs.ClassTables
import Linkage.Proofs.Declared

/-! # Two ways to a member

    A member name is filled from a reflection object, which knows the place of its
    member, or by resolution, which searches for the member by class, name and
    descriptor. Each way ends with an identity from the registry and one write to the
    member name (`settle_run`), and on a member that a class declares itself they end
    with the same flags, class, identity and target (`resolve_agrees_with_init`). -/

namespace Linkage

open Link

variable {m m' : Machine} {c : Class} {mn : Handle} {n : MemberName}

/-! ## Declared members -/

/-- The class declares the member under this name and with this descriptor, and no
    member of its kind before it with the same name and descriptor. A method called
    `<init>` is taken as a constructor. Class initializers and static constructors are
    left out. -/
inductive Class.DeclaresFirst (c : Class) : MatchedMember → String → String → Prop where
  | field {i : Nat} {f : Field} (first : c.FirstField i f) :
      c.DeclaresFirst (.field { owner := c.id, index := UInt16.ofNat i }) f.name f.type.render
  | method {i : Nat} {method : Method} (first : c.FirstMethod i method)
      (notConstructor : method.name ≠ Method.constructorName)
      (notInitializer : method.name ≠ Method.classInitializerName) :
      c.DeclaresFirst (.method { owner := c.id, index := UInt16.ofNat i })
        method.name method.descriptor.render
  | constructor {i : Nat} {method : Method} (first : c.FirstMethod i method)
      (isConstructor : method.name = Method.constructorName)
      (notStatic : method.isStatic = false) :
      c.DeclaresFirst (.constructor { owner := c.id, index := UInt16.ofNat i })
        method.name method.descriptor.render

/-- The member name `n` asks for a member of the same kinds as `filled`, with the given
    name, descriptor and class, and is not resolved. -/
structure Machine.AsksFor (m : Machine) (n filled : MemberName) (name descriptor : String)
    (clazz : Handle) : Prop where
  kind : (MemberFlags.decode n.flags).kind = (MemberFlags.decode filled.flags).kind
  referenceKind : (MemberFlags.decode n.flags).referenceKind =
    (MemberFlags.decode filled.flags).referenceKind
  name : ∃ handle, n.name = some handle ∧ m.heap.read handle = .ok (.string name)
  type : ∃ handle, n.type = some handle ∧ m.heap.read handle = .ok (.string descriptor)
  clazz : n.clazz = some clazz
  unresolved : n.vmindex = 0 ∧ n.vmtarget = 0

/-! ## Filling a member name -/

/-- Flags, class, identity and target of a member name. -/
structure MemberName.Holds (n : MemberName) (m : Machine) (flags : MemberFlags) (clazz : Handle)
    (member : MemberRef) (target : Nat) : Prop where
  flags_eq : n.flags = flags.encode
  clazz_eq : n.clazz = some clazz
  identity : m.members.identify member = (n.vmindex, m.members)
  target_eq : n.vmtarget = target

theorem updateMemberName_of_read (hw : m.heap.WellFormed)
    (hread : m.heap.read mn = .ok (.memberName n)) (f : MemberName → MemberName) :
    ∃ heap, updateMemberName mn f m = (.ok (), { m with heap }) ∧
      heap.read mn = .ok (.memberName (f n)) := by
  obtain ⟨heap, hupdate, hafter, -⟩ := update_of_read hw hread (fun _ => Object.memberName (f n))
  refine ⟨heap, ?_, hafter⟩
  unfold updateMemberName
  rw [bind_of_ok (readMemberName_of_read hread)]
  exact hupdate

/-- Taking the identity of a member and writing it to a member name with the rest. -/
theorem settle_eq (hw : m.heap.WellFormed) (hread : m.heap.read mn = .ok (.memberName n))
    (f : Nat → MemberName → MemberName) (member : MemberRef) :
    ∃ m' id, (identify member >>= fun id => updateMemberName mn (f id)) m = (.ok (), m') ∧
      m'.heap.read mn = .ok (.memberName (f id n)) ∧
      m'.members.identify member = (id, m'.members) ∧ m'.classes = m.classes := by
  rw [bind_of_ok (identify_run member m)]
  obtain ⟨heap, hrun, hafter⟩ := updateMemberName_of_read (m := { m with
    members := (m.members.identify member).2 }) hw hread (f (m.members.identify member).1)
  exact ⟨_, _, hrun, hafter, MemberRegistry.identify_identify m.members member, rfl⟩

theorem settle_run (hw : m.heap.WellFormed) (hread : m.heap.read mn = .ok (.memberName n))
    {f : Nat → MemberName → MemberName} {flags : MemberFlags} {clazz : Handle} {target : Nat}
    (hf : ∀ id, (f id n).flags = flags.encode ∧ (f id n).clazz = some clazz ∧
      (f id n).vmindex = id ∧ (f id n).vmtarget = target) (member : MemberRef) :
    ∃ m' n', (identify member >>= fun id => updateMemberName mn (f id)) m = (.ok (), m') ∧
      m'.heap.read mn = .ok (.memberName n') ∧ n'.Holds m' flags clazz member target := by
  obtain ⟨m', id, hrun, hafter, hid, _⟩ := settle_eq hw hread f member
  obtain ⟨hflags, hclazz, hindex, htarget⟩ := hf id
  refine ⟨m', _, hrun, hafter, hflags, hclazz, ?_, htarget⟩
  rw [hindex]
  exact hid

/-! ## Reflection objects -/

/-- The object describes the member, with `clazz` as the class object of its class. -/
def Object.Reflects (object : Object) (clazz : Handle) : MatchedMember → Prop
  | .field r => ∃ reflected : ReflectedField, object = .field reflected ∧
      reflected.declaringClass = clazz ∧ reflected.slot = r.index
  | .method r => ∃ reflected : ReflectedMethod, object = .method reflected ∧
      reflected.declaringClass = clazz ∧ reflected.slot = r.index
  | .constructor r => ∃ reflected : ReflectedMethod, object = .constructor reflected ∧
      reflected.declaringClass = clazz ∧ reflected.slot = r.index

/-- The class that declares a member. -/
def MatchedMember.owner : MatchedMember → ClassId
  | .field r => r.owner
  | .method r => r.owner
  | .constructor r => r.owner

variable {rule : Discipline}

/-- What was stored is read. -/
theorem goes_allocate (hw : m.heap.WellFormed) {object : Object} (hplain : object.Plain) :
    Goes rule (allocate object) m (fun handle m' => m'.heap.read handle = .ok object) := by
  refine goes_of_change (Change.allocate object (Or.inl hplain)) ?_
  intro handle m' hrun
  have hw' := Heap.wellFormed_allocate hw object
  unfold allocate at hrun
  split at hrun
  · rename_i hheap
    cases hrun
    rw [hheap] at hw'
    refine (Heap.read_eq_ok_iff hw' _ _).mpr ?_
    rw [(Heap.allocate_eq_some hw hheap).2, Function.update_self]
  · cases hrun

/-- Making a reflection object goes through changes, and the object describes the
    member. -/
theorem goes_reflectMember (env : Environment) (hw : m.heap.WellFormed) {member : MatchedMember}
    (hget : m.classes.get? member.owner = some c) :
    Goes rule (reflectMember env member) m (fun r m' => ∃ object,
      m'.heap.read r = .ok object ∧ object.Reflects c.classObject member) := by
  -- Whatever was made before it, the object that is stored last is the one that is read.
  have hstore : ∀ {m₁ : Machine} {object : Object}, Changes rule m m₁ → object.Plain →
      object.Reflects c.classObject member →
      Goes rule (allocate object) m₁ (fun r m' => ∃ object,
        m'.heap.read r = .ok object ∧ object.Reflects c.classObject member) := by
    intro m₁ object hchanges hplain hreflects
    have hw₁ := hchanges.keeps (P := fun m => m.heap.WellFormed) Change.wellFormed hw
    exact (goes_allocate hw₁ hplain).mono (fun r m' _ hread => ⟨object, hread, hreflects⟩)
  cases member with
  | field r =>
    show Goes rule (newReflectedField env r) m _
    unfold newReflectedField
    refine goes_bind_of_ok (classAt_of_get? hget) ?_
    refine goes_bind (goes_orFail (Q := fun _ m' => m' = m) (fun _ _ => rfl)) ?_
    rintro f _ _ rfl
    refine goes_bind (loads_loadClass env f.type.className _) (fun type m₁ hc₁ _ => ?_)
    refine goes_bind ((changing_intern f.name).goes m₁) (fun name m₂ hc₂ _ => ?_)
    exact hstore (hc₁.trans hc₂) trivial ⟨_, rfl, rfl, rfl⟩
  | method r =>
    show Goes rule (newReflectedMethod r) m _
    unfold newReflectedMethod
    refine goes_bind_of_ok (classAt_of_get? hget) ?_
    refine goes_bind (goes_orFail (Q := fun _ m' => m' = m) (fun _ _ => rfl)) ?_
    rintro method _ _ rfl
    refine goes_bind ((changing_intern method.name).goes _) (fun name m₁ hc₁ _ => ?_)
    refine goes_bind ((changing_intern method.descriptor.render).goes m₁)
      (fun signature m₂ hc₂ _ => ?_)
    exact hstore (hc₁.trans hc₂) trivial ⟨_, rfl, rfl, rfl⟩
  | constructor r =>
    show Goes rule (newReflectedConstructor r) m _
    unfold newReflectedConstructor
    refine goes_bind_of_ok (classAt_of_get? hget) ?_
    refine goes_bind (goes_orFail (Q := fun _ m' => m' = m) (fun _ _ => rfl)) ?_
    rintro method _ _ rfl
    refine goes_bind ((changing_intern method.descriptor.render).goes _)
      (fun signature m₁ hc₁ _ => ?_)
    exact hstore hc₁ trivial ⟨_, rfl, rfl, rfl⟩

/-! ## Filling from a reflection object -/

section Initialization

variable {r : Handle}

theorem declaringClass_run (hm : m.Steady) (hget : m.classes.get? c.id = some c) :
    declaringClass c.classObject m = (.ok c, m) := by
  unfold declaringClass
  rw [bind_of_ok (classOfObject_of_read (hm.read_classObject hget) hget)]
  rfl

theorem initMemberName_field_eq {reflected : ReflectedField} {f : Field} (hm : m.Steady)
    (hget : m.classes.get? c.id = some c) (hr : m.heap.read r = .ok (.field reflected))
    (hclazz : reflected.declaringClass = c.classObject)
    (found : c.field? reflected.slot = some f) :
    initMemberName mn r m =
      (identify (.field { owner := c.id, index := reflected.slot }) >>= fun vmindex =>
        updateMemberName mn fun _ =>
          { flags := (f.memberFlags (if f.isStatic then .getStatic else .getField)).encode
            name := some reflected.name
            type := some reflected.type
            clazz := some c.classObject
            vmindex
            vmtarget := f.target }) m := by
  unfold initMemberName
  rw [bind_of_ok (read_of_ok hr)]
  show initFromField mn reflected m = _
  unfold initFromField
  rw [hclazz, bind_of_ok (declaringClass_run hm hget), found, orFail_some,
    bind_of_ok (pure_run f m)]

theorem initMemberName_field {reflected : ReflectedField} {f : Field} (hm : m.Steady)
    (hget : m.classes.get? c.id = some c) (hr : m.heap.read r = .ok (.field reflected))
    (hclazz : reflected.declaringClass = c.classObject) (found : c.field? reflected.slot = some f)
    (hmn : m.heap.read mn = .ok (.memberName n)) :
    ∃ m' n', initMemberName mn r m = (.ok (), m') ∧ m'.heap.read mn = .ok (.memberName n') ∧
      n'.Holds m' (f.memberFlags (if f.isStatic then .getStatic else .getField)) c.classObject
        (.field { owner := c.id, index := reflected.slot }) f.target := by
  rw [initMemberName_field_eq hm hget hr hclazz found]
  refine settle_run hm.sound.heap hmn ?_ _
  exact fun _ => ⟨rfl, rfl, rfl, rfl⟩

theorem initMemberName_method_eq {reflected : ReflectedMethod} {method : Method} (hm : m.Steady)
    (hget : m.classes.get? c.id = some c) (hr : m.heap.read r = .ok (.method reflected))
    (hclazz : reflected.declaringClass = c.classObject)
    (found : c.method? reflected.slot = some method) :
    initMemberName mn r m =
      (identify (.method { owner := c.id, index := reflected.slot }) >>= fun vmindex =>
        updateMemberName mn fun _ =>
          { flags := (method.memberFlags .method method.referenceKind).encode
            name := reflected.name
            type := some reflected.signature
            clazz := some c.classObject
            vmindex
            vmtarget := MethodRef.target { owner := c.id, index := reflected.slot } }) m := by
  unfold initMemberName
  rw [bind_of_ok (read_of_ok hr)]
  show initFromMethod mn reflected m = _
  unfold initFromMethod
  rw [hclazz, bind_of_ok (declaringClass_run hm hget), found, orFail_some,
    bind_of_ok (pure_run method m)]

theorem initMemberName_method {reflected : ReflectedMethod} {method : Method} (hm : m.Steady)
    (hget : m.classes.get? c.id = some c) (hr : m.heap.read r = .ok (.method reflected))
    (hclazz : reflected.declaringClass = c.classObject)
    (found : c.method? reflected.slot = some method)
    (hmn : m.heap.read mn = .ok (.memberName n)) :
    ∃ m' n', initMemberName mn r m = (.ok (), m') ∧ m'.heap.read mn = .ok (.memberName n') ∧
      n'.Holds m' (method.memberFlags .method method.referenceKind) c.classObject
        (.method { owner := c.id, index := reflected.slot })
        (MethodRef.target { owner := c.id, index := reflected.slot }) := by
  rw [initMemberName_method_eq hm hget hr hclazz found]
  refine settle_run hm.sound.heap hmn ?_ _
  exact fun _ => ⟨rfl, rfl, rfl, rfl⟩

theorem initMemberName_constructor {reflected : ReflectedMethod} {method : Method} (hm : m.Steady)
    (hget : m.classes.get? c.id = some c) (hr : m.heap.read r = .ok (.constructor reflected))
    (hclazz : reflected.declaringClass = c.classObject)
    (found : c.method? reflected.slot = some method)
    (hmn : m.heap.read mn = .ok (.memberName n)) :
    ∃ m' n', initMemberName mn r m = (.ok (), m') ∧ m'.heap.read mn = .ok (.memberName n') ∧
      n'.Holds m' (method.memberFlags .constructor .invokeSpecial) c.classObject
        (.method { owner := c.id, index := reflected.slot })
        (MethodRef.target { owner := c.id, index := reflected.slot }) := by
  unfold initMemberName
  rw [bind_of_ok (read_of_ok hr)]
  show ∃ m' n', initFromConstructor mn reflected m = _ ∧ _
  unfold initFromConstructor
  rw [hclazz, bind_of_ok (declaringClass_run hm hget), found, orFail_some,
    bind_of_ok (pure_run method m)]
  refine settle_run hm.sound.heap hmn ?_ _
  exact fun _ => ⟨rfl, rfl, rfl, rfl⟩

end Initialization

/-! ## Resolution -/

section Resolution

variable {name descriptor : String} {filled : MemberName}

theorem searchedClass_run (hm : m.Steady) (hget : m.classes.get? c.id = some c)
    (hkind : c.kind = .object) : searchedClass c.classObject m = (.ok (some c), m) := by
  unfold searchedClass
  rw [bind_of_ok (classOfObject_of_read (hm.read_classObject hget) hget)]
  simp [Class.isPrimitive, Class.isArray, hkind]

theorem typeSignature_of_read {handle : Handle} {text : String}
    (hread : m.heap.read handle = .ok (.string text)) :
    typeSignature handle m = (.ok text, m) := by
  unfold typeSignature
  rw [bind_of_ok (read_of_ok hread)]
  rfl

/-- A member name that asks for a member is resolved as its flags say. -/
theorem resolveMember_run (hm : m.Steady) (hget : m.classes.get? c.id = some c)
    (hkind : c.kind = .object) (hmn : m.heap.read mn = .ok (.memberName n))
    (hasks : m.AsksFor n filled name descriptor c.classObject) {referenceKind : ReferenceKind}
    (hreference : (MemberFlags.decode filled.flags).referenceKind = some referenceKind)
    (speculative : Bool) :
    resolveMember mn none speculative m =
      (match (MemberFlags.decode filled.flags).kind with
      | some .method =>
          resolveMethod mn c .method name descriptor referenceKind none speculative
      | some .constructor =>
          resolveMethod mn c .constructor name descriptor referenceKind none speculative
      | some .field => resolveField mn c name descriptor referenceKind none speculative
      | _ => pure false) m := by
  obtain ⟨nameHandle, hname, hnameRead⟩ := hasks.name
  obtain ⟨typeHandle, htype, htypeRead⟩ := hasks.type
  unfold resolveMember
  rw [bind_of_ok (readMemberName_of_read hmn)]
  simp only [hasks.unresolved.2, bne_self_eq_false, Bool.false_eq_true, if_false,
    hasks.referenceKind, hreference, orFail_some, hname, htype, hasks.clazz, hasks.kind]
  rw [bind_of_ok (pure_run _ _), bind_of_ok (searchedClass_run hm hget hkind)]
  show (callerClass none >>= _) m = _
  rw [callerClass, bind_of_ok (pure_run _ _), bind_of_ok (stringValue_of_read hnameRead)]
  exact bind_of_ok (typeSignature_of_read htypeRead) _

theorem resolveMethod_run {r : MethodRef} {kind : MemberKind} {referenceKind : ReferenceKind}
    {method : Method} {speculative : Bool} (hw : m.heap.WellFormed)
    (hmn : m.heap.read mn = .ok (.memberName n)) (hfits : kind.fits name = true)
    (hlink : m.classes.linkMethod c name descriptor referenceKind none speculative =
      .ok (some r))
    (hget : m.classes.get? r.owner = some c) (hmethod : c.method? r.index = some method) :
    ∃ m' n', resolveMethod mn c kind name descriptor referenceKind none speculative m =
        (.ok true, m') ∧ m'.heap.read mn = .ok (.memberName n') ∧
      n'.Holds m' (method.memberFlags kind (referenceKind.toDeclaring c)) c.classObject
        (.method r) r.target := by
  -- The found member is stored the way `init` stores a reflected one.
  have hcommit : ∃ m' n', commitMember mn (method.memberFlags kind (referenceKind.toDeclaring c))
      c.classObject (.method r) r.target m = (.ok (), m') ∧
      m'.heap.read mn = .ok (.memberName n') ∧
      n'.Holds m' (method.memberFlags kind (referenceKind.toDeclaring c)) c.classObject
        (.method r) r.target := by
    refine settle_run hw hmn ?_ _
    exact fun _ => ⟨rfl, rfl, rfl, rfl⟩
  obtain ⟨m', n', hrun, hread, hholds⟩ := hcommit
  refine ⟨m', n', ?_, hread, hholds⟩
  unfold resolveMethod
  simp only [hfits, Bool.not_true, Bool.false_eq_true, if_false]
  rw [bind_of_ok (classes_run m), hlink, ofExcept_ok, bind_of_ok (pure_run _ m)]
  dsimp only
  rw [bind_of_ok (classAt_of_get? hget), hmethod, orFail_some, bind_of_ok (pure_run method m),
    bind_of_ok hrun]
  rfl

theorem resolveField_run {r : FieldRef} {kind kind' : ReferenceKind} {f : Field}
    {speculative : Bool} (hw : m.heap.WellFormed) (hmn : m.heap.read mn = .ok (.memberName n))
    (hlink : m.classes.linkField c name descriptor kind none speculative = .ok (some (r, kind')))
    (hget : m.classes.get? r.owner = some c) (hfield : c.field? r.index = some f) :
    ∃ m' n', resolveField mn c name descriptor kind none speculative m = (.ok true, m') ∧
      m'.heap.read mn = .ok (.memberName n') ∧
      n'.Holds m' (f.memberFlags kind') c.classObject (.field r) f.target := by
  have hcommit : ∃ m' n', commitMember mn (f.memberFlags kind') c.classObject (.field r) f.target m
      = (.ok (), m') ∧ m'.heap.read mn = .ok (.memberName n') ∧
      n'.Holds m' (f.memberFlags kind') c.classObject (.field r) f.target := by
    refine settle_run hw hmn ?_ _
    exact fun _ => ⟨rfl, rfl, rfl, rfl⟩
  obtain ⟨m', n', hrun, hread, hholds⟩ := hcommit
  refine ⟨m', n', ?_, hread, hholds⟩
  unfold resolveField
  rw [bind_of_ok (classes_run m), hlink, ofExcept_ok, bind_of_ok (pure_run _ m)]
  dsimp only
  rw [bind_of_ok (classAt_of_get? hget), hfield, orFail_some, bind_of_ok (pure_run f m),
    bind_of_ok hrun]
  rfl

/-- A member name with the kinds of a declared method or constructor is resolved to
    it. -/
theorem resolveMember_method {i : Nat} {method : Method} {kind : MemberKind} (hm : m.Steady)
    (hget : m.classes.get? c.id = some c) (hobject : c.kind = .object)
    (hsize : c.methods.size ≤ 65536) (hfirst : c.FirstMethod i method)
    (hkind : kind = .method ∨ kind = .constructor) (hfits : kind.fits method.name = true)
    (hmn : m.heap.read mn = .ok (.memberName n))
    (hfilled : filled.flags = (method.memberFlags kind method.referenceKind).encode)
    (hasks : m.AsksFor n filled method.name method.descriptor.render c.classObject)
    (speculative : Bool) :
    ∃ m' n', resolveMember mn none speculative m = (.ok true, m') ∧
      m'.heap.read mn = .ok (.memberName n') ∧
      n'.Holds m' (method.memberFlags kind method.referenceKind) c.classObject
        (.method { owner := c.id, index := UInt16.ofNat i })
        (MethodRef.target { owner := c.id, index := UInt16.ofNat i }) := by
  have hdecoded : MemberFlags.decode filled.flags =
      method.memberFlags kind method.referenceKind := by
    rw [hfilled, MemberFlags.decode_encode]
  have hlaid := hm.sound.laid (ClassTable.mem_of_get? hget)
  have hlink := ClassTable.linkMethod_declared hm.started hget hlaid hfirst hsize speculative
  have hdispatched := hlaid.methods method (Array.mem_of_getElem? hfirst.found)
  -- The class that was searched is the one that declares the method.
  have hdeclaring : method.referenceKind.toDeclaring c = method.referenceKind := by
    unfold ReferenceKind.toDeclaring
    rw [if_neg]
    rintro ⟨hinterface, hclass⟩
    exact hclass ((Method.referenceKind_iff hdispatched).2 hinterface)
  have hrun := resolveMethod_run hm.sound.heap hmn hfits hlink hget (hfirst.method? hsize)
  rw [hdeclaring] at hrun
  rw [resolveMember_run hm hget hobject hmn hasks (by rw [hdecoded]; rfl) speculative, hdecoded]
  rcases hkind with rfl | rfl
  · exact hrun
  · exact hrun

theorem resolveMember_field {i : Nat} {f : Field} (hm : m.Steady)
    (hget : m.classes.get? c.id = some c) (hobject : c.kind = .object)
    (hsize : c.fields.size ≤ 65536) (hfirst : c.FirstField i f)
    (hmn : m.heap.read mn = .ok (.memberName n))
    (hfilled : filled.flags =
      (f.memberFlags (if f.isStatic then .getStatic else .getField)).encode)
    (hasks : m.AsksFor n filled f.name f.type.render c.classObject) (speculative : Bool) :
    ∃ m' n', resolveMember mn none speculative m = (.ok true, m') ∧
      m'.heap.read mn = .ok (.memberName n') ∧
      n'.Holds m' (f.memberFlags (if f.isStatic then .getStatic else .getField)) c.classObject
        (.field { owner := c.id, index := UInt16.ofNat i }) f.target := by
  have hdecoded : MemberFlags.decode filled.flags =
      f.memberFlags (if f.isStatic then .getStatic else .getField) := by
    rw [hfilled, MemberFlags.decode_encode]
  have hlink := ClassTable.linkField_declared hget hfirst hsize
    (if f.isStatic then .getStatic else .getField) speculative
  have hown : ReferenceKind.forField (if f.isStatic then .getStatic else .getField) f.isStatic =
      if f.isStatic then .getStatic else .getField := by
    cases f.isStatic <;> rfl
  rw [hown] at hlink
  rw [resolveMember_run hm hget hobject hmn hasks (by rw [hdecoded]; rfl) speculative, hdecoded]
  exact resolveField_run hm.sound.heap hmn hlink hget (hfirst.field? hsize)

end Resolution

/-! ## Agreement -/

/-- Filling a member name from the reflection object of the member, and resolving one
    that asks for the member, both end with the given flags, identity and target. -/
structure Class.LeadsTo (c : Class) (member : MatchedMember) (name descriptor : String)
    (flags : MemberFlags) (ref : MemberRef) (target : Nat) : Prop where
  init : ∀ {m : Machine} {r mn : Handle} {object : Object} {n : MemberName}, m.Steady →
    m.classes.get? c.id = some c → m.heap.read r = .ok object →
    object.Reflects c.classObject member → m.heap.read mn = .ok (.memberName n) →
    ∃ m' n', initMemberName mn r m = (.ok (), m') ∧ m'.heap.read mn = .ok (.memberName n') ∧
      n'.Holds m' flags c.classObject ref target
  resolve : ∀ {m : Machine} {mn : Handle} {n filled : MemberName} (speculative : Bool),
    m.Steady → m.classes.get? c.id = some c → m.heap.read mn = .ok (.memberName n) →
    filled.flags = flags.encode → m.AsksFor n filled name descriptor c.classObject →
    ∃ m' n', resolveMember mn none speculative m = (.ok true, m') ∧
      m'.heap.read mn = .ok (.memberName n') ∧ n'.Holds m' flags c.classObject ref target

theorem Class.DeclaresFirst.leadsTo {member : MatchedMember} {name descriptor : String}
    (h : c.DeclaresFirst member name descriptor) (hobject : c.kind = .object)
    (hlaid : c.Laid) (hfields : c.fields.size ≤ 65536) (hmethods : c.methods.size ≤ 65536) :
    ∃ flags ref target, c.LeadsTo member name descriptor flags ref target := by
  cases h with
  | field first =>
    refine ⟨_, _, _, ?_, fun speculative hm hget hmn hfilled hasks =>
      resolveMember_field hm hget hobject hfields first hmn hfilled hasks speculative⟩
    rintro m r mn object n hm hget hr ⟨reflected, rfl, hclazz, hslot⟩ hmn
    have hrun := initMemberName_field hm hget hr hclazz
      (by rw [hslot]; exact first.field? hfields) hmn
    rwa [hslot] at hrun
  | @method i method first notConstructor notInitializer =>
    have hfits : MemberKind.fits .method method.name = true := by
      simp [MemberKind.fits, notConstructor, notInitializer]
    refine ⟨_, _, _, ?_, fun speculative hm hget hmn hfilled hasks =>
      resolveMember_method hm hget hobject hmethods first (Or.inl rfl) hfits hmn hfilled hasks
        speculative⟩
    rintro m r mn object n hm hget hr ⟨reflected, rfl, hclazz, hslot⟩ hmn
    have hrun := initMemberName_method hm hget hr hclazz
      (by rw [hslot]; exact first.method? hmethods) hmn
    rwa [hslot] at hrun
  | @constructor i method first isConstructor notStatic =>
    have hfits : MemberKind.fits .constructor method.name = true := by
      rw [isConstructor]
      decide
    refine ⟨_, _, _, ?_, fun speculative hm hget hmn hfilled hasks =>
      resolveMember_method hm hget hobject hmethods first (Or.inr rfl) hfits hmn hfilled hasks
        speculative⟩
    rintro m r mn object n hm hget hr ⟨reflected, rfl, hclazz, hslot⟩ hmn
    -- The reference kind of a constructor is its own one all the same.
    have hdispatched := hlaid.methods method (Array.mem_of_getElem? first.found)
    have hrun := initMemberName_constructor hm hget hr hclazz
      (by rw [hslot]; exact first.method? hmethods) hmn
    rwa [hslot, ← hdispatched.referenceKind_constructor isConstructor notStatic] at hrun

theorem Class.DeclaresFirst.owner_eq {member : MatchedMember} {name descriptor : String}
    (h : c.DeclaresFirst member name descriptor) : member.owner = c.id := by
  cases h <;> rfl

theorem resolveMemberName_of_resolveMember {speculative : Bool}
    (h : resolveMember mn none speculative m = (.ok true, m')) :
    resolveMemberName mn none speculative m = (.ok (some mn), m') := by
  have hattempt : attempt (resolveMember mn none speculative) m = (.ok (.ok true), m') := by
    rw [attempt_run, h]
  unfold resolveMemberName
  rw [bind_of_ok hattempt]
  rfl

/-- Filling from a reflection object and resolving agree: on every reachable machine,
    whenever the reflection object of a declared member can be made, a member name is
    filled from it, then or later, and from then on every member name that asks for the
    same member is resolved, with the same flags, class, identity and target. -/
theorem resolve_agrees_with_init {env : Environment} {m m₁ m₂ : Machine} {c : Class}
    {member : MatchedMember} {name descriptor : String} {r mn : Handle} {n : MemberName}
    (hm : m.Reachable ClassObjectsKept) (hc : c ∈ m.classes.classes) (hobject : c.kind = .object)
    (hfields : c.fields.size ≤ 65536) (hmethods : c.methods.size ≤ 65536)
    (hmember : c.DeclaresFirst member name descriptor)
    (hreflect : reflectMember env member m = (.ok r, m₁))
    (hlater : Run ClassObjectsKept m₁ m₂) (hr : m₂.heap.read r = m₁.heap.read r)
    (hmn : m₂.heap.read mn = .ok (.memberName n)) :
    ∃ m₃ filled, initMemberName mn r m₂ = (.ok (), m₃) ∧
      m₃.heap.read mn = .ok (.memberName filled) ∧
      ∀ (m₄ : Machine) (fresh : Handle) (asked : MemberName) (speculative : Bool),
        Run ClassObjectsKept m₃ m₄ → m₄.heap.read fresh = .ok (.memberName asked) →
        m₄.AsksFor asked filled name descriptor c.classObject →
        ∃ m₅ resolved, resolveMemberName fresh none speculative m₄ = (.ok (some fresh), m₅) ∧
          m₅.heap.read fresh = .ok (.memberName resolved) ∧ resolved.flags = filled.flags ∧
          resolved.clazz = filled.clazz ∧ resolved.vmindex = filled.vmindex ∧
          resolved.vmtarget = filled.vmtarget := by
  have hsteady := hm.steady
  have hget := ClassTable.get?_id hsteady.sound.ids hc
  have hgoes : Goes ClassObjectsKept (reflectMember env member) m _ :=
    goes_reflectMember env hsteady.sound.heap (by rw [hmember.owner_eq]; exact hget)
  obtain ⟨hchanges, hmade⟩ := hgoes
  rw [hreflect] at hchanges
  obtain ⟨object, hread, hreflects⟩ := hmade r m₁ hreflect
  -- The class, its class object and the place of the member stay, whatever runs meanwhile.
  have hchanges₂ := hchanges.trans hlater.changes
  have hsteady₂ := hchanges₂.steady hsteady
  have hget₂ := hchanges₂.get?_classes hget
  obtain ⟨flags, ref, target, hleads⟩ :=
    hmember.leadsTo hobject (hsteady.sound.laid hc) hfields hmethods
  obtain ⟨m₃, filled, hinit, hfilled, hholds⟩ :=
    hleads.init hsteady₂ hget₂ (hr.trans hread) hreflects hmn
  have hchanges₃ : Changes ClassObjectsKept m₂ m₃ := (changing_initMemberName mn r).of_run hinit
  refine ⟨m₃, filled, hinit, hfilled, ?_⟩
  intro m₄ fresh asked speculative hrun hfresh hasks
  have hchanges₄ := hchanges₃.trans hrun.changes
  obtain ⟨m₅, resolved, hresolve, hresolved, hholds'⟩ := hleads.resolve speculative
    (hchanges₄.steady hsteady₂) (hchanges₄.get?_classes hget₂) hfresh hholds.flags_eq hasks
  have hname := resolveMemberName_of_resolveMember hresolve
  refine ⟨m₅, resolved, hname, hresolved, hholds'.flags_eq.trans hholds.flags_eq.symm,
    hholds'.clazz_eq.trans hholds.clazz_eq.symm, ?_,
    hholds'.target_eq.trans hholds.target_eq.symm⟩
  -- The registry still knows the identity that was given out first.
  have hchanges₅ : Changes ClassObjectsKept m₄ m₅ :=
    (changing_resolveMemberName fresh none speculative).of_run hname
  have hid := (hrun.changes.trans hchanges₅).identify_kept hholds.identity
  rw [hholds'.identity] at hid
  exact (Prod.mk.inj hid).1

/-- The sample class declares its second method, which has the name of the first one
    but another descriptor. -/
theorem Sample.declaresFirst_scale (hid : c.id = 35)
    (hmethods : c.methods.toList.map (fun method => (method.name, method.descriptor.render)) =
      [("scale", "()V"), ("scale", "(I)V")]) :
    c.methods.size = 2 ∧ c.DeclaresFirst Sample.scale "scale" "(I)V" := by
  obtain ⟨a, rest, hlist, ha, hrest⟩ := List.map_eq_cons_iff.mp hmethods
  obtain ⟨b, rest', hlist', hb, hnil⟩ := List.map_eq_cons_iff.mp hrest
  rw [List.map_eq_nil_iff.mp hnil] at hlist'
  rw [hlist'] at hlist
  simp only [Prod.mk.injEq] at ha hb
  -- Two methods of one name: the second is the first one with its descriptor.
  have harray : c.methods = #[a, b] := Array.toList_inj.mp hlist
  have hfirst : c.FirstMethod 1 b := by
    refine ⟨by simp [harray], ?_⟩
    intro j hj earlier hearlier
    obtain rfl : j = 0 := by omega
    obtain rfl : a = earlier := by simpa [harray] using hearlier
    rw [ha.2, hb.2]
    simp
  refine ⟨by simp [harray], ?_⟩
  have hdeclares := Class.DeclaresFirst.method hfirst (by rw [hb.1]; decide) (by rw [hb.1]; decide)
  rw [hid, hb.1, hb.2] at hdeclares
  exact hdeclares

theorem square_scale_agrees :
    ∃ m m₁ m₂ m₃ filled resolved, Machine.Reachable ClassObjectsKept m ∧
      reflectMember Sample.env Sample.scale m = (.ok ⟨40⟩, m₁) ∧
      initMemberName ⟨39⟩ ⟨40⟩ m₁ = (.ok (), m₂) ∧
      m₂.heap.read ⟨39⟩ = .ok (.memberName filled) ∧
      m₂.heap.read ⟨38⟩ = .ok (.memberName Sample.asked) ∧
      resolveMemberName ⟨38⟩ none false m₂ = (.ok (some ⟨38⟩), m₃) ∧
      m₃.heap.read ⟨38⟩ = .ok (.memberName resolved) ∧
      resolved.flags = filled.flags ∧ resolved.clazz = filled.clazz ∧
      resolved.vmindex = filled.vmindex ∧ resolved.vmtarget = filled.vmtarget := by
  obtain ⟨m, _, hafter, ⟨hsquare, hmembers⟩, ⟨hreflected, hblank⟩,
    ⟨hname, htype, hasked, object, hfilled, hkinds⟩, _⟩ :=
    Sample.reachable_after (fun _ => trivial) Sample.classObjectsKept
  obtain ⟨c, hget, hparts⟩ := Option.map_eq_some_iff.mp hsquare
  rw [hget] at hmembers
  simp only [Option.map_some, Option.some.injEq, Prod.mk.injEq] at hparts hmembers
  obtain ⟨hobject, _, hclazz⟩ := hparts
  obtain ⟨hsize, hdeclares⟩ := Sample.declaresFirst_scale (hafter.sound.ids hget) hmembers.2
  -- The sample gives the answers; what is left is that the runs agree with them.
  have hreflect : Sample.reflected m = (.ok ⟨40⟩, (Sample.reflected m).2) := by
    rw [← hreflected.eq_ok]
  obtain ⟨m₂, filled, hinit, hread, hagree⟩ := resolve_agrees_with_init hafter
    (ClassTable.mem_of_get? hget) hobject (by rw [hmembers.1]; decide) (by rw [hsize]; decide)
    hdeclares hreflect (.refl _) rfl hblank.eq_ok
  have hm₂ : Sample.filled m = m₂ := by
    unfold Sample.filled
    rw [hinit]
  rw [hm₂] at hname htype hasked hfilled
  obtain rfl : Object.memberName filled = object := by
    rw [hread] at hfilled
    exact Except.ok.inj hfilled
  simp only [Object.memberName?, Option.map_some, Option.some.injEq, Prod.mk.injEq] at hkinds
  have hasks : m₂.AsksFor Sample.asked filled "scale" "(I)V" c.classObject :=
    { kind := by rw [hkinds.1, Sample.asked, MemberFlags.decode_encode]; rfl
      referenceKind := by rw [hkinds.2, Sample.asked, MemberFlags.decode_encode]; rfl
      name := ⟨⟨36⟩, rfl, hname.eq_ok⟩
      type := ⟨⟨37⟩, rfl, htype.eq_ok⟩
      clazz := by rw [hclazz]; rfl
      unresolved := ⟨rfl, rfl⟩ }
  obtain ⟨m₃, resolved, hresolve, hresolved, hsame⟩ :=
    hagree m₂ ⟨38⟩ Sample.asked false (.refl m₂) hasked.eq_ok hasks
  exact ⟨_, _, m₂, m₃, filled, resolved, hafter, hreflect, hinit, hread, hasked.eq_ok, hresolve,
    hresolved, hsame⟩

end Linkage
