import Mathlib.Logic.Relation
import Linkage.Proofs.Actions
import Linkage.Proofs.HeapStore
import Linkage.Proofs.Operations

/-! # What can happen to a machine

    `Change` says once what a single elementary action can do to a machine, with all
    that the code has made sure of when it does it:

    * a class is added only if the table `Admits` it,
    * a member name that is in use gets only values that `Machine.Fills` allows,
    * a constant is remembered only if nothing was remembered for it.

    `Changes` is any sequence of them. Every operation is such a sequence, so a
    property of machines that a single change keeps is kept by every run.

    `Link.Goes` is the logic in which this is shown: an action goes through changes
    and ends with a value that satisfies a postcondition. -/

namespace Linkage

open Link

/-! ## What is written -/

/-- An object that may be stored at any time: no class object, and no member name
    with an identity or a target. -/
def Object.Plain : Object → Prop
  | .classObject _ => False
  | .memberName n => n.vmindex = 0 ∧ n.vmtarget = 0
  | _ => True

/-- The array with its elements changed; any other object unchanged. -/
def Object.mapElements (g : Array (Option Handle) → Array (Option Handle)) : Object → Object
  | .array a => .array { a with elements := g a.elements }
  | object => object

theorem Object.setElement_eq_mapElements (index : Nat) (value : Option Handle) :
    Object.setElement index value = Object.mapElements (·.setIfInBounds index value) := by
  funext object
  cases object <;> rfl

/-- The class may be added to the table: it is laid out from a declaration over
    classes of the table, or it is a primitive class or an array class. Its name is
    new in each case. -/
inductive ClassTable.Admits (t : ClassTable) : Class → Prop where
  | declared {d : ClassDeclaration} {superclass : Option Class} {interfaces : List Class}
      {layout : Layout} (new : t.find? d.name = none)
      (superclass_mem : ∀ s, superclass = some s → s ∈ t.classes ∧ s.isSealed = false)
      (interfaces_mem : ∀ i ∈ interfaces, i ∈ t.classes ∧ i.isInterface = true)
      (laid : Layout.ofDeclaration t d superclass interfaces = .ok layout)
      (classObject : Handle) : t.Admits (layout.toClass t.size classObject)
  | primitive (p : Primitive) (new : t.find? p.name = none) (classObject : Handle) :
      t.Admits (Class.ofPrimitive p t.size classObject)
  | array {name : String} {component object cloneable serializable : Class}
      (new : t.find? name = none) (component_mem : component ∈ t.classes)
      (named : name = "[" ++ t.signature component)
      (object_eq : t.find? ClassDeclaration.objectName = some object)
      (cloneable_eq : t.find? "java/lang/Cloneable" = some cloneable)
      (serializable_eq : t.find? "java/io/Serializable" = some serializable)
      (classObject : Handle) :
      t.Admits (Class.ofArray name component object cloneable serializable t.size classObject)

/-- The class `c` declares the members of `owner`, and `clazz` is taken for its class
    object: either the class was found by its place, or by its class object. -/
inductive Machine.Declares (m : Machine) : Handle → ClassId → Class → Prop where
  | place {owner : ClassId} {c : Class} (found : m.classes.get? owner = some c) :
      m.Declares c.classObject owner c
  | classObject {clazz : Handle} {id : ClassId} {c : Class}
      (read : m.heap.read clazz = .ok (.classObject id)) (found : m.classes.get? id = some c) :
      m.Declares clazz c.id c

/-- The kinds under which a method of a class may be named: those of its reflection
    object, or the kinds of a reference that found it. -/
inductive Method.NamedAs (method : Method) (c : Class) : MemberKind → ReferenceKind → Prop where
  | method : method.NamedAs c .method method.referenceKind
  | constructor : method.NamedAs c .constructor .invokeSpecial
  | reference {kind : MemberKind} {referenceKind : ReferenceKind}
      (notField : kind = .method ∨ kind = .constructor)
      (static : referenceKind = .invokeStatic ↔ method.isStatic = true)
      (interface : referenceKind = .invokeInterface → c.isInterface = true) :
      method.NamedAs c kind referenceKind

/-- Flags, class, identity and target of the member name are those of a declared
    member. -/
inductive Machine.Settles (m : Machine) (n : MemberName) : Prop where
  | field {r : FieldRef} {c : Class} {f : Field} {clazz : Handle} {kind : ReferenceKind}
      (declares : m.Declares clazz r.owner c) (found : c.field? r.index = some f)
      (identity : m.members.get? n.vmindex = some (.field r)) (clazz_eq : n.clazz = some clazz)
      (ofField : kind.isField = true) (static : kind.isStaticField = f.isStatic)
      (flags : n.flags = (f.memberFlags kind).encode)
      (target : n.vmtarget = f.target)
  | method {r : MethodRef} {c : Class} {method : Method} {clazz : Handle} {kind : MemberKind}
      {referenceKind : ReferenceKind} (declares : m.Declares clazz r.owner c)
      (found : c.method? r.index = some method)
      (identity : m.members.get? n.vmindex = some (.method r)) (clazz_eq : n.clazz = some clazz)
      (named : method.NamedAs c kind referenceKind)
      (flags : n.flags = (method.memberFlags kind referenceKind).encode)
      (target : n.vmtarget = r.target)

/-- What a member name may become: the name of a declared member, or itself with
    other symbolic parts, but with no other class. -/
inductive Machine.Fills (m : Machine) (old : MemberName) : MemberName → Prop where
  | settled {new : MemberName} (settles : m.Settles new) : m.Fills old new
  | expanded {name type clazz : Option Handle} (clazz_eq : clazz = old.clazz ∨ old.clazz = none) :
      m.Fills old { old with name, type, clazz }

/-! ## Changes -/

/-- What an elementary action can do to a machine. The rule says what outside code
    does to the heap. -/
inductive Change (rule : Discipline) (m : Machine) : Machine → Prop where
  | allocate (object : Object) (allowed : object.Plain ∨ rule m (.allocate object)) :
      Change rule m (Link.allocate object m).2
  | update (handle : Handle) (f : Object → Object) (allowed : rule m (.update handle f)) :
      Change rule m (Link.update handle f m).2
  | release (handle : Handle) (allowed : rule m (.release handle)) :
      Change rule m (Link.release handle m).2
  | collectGarbage : Change rule m (Link.collectGarbage m).2
  | intern (text : String) : Change rule m (Link.intern text m).2
  | identify (member : MemberRef) : Change rule m (Link.identify member m).2
  | remember (slot : ConstantSlot) (value : Handle) (new : m.memos.lookup slot = none) :
      Change rule m (Link.remember slot value m).2
  | recordCall (call : BootstrapCall) : Change rule m (Link.recordCall call m).2
  | loading (names : List String) : Change rule m { m with loading := names }
  | fill {handle : Handle} {old new : MemberName}
      (read : m.heap.read handle = .ok (.memberName old)) (fills : m.Fills old new) :
      Change rule m (Link.update handle (fun _ => .memberName new) m).2
  | setElements (handle : Handle) (g : Array (Option Handle) → Array (Option Handle))
      (sized : ∀ elements, (g elements).size = elements.size) :
      Change rule m (Link.update handle (Object.mapElements g) m).2
  | setDescriptor (handle text : Handle) :
      Change rule m (Link.update handle (Object.setDescriptor text) m).2
  | setTarget {handle : Handle} {old : Option Handle} (target : Option Handle)
      (read : m.heap.read handle = .ok (.callSite old)) :
      Change rule m (Link.update handle (fun _ => .callSite target) m).2
  | define {c : Class} {heap : Heap Object} (admits : m.classes.Admits c)
      (stored : m.heap.allocate (.classObject m.classes.size) = (some c.classObject, heap)) :
      Change rule m { m with heap, classes := m.classes.push c }
  | refuse {heap : Heap Object} (object : Object) (full : m.heap.allocate object = (none, heap)) :
      Change rule m { m with heap }

/-- Any number of changes. -/
def Changes (rule : Discipline) : Machine → Machine → Prop :=
  Relation.ReflTransGen (Change rule)

variable {rule : Discipline} {m m' m'' : Machine}

namespace Changes

theorem refl (m : Machine) : Changes rule m m := Relation.ReflTransGen.refl

theorem single (h : Change rule m m') : Changes rule m m' := Relation.ReflTransGen.single h

theorem trans (h₁ : Changes rule m m') (h₂ : Changes rule m' m'') : Changes rule m m'' :=
  Relation.ReflTransGen.trans h₁ h₂

/-- A property of machines that every change keeps is kept by any number of changes. -/
theorem keeps {P : Machine → Prop} (h : Changes rule m m')
    (step : ∀ {m m'}, Change rule m m' → P m → P m') (hm : P m) : P m' := by
  induction h with
  | refl => exact hm
  | tail _ hlast ih => exact step hlast ih

end Changes

/-- A stricter rule allows fewer changes. -/
theorem Change.mono {rule rule' : Discipline}
    (hrule : ∀ (m : Machine) {α : Type} (op : Operation α), rule m op → rule' m op)
    (h : Change rule m m') : Change rule' m m' := by
  cases h with
  | allocate object allowed => exact .allocate object (allowed.imp_right (hrule m _))
  | update handle f allowed => exact .update handle f (hrule m _ allowed)
  | release handle allowed => exact .release handle (hrule m _ allowed)
  | collectGarbage => exact .collectGarbage
  | intern text => exact .intern text
  | identify member => exact .identify member
  | remember slot value new => exact .remember slot value new
  | recordCall call => exact .recordCall call
  | loading names => exact .loading names
  | fill read fills => exact .fill read fills
  | setElements handle g sized => exact .setElements handle g sized
  | setDescriptor handle text => exact .setDescriptor handle text
  | setTarget target read => exact .setTarget target read
  | define admits stored => exact .define admits stored
  | refuse object full => exact .refuse object full

theorem Changes.mono {rule rule' : Discipline}
    (hrule : ∀ (m : Machine) {α : Type} (op : Operation α), rule m op → rule' m op)
    (h : Changes rule m m') : Changes rule' m m' :=
  h.keeps (P := fun m' => Changes rule' m m')
    (fun hchange hbefore => hbefore.trans (.single (hchange.mono hrule))) (.refl m)

/-! ## The class table -/

/-- Storing an object gives its handle, or there is no room. Only the heap is touched. -/
theorem allocate_run_cases (object : Object) (m : Machine) :
    (∃ heap, m.heap.allocate object = (none, heap) ∧
      Link.allocate object m = (.error (.thrown .outOfMemory), { m with heap })) ∨
    ∃ handle heap, m.heap.allocate object = (some handle, heap) ∧
      Link.allocate object m = (.ok handle, { m with heap }) := by
  unfold Link.allocate
  cases hheap : m.heap.allocate object with
  | mk stored heap =>
    cases stored with
    | none => exact Or.inl ⟨heap, rfl, rfl⟩
    | some handle => exact Or.inr ⟨handle, heap, rfl, rfl⟩

theorem allocate_run (object : Object) (m : Machine) :
    (Link.allocate object m).2 = { m with heap := (m.heap.allocate object).2 } := by
  rcases allocate_run_cases object m with ⟨heap, hheap, hrun⟩ | ⟨handle, heap, hheap, hrun⟩
  · rw [hrun, hheap]
  · rw [hrun, hheap]

theorem release_run (handle : Handle) (m : Machine) :
    (Link.release handle m).2 = { m with heap := (m.heap.release handle).2 } := by
  unfold Link.release changeHeap
  split <;> simp_all

/-- A change leaves the class table alone or adds one class to it. -/
theorem Change.classes_cases (h : Change rule m m') :
    m'.classes = m.classes ∨
      ∃ c, m.classes.Admits c ∧ m'.classes = m.classes.push c := by
  cases h with
  | allocate object _ => exact Or.inl (by rw [allocate_run])
  | update handle f _ => exact Or.inl (by rw [update_machine])
  | release handle _ => exact Or.inl (by rw [release_run])
  | collectGarbage => exact Or.inl rfl
  | intern text => refine Or.inl ?_; unfold Link.intern; split <;> rfl
  | identify member => exact Or.inl rfl
  | remember slot value _ => exact Or.inl rfl
  | recordCall call => exact Or.inl rfl
  | loading names => exact Or.inl rfl
  | fill _ _ => exact Or.inl (by rw [update_machine])
  | setElements handle g _ => exact Or.inl (by rw [update_machine])
  | setDescriptor handle text => exact Or.inl (by rw [update_machine])
  | setTarget target _ => exact Or.inl (by rw [update_machine])
  | define admits _ => exact Or.inr ⟨_, admits, rfl⟩
  | refuse object _ => exact Or.inl rfl

theorem ClassTable.mem_push {t : ClassTable} {c d : Class} (h : c ∈ t.classes) :
    c ∈ (t.push d).classes := by
  simp [h]

/-- The class table only grows. -/
theorem Changes.mem_classes (h : Changes rule m m') {c : Class} (hc : c ∈ m.classes.classes) :
    c ∈ m'.classes.classes := by
  refine h.keeps (P := fun m => c ∈ m.classes.classes) ?_ hc
  intro m₁ m₂ hchange hmem
  rcases hchange.classes_cases with he | ⟨d, _, he⟩
  · rw [he]; exact hmem
  · rw [he]; exact ClassTable.mem_push hmem

theorem ClassTable.mem_of_get? {t : ClassTable} {id : ClassId} {c : Class}
    (h : t.get? id = some c) : c ∈ t.classes :=
  Array.mem_of_getElem? h

theorem ClassTable.mem_of_find? {t : ClassTable} {name : String} {c : Class}
    (h : t.find? name = some c) : c ∈ t.classes := by
  obtain ⟨i, _, hget⟩ := Option.bind_eq_some_iff.mp h
  exact ClassTable.mem_of_get? hget

/-! ## Identities -/

theorem MemberRegistry.get?_of_lookup (r : MemberRegistry) {member : MemberRef} {id : Nat}
    (h : r.ids.lookup member = some id) : r.get? id = some member := by
  obtain ⟨i, rfl, hi⟩ := r.found h
  exact hi

/-- A member has a number already, or it gets the next one. -/
theorem MemberRegistry.identify_cases (r : MemberRegistry) (member : MemberRef) :
    (∃ id, r.ids.lookup member = some id ∧ r.identify member = (id, r)) ∨
      (r.ids.lookup member = none ∧
        r.identify member = (r.members.size + 1, r.push member)) := by
  unfold MemberRegistry.identify
  cases hids : r.ids.lookup member with
  | some id => exact Or.inl ⟨id, rfl, rfl⟩
  | none => exact Or.inr ⟨rfl, by simp [MemberRegistry.push]⟩

/-- After a member got its identity, the identity leads back to it. -/
theorem MemberRegistry.get?_identify (r : MemberRegistry) (member : MemberRef) :
    (r.identify member).2.get? (r.identify member).1 = some member := by
  rcases r.identify_cases member with ⟨id, hid, he⟩ | ⟨hnew, he⟩
  · rw [he]
    exact r.get?_of_lookup hid
  · rw [he]
    exact (r.push member).get?_of_lookup (by simp [MemberRegistry.push])

/-! ## Actions that go through changes -/

namespace Link

variable {α β : Type} {x : Link α} {f : α → Link β} {Q : α → Machine → Prop}

/-- From the machine `m`, the action goes through changes only, and a value it ends
    with satisfies the postcondition. -/
def Goes (rule : Discipline) (x : Link α) (m : Machine) (Q : α → Machine → Prop) : Prop :=
  Changes rule m (x m).2 ∧ ∀ a m', x m = (.ok a, m') → Q a m'

/-- From every machine the action goes through changes only. -/
def Changing (rule : Discipline) (x : Link α) : Prop :=
  ∀ m, Changes rule m (x m).2

theorem Goes.mono {Q' : α → Machine → Prop} (h : Goes rule x m Q)
    (hQ : ∀ a m', Changes rule m m' → Q a m' → Q' a m') : Goes rule x m Q' := by
  refine ⟨h.1, fun a m' hx => hQ a m' ?_ (h.2 a m' hx)⟩
  have hc := h.1
  rwa [hx] at hc

theorem Changing.goes (h : Changing rule x) (m : Machine) : Goes rule x m (fun _ _ => True) :=
  ⟨h m, fun _ _ _ => trivial⟩

theorem Changing.of_run (h : Changing rule x) {result : Except Failure α}
    (hx : x m = (result, m')) : Changes rule m m' := by
  have hc := h m
  rwa [hx] at hc

theorem changing_of_goes {Q : Machine → α → Machine → Prop}
    (h : ∀ m, Goes rule x m (Q m)) : Changing rule x :=
  fun m => (h m).1

/-- An action that leaves the machine as it is. -/
theorem goes_of_still (hm : (x m).2 = m) (h : ∀ a, x m = (.ok a, m) → Q a m) :
    Goes rule x m Q := by
  refine ⟨by rw [hm]; exact Changes.refl m, fun a m' hx => ?_⟩
  have he : m' = m := by rw [hx] at hm; exact hm
  subst he
  exact h a hx

theorem goes_of_change (h : Change rule m (x m).2) (hQ : ∀ a m', x m = (.ok a, m') → Q a m') :
    Goes rule x m Q :=
  ⟨Changes.single h, hQ⟩

theorem goes_pure {a : α} (h : Q a m) : Goes rule (pure a : Link α) m Q := by
  refine goes_of_still rfl ?_
  intro b hb
  simp only [pure_run, Prod.mk.injEq, Except.ok.injEq, and_true] at hb
  exact hb ▸ h

theorem goes_failWith (e : Failure) : Goes rule (failWith e : Link α) m Q :=
  goes_of_still rfl (fun a ha => by simp at ha)

theorem goes_fail (e : LinkError) : Goes rule (fail e : Link α) m Q :=
  goes_failWith (.thrown e)

theorem goes_orFail {o : Option α} {e : LinkError} (h : ∀ a, o = some a → Q a m) :
    Goes rule (orFail o e) m Q := by
  cases o with
  | none => exact goes_fail e
  | some a => exact goes_pure (h a rfl)

theorem goes_ofExcept {r : Except LinkError α} (h : ∀ a, r = .ok a → Q a m) :
    Goes rule (ofExcept r) m Q := by
  cases r with
  | error e => exact goes_fail e
  | ok a => exact goes_pure (h a rfl)

/-- Go on with the value of an action, knowing its postcondition and that nothing but
    changes has happened. -/
theorem goes_bind {R : α → Machine → Prop} {Q : β → Machine → Prop} (hx : Goes rule x m R)
    (hf : ∀ a m', Changes rule m m' → R a m' → Goes rule (f a) m' Q) :
    Goes rule (x >>= f) m Q := by
  obtain ⟨hc, hR⟩ := hx
  rcases bind_cases x f m with ⟨e, m', hxm, hb⟩ | ⟨a, m', hxm, hb⟩
  · rw [hxm] at hc
    refine ⟨by rw [hb]; exact hc, fun b m₁ hm₁ => ?_⟩
    rw [hb] at hm₁
    simp at hm₁
  · rw [hxm] at hc
    obtain ⟨hc', hQ⟩ := hf a m' hc (hR a m' hxm)
    exact ⟨by rw [hb]; exact hc.trans hc', fun b m₁ hm₁ => hQ b m₁ (by rw [← hb]; exact hm₁)⟩

/-- Go on after an action whose outcome is known. -/
theorem goes_bind_of_ok {a : α} {Q : β → Machine → Prop} (hx : x m = (.ok a, m))
    (hf : Goes rule (f a) m Q) : Goes rule (x >>= f) m Q := by
  unfold Goes at hf ⊢
  rw [bind_of_ok hx f]
  exact hf

theorem goes_read (handle : Handle) :
    Goes rule (read handle) m (fun object m' => m' = m ∧ m.heap.read handle = .ok object) := by
  have hm : (read handle m).2 = m := by
    rw [read_run]
    split <;> rfl
  refine goes_of_still hm ?_
  intro object hx
  exact ⟨rfl, (read_run_eq_ok_iff.mp hx).1⟩

theorem goes_classAt (id : ClassId) :
    Goes rule (classAt id) m (fun c m' => m' = m ∧ m.classes.get? id = some c) := by
  have hm : (classAt id m).2 = m := by
    rw [classAt_run]
    split <;> rfl
  refine goes_of_still hm ?_
  intro c hx
  rw [classAt_run] at hx
  split at hx
  · rename_i d hd
    simp only [Prod.mk.injEq, Except.ok.injEq, and_true] at hx
    exact ⟨rfl, hx ▸ hd⟩
  · simp at hx

theorem goes_coreClass (name : String) :
    Goes rule (coreClass name) m (fun c m' => m' = m ∧ m.classes.find? name = some c) := by
  unfold coreClass
  refine goes_bind_of_ok (findClass_run name m) ?_
  exact goes_orFail (fun c hc => ⟨rfl, hc⟩)

/-- The class behind a class object. -/
theorem goes_classOfObject (handle : Handle) :
    Goes rule (classOfObject handle) m (fun result m' => m' = m ∧ ∀ c, result = some c →
      ∃ id, m.heap.read handle = .ok (.classObject id) ∧ m.classes.get? id = some c) := by
  unfold classOfObject
  refine goes_bind (goes_read handle) ?_
  rintro object m' _ ⟨rfl, hread⟩
  -- Only a class object has a class number; for the others the answer is `none`.
  cases hid : object.classId? with
  | none => exact goes_pure ⟨rfl, fun c hc => by simp at hc⟩
  | some id =>
    have hobj : object = .classObject id := by
      cases object <;> simp_all [Object.classId?]
    subst hobj
    show Goes rule (classAt id >>= fun c => pure (some c)) _ _
    refine goes_bind (goes_classAt id) ?_
    rintro c m' _ ⟨rfl, hget⟩
    refine goes_pure ⟨rfl, fun d hd => ⟨id, hread, ?_⟩⟩
    rw [Option.some.injEq] at hd
    exact hd ▸ hget

theorem goes_readMemberName (handle : Handle) :
    Goes rule (readMemberName handle) m
      (fun n m' => m' = m ∧ m.heap.read handle = .ok (.memberName n)) := by
  unfold readMemberName
  refine goes_bind (goes_read handle) ?_
  rintro object m' _ ⟨rfl, hread⟩
  refine goes_orFail (fun n hn => ⟨rfl, ?_⟩)
  have hobj : object = .memberName n := by
    cases object <;> simp_all [Object.memberName?]
  exact hobj ▸ hread

/-- A member name changes to a value that it may become. -/
theorem goes_updateMemberName (handle : Handle) (f : MemberName → MemberName)
    (hf : ∀ old, m.heap.read handle = .ok (.memberName old) → m.Fills old (f old)) :
    Goes rule (updateMemberName handle f) m (fun _ _ => True) := by
  unfold updateMemberName
  refine goes_bind (goes_readMemberName handle) ?_
  rintro n m' _ ⟨rfl, hread⟩
  exact goes_of_change (Change.fill hread (hf n hread)) (fun _ _ _ => trivial)

theorem goes_identify (member : MemberRef) :
    Goes rule (identify member) m (fun id m' => m'.members.get? id = some member ∧
      m'.heap = m.heap ∧ m'.classes = m.classes) := by
  refine goes_of_change (Change.identify member) ?_
  intro id m' hx
  rw [identify_run, Prod.mk.injEq, Except.ok.injEq] at hx
  obtain ⟨rfl, rfl⟩ := hx
  exact ⟨MemberRegistry.get?_identify m.members member, rfl, rfl⟩

/-- Going through a list: what each element ends with stays true while the others
    are gone through. -/
theorem goes_forEach {f : α → Link β} {Q : β → Machine → Prop} (as : List α) (m : Machine)
    (hf : ∀ a ∈ as, ∀ m', Changes rule m m' → Goes rule (f a) m' Q)
    (stable : ∀ b m₁ m₂, Changes rule m₁ m₂ → Q b m₁ → Q b m₂) :
    Goes rule (forEach f as) m
      (fun bs m' => bs.length = as.length ∧ ∀ b ∈ bs, Q b m') := by
  induction as generalizing m with
  | nil => exact goes_pure ⟨rfl, by simp⟩
  | cons a as ih =>
    show Goes rule (f a >>= fun b => forEach f as >>= fun bs => pure (b :: bs)) m _
    refine goes_bind (hf a List.mem_cons_self m (Changes.refl m)) ?_
    intro b m₁ hc₁ hb
    -- The rest starts in `m₁`, so what the first element ended with has to be stable.
    refine goes_bind (ih m₁ (fun a' ha' m' hc' =>
      hf a' (List.mem_cons_of_mem a ha') m' (hc₁.trans hc'))) ?_
    rintro bs m₂ hc₂ ⟨hlen, hbs⟩
    refine goes_pure ⟨by simp [hlen], ?_⟩
    intro b' hb'
    rcases List.mem_cons.mp hb' with rfl | hb'
    · exact stable b' m₁ m₂ hc₂ hb
    · exact hbs b' hb'

end Link

end Linkage
