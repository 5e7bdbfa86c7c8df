import Linkage.Proofs.UntangledObjects

/-! # Linkage stays outside

    Every action of linkage that outside code does not take part in keeps a machine walled,
    whatever is hidden: it puts new objects and interned strings and class objects into
    objects, and nothing else.

    * `Link.Confines`: the action keeps the machine walled, and its value satisfies `Q`.
    * `loadable_walled`: loading defines classes, and their class objects are new.
    * `confines_newMethodType`, `confines_reflectMember`: new objects hold what is interned
      and loaded.
    * `keeps_resolveMemberName_walled`, `keeps_expandMemberName_walled`: member names get
      class objects and interned strings. -/

namespace Linkage

open Link

variable {α β : Type} {known hidden : Set Handle} {m m' : Machine} {h r mn : Handle} {o : Object}
variable {x : Link α} {f : α → Link β} {Q : α → Machine → Prop}

namespace Link

/-! ## Composition -/

/-- From the machine `m`, the action keeps the machine walled, and a value that it ends with
    satisfies the postcondition. -/
structure Confines (known hidden : Set Handle) (x : Link α) (m : Machine)
    (Q : α → Machine → Prop) : Prop where
  walled : (x m).2.Walled known hidden
  value : ∀ a m', x m = (.ok a, m') → Q a m'

theorem Confines.mono {Q' : α → Machine → Prop} (hx : Confines known hidden x m Q)
    (hQ : ∀ a m', m'.Walled known hidden → Q a m' → Q' a m') : Confines known hidden x m Q' := by
  refine ⟨hx.walled, fun a m' hrun => hQ a m' ?_ (hx.value a m' hrun)⟩
  have hwalled := hx.walled
  rwa [hrun] at hwalled

theorem confines_of_walled (hx : (x m).2.Walled known hidden) :
    Confines known hidden x m (fun _ _ => True) :=
  ⟨hx, fun _ _ _ => trivial⟩

theorem keeps_of_confines {Q : Machine → α → Machine → Prop}
    (hx : ∀ m, m.Walled known hidden → Confines known hidden x m (Q m)) :
    Keeps (Machine.Walled known hidden) x :=
  fun m hm => (hx m hm).walled

theorem confines_pure {a : α} (hm : m.Walled known hidden) (ha : Q a m) :
    Confines known hidden (pure a : Link α) m Q where
  walled := hm
  value := fun _ _ hrun => by cases hrun; exact ha

theorem confines_failWith (e : Failure) (hm : m.Walled known hidden) :
    Confines known hidden (failWith e : Link α) m Q where
  walled := hm
  value := fun _ _ hrun => by cases hrun

theorem confines_fail (e : LinkError) (hm : m.Walled known hidden) :
    Confines known hidden (fail e : Link α) m Q :=
  confines_failWith (.thrown e) hm

/-- Go on with the value of an action. -/
theorem confines_bind {R : α → Machine → Prop} {Q : β → Machine → Prop}
    (hx : Confines known hidden x m R)
    (hf : ∀ a m', x m = (.ok a, m') → m'.Walled known hidden → R a m' →
      Confines known hidden (f a) m' Q) : Confines known hidden (x >>= f) m Q := by
  have hwalled := hx.walled
  rcases bind_cases x f m with ⟨e, m', hrun, hbind⟩ | ⟨a, m', hrun, hbind⟩
  · rw [hrun] at hwalled
    exact ⟨by rw [hbind]; exact hwalled, fun b m₁ hb => by rw [hbind] at hb; cases hb⟩
  · rw [hrun] at hwalled
    obtain ⟨hwalled', hvalue⟩ := hf a m' hrun hwalled (hx.value a m' hrun)
    exact ⟨by rw [hbind]; exact hwalled', fun b m₁ hb => hvalue b m₁ (by rw [← hbind]; exact hb)⟩

/-- Go on after an action that only looks at the machine. -/
theorem confines_bind_still {Q : β → Machine → Prop} (hm : m.Walled known hidden)
    (hx : Keeps (· = m) x)
    (hf : ∀ a, x m = (.ok a, m) → Confines known hidden (f a) m Q) :
    Confines known hidden (x >>= f) m Q := by
  have hsame : (x m).2 = m := hx m rfl
  refine confines_bind (R := fun _ m' => m' = m) ⟨by rw [hsame]; exact hm, fun a m' hrun => ?_⟩ ?_
  · rwa [hrun] at hsame
  · rintro a m' hrun - rfl
    exact hf a hrun

theorem confines_bind_orFail {o : Option α} {e : LinkError} {Q : β → Machine → Prop}
    (hm : m.Walled known hidden) (hf : ∀ a, o = some a → Confines known hidden (f a) m Q) :
    Confines known hidden (orFail o e >>= f) m Q :=
  confines_bind_still hm (keeps_orFail o e) (fun a ha => hf a (orFail_eq_ok_iff.mp ha).1)

theorem confines_bind_classAt {id : ClassId} {f : Class → Link β} {Q : β → Machine → Prop}
    (hm : m.Walled known hidden)
    (hf : ∀ c, m.classes.get? id = some c → Confines known hidden (f c) m Q) :
    Confines known hidden (classAt id >>= f) m Q := by
  have hgoes : Goes (fun _ {_} _ => True) (classAt id) m _ := goes_classAt id
  exact confines_bind_still hm (keeps_classAt id) (fun c hrun => hf c (hgoes.2 c m hrun).2)

theorem confines_map {g : α → β} {Q : β → Machine → Prop}
    (hx : Confines known hidden x m (fun a m' => Q (g a) m')) :
    Confines known hidden (g <$> x) m Q :=
  confines_bind hx (fun _ _ _ hm' ha => confines_pure hm' ha)

/-! ## Elementary actions -/

theorem confines_allocate (hm : m.Walled known hidden)
    (hholds : ∀ r ∈ o.holds, m.Outside hidden r)
    (hclass : ∀ id, o = .classObject id → ∃ c, m.classes.get? id = some c) :
    Confines known hidden (allocate o) m
      (fun h m' => m'.object? h = some o ∧ m'.Outside hidden h) := by
  rcases allocate_run_cases o m with ⟨heap, hheap, hrun⟩ | ⟨h, heap, hheap, hrun⟩
  · refine ⟨by rw [hrun]; exact hm.refused hheap, fun h m' hrun' => ?_⟩
    rw [hrun] at hrun'
    cases hrun'
  · obtain ⟨hwalled, hobject, houtside⟩ := hm.store { m with heap } hheap hholds hclass
      (fun _ _ hget => hget) (fun _ _ hfind => Or.inl hfind) (fun _ hc => Or.inl hc) rfl
    refine ⟨by rw [hrun]; exact hwalled, fun h' m' hrun' => ?_⟩
    rw [hrun] at hrun'
    cases hrun'
    exact ⟨hobject, houtside⟩

theorem confines_intern (text : String) (hm : m.Walled known hidden) :
    Confines known hidden (intern text) m (fun h m' => m'.Roots h) := by
  refine ⟨?_, fun h m' hrun => Or.inl ⟨text, find?_of_intern hrun⟩⟩
  rcases intern_run_cases text m with ⟨h, -, hrun⟩ | ⟨-, heap, hheap, hrun⟩ |
    ⟨-, h, heap, hheap, hrun⟩
  · rw [hrun]
    exact hm
  · rw [hrun]
    exact hm.refused hheap
  · -- The new text is entered, and it refers to nothing.
    rw [hrun]
    refine (hm.store { m with strings := m.strings.insert text h, heap } hheap
      (fun _ hr => by cases hr) (fun _ hid => by cases hid) (fun _ _ hget => hget) ?_
      (fun _ hc => Or.inl hc) rfl).1
    intro other handle hfind
    rw [StringPool.find?_insert] at hfind
    split at hfind
    · rename_i hother
      rw [Option.some.injEq] at hfind
      exact Or.inr ⟨hfind.symm, by rw [hother]⟩
    · exact Or.inl hfind

theorem keeps_intern_walled (text : String) : Keeps (Machine.Walled known hidden) (intern text) :=
  keeps_of_confines (fun _ hm => confines_intern text hm)

/-- Nothing is to be seen of an action that leaves objects, strings, classes and remembered
    constants alone. -/
theorem keeps_identify_walled (member : MemberRef) :
    Keeps (Machine.Walled known hidden) (identify member) :=
  fun _ hm => hm.of_view hm.heap rfl rfl rfl rfl

theorem keeps_recordCall_walled (call : BootstrapCall) :
    Keeps (Machine.Walled known hidden) (recordCall call) :=
  fun _ hm => hm.of_view hm.heap rfl rfl rfl rfl

theorem keeps_collectGarbage_walled : Keeps (Machine.Walled known hidden) collectGarbage :=
  fun _ hm => hm.of_view (Heap.wellFormed_relocate hm.heap) (Heap.view_relocate _) rfl rfl rfl

/-- An object, if there is one, is changed to what may be there. -/
theorem walled_update {f : Object → Object} (hm : m.Walled known hidden)
    (hmay : ∀ old, m.object? h = some old → m.MayWrite hidden h old (f old)) :
    (update h f m).2.Walled known hidden := by
  cases hobject : m.object? h with
  | some old => exact hm.write hobject (hmay old hobject)
  | none =>
    rw [update_machine]
    refine hm.of_view (Heap.wellFormed_update hm.heap h f) ?_ rfl rfl rfl
    show (m.heap.update h f).2.view = m.heap.view
    rw [(Heap.update_view hm.heap h f).2]
    unfold Store.update
    replace hobject : m.heap.view.objects h = none := hobject
    rw [hobject]

/-- A method type remembers its descriptor, which is no reference that descriptions follow. -/
theorem keeps_setDescriptor_walled (type text : Handle) :
    Keeps (Machine.Walled known hidden) (update type (Object.setDescriptor text)) := by
  intro m hm
  refine walled_update hm (fun old hobject => ⟨fun hroot => ?_, fun id hid => ?_, fun r hr => ?_⟩)
  · obtain ⟨o, ho, -, hkind⟩ := hm.root_cases hroot
    rw [hobject, Option.some.injEq] at ho
    rcases hkind with ⟨_, rfl⟩ | ⟨_, rfl⟩ <;> rw [ho] <;> rfl
  · cases old <;> cases hid
    exact hm.classed type id hobject
  · cases old <;> exact Or.inl hr

theorem walled_updateMemberName {g : MemberName → MemberName} (hm : m.Walled known hidden)
    (hg : ∀ n, m.object? mn = some (.memberName n) → ∀ r ∈ (Object.memberName (g n)).holds,
      r ∈ (Object.memberName n).holds ∨ m.MayHold hidden mn r) :
    (updateMemberName mn g m).2.Walled known hidden := by
  unfold updateMemberName
  refine (confines_bind_still (Q := fun _ _ => True) hm (keeps_readMemberName mn) ?_).walled
  intro n hread
  have hobject : m.object? mn = some (.memberName n) :=
    (read_eq_ok_iff hm.heap).mp (readMemberName_eq_ok_iff.mp hread).1
  refine confines_of_walled (walled_update hm (fun old hold =>
    ⟨fun hroot => absurd hroot (hm.not_roots hobject rfl rfl), fun id hid => (by cases hid), ?_⟩))
  intro r hr
  rw [hobject, Option.some.injEq] at hold
  exact hold ▸ hg n hobject r hr

end Link

/-! ## What stays -/

/-- Outside code does nothing. -/
def idle : Discipline := fun _ {_} _ => False

theorem Machine.Roots.of_run {result : Except Failure α} (hroot : m.Roots h)
    (hx : Changing idle x) (hrun : x m = (result, m')) : m'.Roots h := by
  have hchanges := hx.of_run hrun
  rcases hroot with ⟨text, hfind⟩ | ⟨c, hc, rfl⟩
  · exact Or.inl ⟨text, hchanges.find?_strings hfind⟩
  · exact Or.inr ⟨c, hchanges.mem_classes hc, rfl⟩

theorem Machine.Outside.of_run {result : Except Failure α} (hh : m.Outside hidden h)
    (hw : m.heap.WellFormed) (hx : Changing idle x) (hrun : x m = (result, m')) :
    m'.Outside hidden h :=
  ⟨(hx.of_run hrun).object_stays (fun _ _ hrule => hrule) hw hh.1, hh.2⟩

/-! ## Loading -/

/-- A new class comes with a new class object. -/
theorem keeps_addClass_walled (name : String) {make : ClassId → Handle → Class}
    (named : ∀ id h, (make id h).name = name) (hmake : ∀ id h, (make id h).classObject = h) :
    Keeps (Machine.Walled known hidden) (addClass name make named) := by
  intro m hm
  unfold addClass
  rw [bind_of_ok (findClass_run name m)]
  cases m.classes.find? name with
  | some c => exact hm
  | none =>
    dsimp only
    rw [bind_of_ok (classes_run m)]
    rcases allocate_run_cases (.classObject m.classes.size) m with
      ⟨heap, hheap, hrun⟩ | ⟨h, heap, hheap, hrun⟩
    · rw [bind_of_error hrun]
      exact hm.refused hheap
    · rw [bind_of_ok hrun, appendClass_run]
      refine (hm.store { m with heap, classes := m.classes.push (make m.classes.size h) }
        hheap (fun _ hr => by cases hr) ?_
        (fun id c hget => ClassTable.get?_push_of_get? hget _) (fun _ _ hfind => Or.inl hfind) ?_
        rfl).1
      · -- The number of the class object is that of the class that is added.
        rintro id ⟨rfl⟩
        exact ⟨make m.classes.size h, m.classes.get?_push_size _⟩
      · intro c hc
        rcases Array.mem_push.mp hc with hc | rfl
        · exact Or.inl hc
        · exact Or.inr ⟨hmake _ _, _, rfl⟩

theorem loadable_walled : Loadable (Machine.Walled known hidden) where
  loading := fun _ hm => hm.of_view hm.heap rfl rfl rfl rfl
  addClass := fun name _ named hmake => keeps_addClass_walled name named hmake

theorem confines_classOfType (env : Environment) (t : TypeDescriptor)
    (hm : m.Walled known hidden) :
    Confines known hidden (classOfType env t) m (fun c m' => m'.Roots c.classObject) := by
  have hloads : Goes idle (classOfType env t) m (fun c m' => c ∈ m'.classes.classes) :=
    loads_classOfType env t m
  refine ⟨loadable_walled.loadClass env t.className m hm, fun c m' hrun => ?_⟩
  exact Or.inr ⟨c, hloads.2 c m' hrun, rfl⟩

/-! ## Signatures and reflection objects -/

theorem confines_newMethodType (env : Environment) (descriptor : String)
    (hm : m.Walled known hidden) :
    Confines known hidden (newMethodType env descriptor) m
      (fun h m' => m'.Outside hidden h) := by
  unfold newMethodType
  refine confines_bind_orFail hm (fun d _ => ?_)
  -- The classes of the parameters have class objects, also after the next ones are loaded.
  have hloads : Goes idle (forEach (classOfType env) d.parameters) m
      (fun cs m' => cs.length = d.parameters.length ∧ ∀ c ∈ cs, c ∈ m'.classes.classes) :=
    goes_forEach _ m (fun t _ m' _ => loads_classOfType env t m')
      (fun _ _ _ hchanges hc => hchanges.mem_classes hc)
  have hparameters : Confines known hidden (forEach (classOfType env) d.parameters) m
      (fun cs m' => ∀ c ∈ cs, m'.Roots c.classObject) :=
    ⟨keeps_forEach (fun t _ => loadable_walled.loadClass env t.className) m hm,
      fun cs m' hrun c hc => Or.inr ⟨c, (hloads.2 cs m' hrun).2 c hc, rfl⟩⟩
  refine confines_bind hparameters (fun parameters m₁ _ hm₁ hparameters => ?_)
  refine confines_bind (confines_classOfType env d.result hm₁)
    (fun result m₂ hrun₂ hm₂ hresult => ?_)
  refine confines_bind (confines_intern descriptor hm₂) (fun text m₃ hrun₃ hm₃ _ => ?_)
  refine (confines_allocate hm₃ ?_ (fun id hid => by cases hid)).mono (fun h m' _ hh => hh.2)
  intro r hr
  refine hm₃.outside_of_root ?_
  rcases List.mem_append.mp hr with hr | hr
  · obtain ⟨c, hc, rfl⟩ := List.mem_map.mp hr
    exact ((hparameters c hc).of_run (changing_classOfType env _) hrun₂).of_run
      (changing_intern descriptor) hrun₃
  · rw [List.mem_singleton.mp hr]
    exact hresult.of_run (changing_intern descriptor) hrun₃

/-- What a member name takes from a reflection object, apart from the class. -/
def Object.parts : Object → List Handle
  | .field r => [r.name, r.type]
  | .method r => r.name.toList ++ [r.signature]
  | .constructor r => [r.signature]
  | _ => []

/-- A reflection object has the names and types of declared members. -/
theorem confines_reflectMember (env : Environment) (member : MatchedMember)
    (hm : m.Walled known hidden) :
    Confines known hidden (reflectMember env member) m
      (fun h m' => ∃ o, m'.object? h = some o ∧ ∀ r ∈ o.parts, m'.Roots r) := by
  -- A reflection object holds nothing that leads anywhere; its parts are roots.
  have hstore : ∀ {o : Object} {m : Machine}, m.Walled known hidden → o.holds = [] →
      (∀ id, o ≠ .classObject id) → (∀ r ∈ o.parts, m.Roots r) →
      Confines known hidden (allocate o) m
        (fun h m' => ∃ o, m'.object? h = some o ∧ ∀ r ∈ o.parts, m'.Roots r) := by
    intro o m hm hholds hclass hparts
    have hallocate := confines_allocate (o := o) hm (by simp [hholds])
      (fun id hid => absurd hid (hclass id))
    refine ⟨hallocate.walled, fun h m' hrun => ⟨o, (hallocate.value h m' hrun).1, fun r hr => ?_⟩⟩
    have hsame := allocate_run o m
    rw [hrun] at hsame
    subst hsame
    exact hparts r hr
  cases member with
  | field f =>
    show Confines known hidden (newReflectedField env f) m _
    unfold newReflectedField
    refine confines_bind_still hm (keeps_classAt _) (fun c _ => ?_)
    refine confines_bind_orFail hm (fun field _ => ?_)
    refine confines_bind (confines_classOfType env _ hm) (fun type m₁ _ hm₁ htype => ?_)
    refine confines_bind (confines_intern _ hm₁) (fun name m₂ hrun₂ hm₂ hname => ?_)
    refine hstore hm₂ rfl (fun id hid => by cases hid) ?_
    have htype₂ := htype.of_run (changing_intern _) hrun₂
    simp [Object.parts, hname, htype₂]
  | method r =>
    show Confines known hidden (newReflectedMethod r) m _
    unfold newReflectedMethod
    refine confines_bind_still hm (keeps_classAt _) (fun c _ => ?_)
    refine confines_bind_orFail hm (fun method _ => ?_)
    refine confines_bind (confines_intern _ hm) (fun name m₁ _ hm₁ hname => ?_)
    refine confines_bind (confines_intern _ hm₁) (fun signature m₂ hrun₂ hm₂ hsignature => ?_)
    refine hstore hm₂ rfl (fun id hid => by cases hid) ?_
    have hname₂ := hname.of_run (changing_intern _) hrun₂
    simp [Object.parts, hname₂, hsignature]
  | constructor r =>
    show Confines known hidden (newReflectedConstructor r) m _
    unfold newReflectedConstructor
    refine confines_bind_still hm (keeps_classAt _) (fun c _ => ?_)
    refine confines_bind_orFail hm (fun method _ => ?_)
    refine confines_bind (confines_intern _ hm) (fun signature m₁ _ hm₁ hsignature => ?_)
    refine hstore hm₁ rfl (fun id hid => by cases hid) ?_
    simp [Object.parts, hsignature]

/-! ## Member names -/

/-- A member name gets interned strings and class objects. -/
theorem walled_fillMemberName {g : MemberName → MemberName} (hm : m.Walled known hidden)
    (hg : ∀ n, m.object? mn = some (.memberName n) → ∀ r ∈ (Object.memberName (g n)).holds,
      r ∈ (Object.memberName n).holds ∨ m.Roots r) :
    (updateMemberName mn g m).2.Walled known hidden :=
  walled_updateMemberName hm (fun n hobject r hr => (hg n hobject r hr).imp_right
    (fun hroot => hm.mayHold_of_root hroot (hm.not_roots hobject rfl rfl)))

/-- Resolution stores the class object of the class that declares the member. -/
theorem walled_commitMember {c : Class} {id : ClassId} (hm : m.Walled known hidden)
    (hc : m.classes.get? id = some c) (flags : MemberFlags) (member : MemberRef) (target : Nat) :
    (commitMember mn flags c.classObject member target m).2.Walled known hidden := by
  unfold commitMember
  rw [bind_of_ok (identify_run member m)]
  refine walled_fillMemberName (keeps_identify_walled member m hm) (fun n _ r hr => ?_)
  simp only [Object.holds, List.mem_append, Option.mem_toList] at hr ⊢
  rcases hr with (hr | hr) | hr
  · cases hr
    exact Or.inr (Or.inr ⟨c, ClassTable.mem_of_get? hc, rfl⟩)
  · exact Or.inl (Or.inl (Or.inr hr))
  · exact Or.inl (Or.inr hr)

theorem keeps_resolveMemberName_walled (mn : Handle) (caller : Option Handle)
    (speculative : Bool) :
    Keeps (Machine.Walled known hidden) (resolveMemberName mn caller speculative) := by
  -- Both searches end with storing what they have found.
  have hdone : ∀ {m : Machine} {y : Link Unit}, (y m).2.Walled known hidden →
      Confines known hidden (y >>= fun _ => pure true) m (fun _ _ => True) := by
    intro m y hy
    exact confines_bind (confines_of_walled hy) (fun _ _ _ hm' _ => confines_pure hm' trivial)
  refine keeps_resolveMemberName_of ?_ ?_
    (keeps_typeSignature_of keeps_intern_walled keeps_setDescriptor_walled) caller
  · intro c kind name signature referenceKind caller m hm
    unfold resolveMethod
    split
    · exact hm
    · rw [bind_of_ok (classes_run m)]
      refine (confines_bind_still (Q := fun _ _ => True) hm (keeps_ofExcept _) ?_).walled
      intro found _
      cases found with
      | none => exact confines_pure hm trivial
      | some r =>
        refine confines_bind_classAt hm (fun declaring hget => ?_)
        refine confines_bind_orFail hm (fun method _ => ?_)
        exact hdone (walled_commitMember hm hget _ _ _)
  · intro c name signature referenceKind caller m hm
    unfold resolveField
    rw [bind_of_ok (classes_run m)]
    refine (confines_bind_still (Q := fun _ _ => True) hm (keeps_ofExcept _) ?_).walled
    intro found _
    cases found with
    | none => exact confines_pure hm trivial
    | some found =>
      refine confines_bind_classAt hm (fun declaring hget => ?_)
      refine confines_bind_orFail hm (fun field _ => ?_)
      exact hdone (walled_commitMember hm hget _ _ _)

/-- The action makes a part that a member name lacks, an interned string or a class object, and
    does not touch the member name. -/
structure Makes (known hidden : Set Handle) (mn : Handle) (make : Link Handle) : Prop where
  confines : ∀ {m}, m.Walled known hidden → Confines known hidden make m (fun h m' => m'.Roots h)
  carries : ∀ S, Keeps (Machine.Carries mn S) make
  changing : Changing idle make

theorem makes_intern (mn : Handle) (text : String) : Makes known hidden mn (intern text) where
  confines := confines_intern text
  carries := fun S => keeps_intern (framed_carries mn S) text
  changing := changing_intern text

theorem makes_classOfType (mn : Handle) (env : Environment) (t : TypeDescriptor) :
    Makes known hidden mn (do pure (← classOfType env t).classObject) where
  confines := fun hm => confines_bind (confines_classOfType env t hm)
    (fun _ _ _ hm' hroot => confines_pure hm' hroot)
  carries := fun S => keeps_bind (keeps_classOfType (framed_carries mn S) env t)
    (fun _ => keeps_pure _)
  changing := changing_bind (changing_classOfType env t) (fun _ m => Changes.refl m)

/-- A part that is there stays, and one that is missing is made. -/
theorem Makes.orMake {present : Option Handle} {make : Link Handle} {n : MemberName}
    (hmake : Makes known hidden mn make) (hm : m.Walled known hidden)
    (hobject : m.object? mn = some (.memberName n)) :
    Confines known hidden (orMake present make) m (fun h m' =>
      (present = some h ∨ m'.Roots h) ∧ m'.object? mn = some (.memberName n) ∧
        ∀ r, m.Roots r → m'.Roots r) := by
  cases present with
  | some h => exact confines_pure hm ⟨Or.inl rfl, hobject, fun _ hroot => hroot⟩
  | none =>
    obtain ⟨hwalled, hvalue⟩ := hmake.confines hm
    refine ⟨hwalled, fun h m' hrun => ⟨Or.inr (hvalue h m' hrun), ?_, ?_⟩⟩
    · have hcarries := hmake.carries (· = .memberName n) m ⟨hm.heap, _, hobject, rfl⟩
      change make m = (.ok h, m') at hrun
      rw [hrun] at hcarries
      obtain ⟨o, ho, rfl⟩ := hcarries.object
      exact ho
    · exact fun r hroot => hroot.of_run hmake.changing hrun

/-- Name and type are made one after the other, and then stored. -/
theorem confines_storeParts {makeName makeType : Link Handle} {n : MemberName}
    {g : Handle → Handle → MemberName → MemberName} (hm : m.Walled known hidden)
    (hobject : m.object? mn = some (.memberName n)) (hmakeName : Makes known hidden mn makeName)
    (hmakeType : Makes known hidden mn makeType)
    (hg : ∀ name type, (g name type n).name = some name ∧ (g name type n).type = some type ∧
      ∀ r, (g name type n).clazz = some r → n.clazz = some r ∨ m.Roots r) :
    Confines known hidden (orMake n.name makeName >>= fun name =>
      orMake n.type makeType >>= fun type => updateMemberName mn (g name type)) m
        (fun _ _ => True) := by
  refine confines_bind (hmakeName.orMake hm hobject) ?_
  rintro name m₁ - hm₁ ⟨hname, hobject₁, hlater₁⟩
  refine confines_bind (hmakeType.orMake hm₁ hobject₁) ?_
  rintro type m₂ - hm₂ ⟨htype, hobject₂, hlater₂⟩
  refine confines_of_walled (walled_fillMemberName hm₂ (fun n' hn' r hr => ?_))
  obtain rfl : n' = n := by
    rw [hobject₂] at hn'
    cases hn'
    rfl
  obtain ⟨hgname, hgtype, hgclazz⟩ := hg name type
  simp only [Object.holds, List.mem_append, Option.mem_toList, hgname, hgtype] at hr ⊢
  rcases hr with (hr | hr) | hr
  · rcases hgclazz r hr with hclazz | hroot
    · -- The class was there before, or it is a root.
      exact Or.inl (Or.inl (Or.inl hclazz))
    · exact Or.inr (hlater₂ r (hlater₁ r hroot))
  · cases hr
    exact hname.imp (fun hpresent => Or.inl (Or.inr hpresent)) (hlater₂ _)
  · cases hr
    exact htype.imp_left Or.inr

/-- The missing symbolic parts of a member name are interned strings and class objects. -/
theorem keeps_expandMemberName_walled (env : Environment) (mn : Handle) :
    Keeps (Machine.Walled known hidden) (expandMemberName env mn) := by
  intro m hm
  unfold expandMemberName
  refine (confines_bind_still (Q := fun _ _ => True) hm (keeps_readMemberName mn) ?_).walled
  intro n hread
  have hobject : m.object? mn = some (.memberName n) :=
    (read_eq_ok_iff hm.heap).mp (readMemberName_eq_ok_iff.mp hread).1
  have hfield : Confines known hidden (expandField env mn n) m (fun _ _ => True) := by
    unfold expandField
    split
    · exact confines_fail _ hm
    · refine confines_bind_still hm (keeps_view _) (fun member _ => ?_)
      split
      · refine confines_bind_classAt hm (fun c _ => ?_)
        refine confines_bind_orFail hm (fun field _ => ?_)
        exact confines_storeParts hm hobject (makes_intern mn field.name)
          (makes_classOfType mn env field.type) (fun _ _ => ⟨rfl, rfl, fun _ hr => Or.inl hr⟩)
      · exact confines_fail _ hm
  have hmethod : Confines known hidden (expandMethod mn n) m (fun _ _ => True) := by
    unfold expandMethod
    split
    · exact confines_fail _ hm
    · refine confines_bind_still hm (keeps_view _) (fun member _ => ?_)
      split
      · refine confines_bind_classAt hm (fun c hget => ?_)
        refine confines_bind_orFail hm (fun method _ => ?_)
        refine confines_storeParts hm hobject (makes_intern mn method.name) (makes_intern mn _)
          (fun _ _ => ⟨rfl, rfl, fun r hr => ?_⟩)
        -- The class is filled in only if there is none, and then by the class object of the member.
        cases hr
        cases hclazz : n.clazz with
        | some clazz => exact Or.inl rfl
        | none => exact Or.inr (Or.inr ⟨c, ClassTable.mem_of_get? hget, rfl⟩)
      · exact confines_fail _ hm
  split
  · exact hfield
  · exact hmethod
  · exact hmethod
  · exact confines_fail _ hm

/-! ## Member names from reflection objects -/

/-- A class object may be put into a member name. -/
theorem mayHold_of_classOfObject {clazz : Handle} {c : Class} {n : MemberName}
    (hm : m.Untangled) (hobject : m.object? mn = some (.memberName n))
    (hclass : classOfObject clazz m = (.ok (some c), m)) : m.MayHold ∅ mn clazz := by
  have hgoes : Goes idle (classOfObject clazz) m _ := goes_classOfObject clazz
  obtain ⟨id, hread, -⟩ := (hgoes.2 (some c) m hclass).2 c rfl
  have hclazz : m.object? clazz = some (.classObject id) := (read_eq_ok_iff hm.heap).mp hread
  refine ⟨by simp [hclazz], fun hleads => ?_, fun _ hmem => hmem⟩
  rw [hleads.eq_of_leaf hclazz rfl, hobject] at hclazz
  cases hclazz

/-- The member name may be filled from the reflection object: nothing that it takes leads back
    to it. -/
def Machine.MayInit (m : Machine) (mn reflected : Handle) : Prop :=
  ∀ o n, m.object? reflected = some o → m.object? mn = some (.memberName n) →
    ∀ r ∈ o.parts, m.MayHold ∅ mn r

/-- All three kinds of reflection objects give a class, maybe a name, and a type. -/
theorem confines_initFrom {α : Type} {parts : List Handle} {clazz : Handle}
    {find : Class → Option α} {e : LinkError} {member : Class → MemberRef}
    {g : Class → α → Nat → MemberName} (hm : m.Walled known ∅)
    (hparts : ∀ n, m.object? mn = some (.memberName n) → ∀ r ∈ parts, m.MayHold ∅ mn r)
    (hg : ∀ c a id, ∀ r ∈ (Object.memberName (g c a id)).holds, r = clazz ∨ r ∈ parts) :
    Confines known ∅ (declaringClass clazz >>= fun c => orFail (find c) e >>= fun a =>
      identify (member c) >>= fun id => updateMemberName mn (fun _ => g c a id)) m
        (fun _ _ => True) := by
  refine confines_bind_still hm ?_ (fun c hdeclaring => ?_)
  · unfold declaringClass
    exact keeps_bind (keeps_classOfObject clazz) (fun _ => keeps_orFail _ _)
  · refine confines_bind_orFail hm (fun a _ => ?_)
    refine confines_of_walled ?_
    rw [bind_of_ok (identify_run (member c) m)]
    refine walled_updateMemberName (keeps_identify_walled (member c) m hm) ?_
    intro n hobject r hr
    -- The class object comes from the reflection object too, but it has been found to be one.
    have hholds : m.MayHold ∅ mn r := by
      rcases hg c a _ r hr with rfl | hpart
      · obtain ⟨found, m₁, hclass, hfound⟩ := bind_eq_ok_iff.mp hdeclaring
        obtain ⟨rfl, rfl⟩ := orFail_eq_ok_iff.mp hfound
        exact mayHold_of_classOfObject hm.toUntangled hobject hclass
      · exact hparts n hobject r hpart
    exact Or.inr ⟨hholds.live, hholds.away, hholds.outside⟩

theorem walled_initMemberName {reflected : Handle} (hm : m.Walled known ∅)
    (hmay : m.MayInit mn reflected) : (initMemberName mn reflected m).2.Walled known ∅ := by
  unfold initMemberName
  refine (confines_bind_still (Q := fun _ _ => True) hm (keeps_read reflected) ?_).walled
  intro o hread
  have hreflected : m.object? reflected = some o :=
    (read_eq_ok_iff hm.heap).mp (read_run_eq_ok_iff.mp hread).1
  -- What the reflection object says may be held by the member name.
  have hparts := fun n => hmay o n hreflected
  cases o with
  | field r =>
    refine confines_initFrom hm hparts (fun c f id part hpart => ?_)
    simp only [Object.holds, List.mem_append, Option.mem_toList] at hpart
    rcases hpart with (hpart | hpart) | hpart <;> cases hpart
    · exact Or.inl rfl
    · exact Or.inr (by simp [Object.parts])
    · exact Or.inr (by simp [Object.parts])
  | method r =>
    refine confines_initFrom hm hparts (fun c f id part hpart => ?_)
    simp only [Object.holds, List.mem_append, Option.mem_toList] at hpart
    rcases hpart with (hpart | hpart) | hpart
    · cases hpart
      exact Or.inl rfl
    · exact Or.inr (by simp [Object.parts, hpart])
    · cases hpart
      exact Or.inr (by simp [Object.parts])
  | constructor r =>
    refine confines_initFrom hm hparts (fun c f id part hpart => ?_)
    simp only [Object.holds, List.mem_append, Option.mem_toList] at hpart
    rcases hpart with (hpart | hpart) | hpart <;> cases hpart
    · exact Or.inl rfl
    · exact Or.inr (by simp [Object.parts])
  | _ => exact confines_fail _ hm

/-- The results of an enumeration are filled from new reflection objects. -/
theorem keeps_fillResults_walled (env : Environment) (results : Handle) (index : Nat)
    (members : List MatchedMember) :
    Keeps (Machine.Walled known ∅) (fillResults env results index members) := by
  induction members generalizing index with
  | nil => exact keeps_pure true
  | cons member rest ih =>
    intro m hm
    unfold fillResults
    -- Finding the place in the array changes nothing.
    have hslot : Keeps (· = m) (resultSlot results index) := by
      unfold resultSlot
      rw [resolve_readAt]
      grind
    refine (confines_bind_still (Q := fun _ _ => True) hm hslot (fun slot hslot => ?_)).walled
    cases slot with
    | none => exact confines_pure hm trivial
    | some slot =>
      refine confines_bind (confines_reflectMember env member hm) ?_
      rintro reflected m₁ - hm₁ ⟨o, hobject, hroots⟩
      -- The new reflection object only has roots as its parts, and these lead to no member name.
      have hmay : m₁.MayInit slot reflected := by
        intro o' n ho' hn r hr
        rw [hobject, Option.some.injEq] at ho'
        exact hm₁.mayHold_of_root (hroots r (ho' ▸ hr)) (hm₁.not_roots hn rfl rfl)
      exact confines_bind (confines_of_walled (walled_initMemberName hm₁ hmay))
        (fun _ m₂ _ hm₂ _ => confines_of_walled (ih (index + 1) m₂ hm₂))

theorem keeps_enumerateMembers_walled (env : Environment) (r : EnumerationRequest) :
    Keeps (Machine.Walled known ∅) (enumerateMembers env r) :=
  keeps_enumerateMembers_of env r (keeps_fillResults_walled env)

/-! ## Other objects -/

/-- The target of a call site is no reference that descriptions follow. -/
theorem keeps_setCallSiteTarget_walled (callSite target : Handle) :
    Keeps (Machine.Walled known hidden) (setCallSiteTarget callSite target) := by
  intro m hm
  unfold setCallSiteTarget
  refine (confines_bind_still (Q := fun _ _ => True) hm (keeps_read callSite) ?_).walled
  intro o hread
  have hobject : m.object? callSite = some o :=
    (read_eq_ok_iff hm.heap).mp (read_run_eq_ok_iff.mp hread).1
  cases o with
  | callSite old =>
    exact confines_of_walled (walled_update hm (fun _ _ =>
      ⟨fun hroot => absurd hroot (hm.not_roots hobject rfl rfl), fun _ hid => (by cases hid),
        fun _ hr => (by cases hr)⟩))
  | _ => exact confines_fail _ hm

/-- What a new object adds to the machine. -/
theorem object?_of_allocated (hw : m.heap.WellFormed) (hrun : allocate o m = (.ok h, m')) :
    m' = { m with heap := m'.heap } ∧ m'.object? = Function.update m.object? h (some o) := by
  unfold allocate at hrun
  split at hrun
  · rename_i hheap
    cases hrun
    exact ⟨rfl, (Heap.allocate_eq_some hw hheap).2⟩
  · cases hrun

/-- The objects of before are outside of what is hidden together with the new one. -/
theorem Machine.Outside.of_allocate (hr : m.Outside hidden r) (hw : m.heap.WellFormed)
    (hrun : allocate o m = (.ok h, m')) : m'.Outside (insert h hidden) r := by
  have hne : r ≠ h := by
    rintro rfl
    exact hr.1 (object?_of_allocate hw hrun)
  refine ⟨?_, fun hmem => hmem.elim hne hr.2⟩
  rw [(object?_of_allocated hw hrun).2, Function.update_of_ne hne]
  exact hr.1

/-- A new object is out of reach, since nothing refers to it. -/
theorem Machine.Walled.hide (hm : m.Walled known hidden) (hrun : allocate o m = (.ok h, m'))
    (hm' : m'.Walled known hidden) : m'.Walled known (insert h hidden) := by
  obtain ⟨hparts, hobjects⟩ := object?_of_allocated hm.heap hrun
  have hnew : ∀ {x}, m.object? x ≠ none → x ∉ hidden → x ∉ insert h hidden :=
    fun hlive hx => (Machine.Outside.of_allocate ⟨hlive, hx⟩ hm.heap hrun).2
  refine { toUntangled := hm'.toUntangled, known_live := hm'.known_live, apart := ?_, live := ?_,
           objects := ?_, strings := ?_, classObjects := ?_, constants := ?_ }
  · exact fun x hx => hnew (hm.known_live x hx) (hm.apart x hx)
  · rintro x (rfl | hx)
    · simp [hobjects]
    · exact hm'.live x hx
  · -- The new object is hidden, so only references of the objects before it count.
    intro x y hxy hx
    have hx' : x ∉ hidden := fun hmem => hx (Or.inr hmem)
    rw [hobjects] at hxy
    rcases refers_update_iff.mp hxy with ⟨rfl, -⟩ | ⟨-, hxy⟩
    · exact absurd (Or.inl rfl) hx
    · exact hnew (hm.grounded x y hxy) (hm.objects x y hxy hx')
  · intro text x hx
    rw [hparts] at hx
    have hlive : m.object? x ≠ none := by simp [hm.texts text x hx]
    exact hnew hlive (hm.strings text x hx)
  · intro c hc
    rw [hparts] at hc
    obtain ⟨id, hid⟩ := hm.mirrors c hc
    exact hnew (by simp [hid]) (hm.classObjects c hc)
  · intro slot x hx
    rw [hparts] at hx
    exact hnew (hm.memos slot x hx) (hm.constants slot x hx)

theorem vmInfo_second {n : MemberName} {info : Int64 × Option Handle}
    (hrun : vmInfo mn n m = (.ok info, m')) : info.2 = n.clazz ∨ info.2 = some mn := by
  unfold vmInfo at hrun
  split at hrun
  · cases hrun
  · rw [bind_of_ok (member?_run n.vmindex m)] at hrun
    cases hmember : m.members.get? n.vmindex with
    | none =>
      rw [hmember] at hrun
      cases hrun
    | some member =>
      rw [hmember] at hrun
      -- For a field the class is reported, and for a method the member name itself.
      cases member with
      | field f =>
        cases hrun
        exact Or.inl rfl
      | method r =>
        obtain ⟨c, m₁, -, hrun⟩ := bind_eq_ok_iff.mp hrun
        refine Or.inr ?_
        cases hmethod : c.method? r.index with
        | none =>
          rw [hmethod] at hrun
          cases hrun
          rfl
        | some method =>
          rw [hmethod] at hrun
          cases hrun
          rfl

theorem changing_allocate (hplain : o.Plain) : Changing idle (allocate o) :=
  fun _ => Changes.single (.allocate o (Or.inl hplain))

/-- The two parts of the information do not lead to the array, which is new. -/
theorem keeps_memberVMInfo_walled (mn : Handle) :
    Keeps (Machine.Walled known ∅) (memberVMInfo mn) := by
  intro m hm
  unfold memberVMInfo
  refine (confines_bind_still (Q := fun _ _ => True) hm (keeps_readMemberName mn) ?_).walled
  intro n hread
  have hobject : m.object? mn = some (.memberName n) :=
    (read_eq_ok_iff hm.heap).mp (readMemberName_eq_ok_iff.mp hread).1
  refine confines_bind_still hm (keeps_vmInfo mn n) (fun info hinfo => ?_)
  have hsecond : ∀ r, info.2 = some r → m.object? r ≠ none := by
    intro r hr
    rcases vmInfo_second hinfo with hclazz | hself
    · exact hm.grounded mn r ⟨_, hobject, by simp [Object.holds, ← hclazz, hr]⟩
    · rw [hself, Option.some.injEq] at hr
      simp [← hr, hobject]
  refine confines_bind_still hm (keeps_coreClass _) (fun object _ => ?_)
  refine confines_bind (confines_allocate hm (by simp [Object.holds_newArray])
    (fun id hid => by cases hid)) ?_
  rintro array m₁ hrun₁ hm₁ -
  -- The array stays hidden while the index is stored.
  have hsealed₁ := hm.hide hrun₁ hm₁
  have hindex := confines_allocate (o := .long info.1) hsealed₁ (fun _ hr => by cases hr)
    (fun id hid => by cases hid)
  refine confines_bind (confines_allocate hm₁ (fun _ hr => by cases hr)
    (fun id hid => by cases hid)) ?_
  rintro index m₂ hrun₂ hm₂ -
  have hsealed₂ := hindex.walled
  rw [hrun₂] at hsealed₂
  -- What is out of the array's reach may be put into it.
  have hholds : ∀ {r}, m₂.Outside (insert array ∅) r → m₂.MayHold ∅ array r :=
    fun hr => ⟨hr.1, hsealed₂.not_leads hr.2 (Set.mem_insert array ∅), fun _ hmem => hmem⟩
  refine confines_bind (confines_of_walled (walled_update hm₂ (fun old hold =>
    ⟨fun hroot => ?_, fun id hid => ?_, fun r hr => ?_⟩)))
    (fun _ _ _ hm₃ _ => confines_pure hm₃ trivial)
  · exact absurd (Set.mem_insert array ∅) (hsealed₂.outside_of_root hroot).2
  · cases old <;> cases hid
    exact hm₂.classed array id hold
  · rcases Object.mem_holds_setElement hr with hr | hr
    · rcases Object.mem_holds_setElement hr with hr | hr
      · exact Or.inl hr
      · cases hr
        exact Or.inr (hholds (hindex.value index m₂ hrun₂).2)
    · have hr₁ : m₁.Outside (insert array ∅) r :=
        Machine.Outside.of_allocate ⟨hsecond r hr, fun hmem => hmem⟩ hm.heap hrun₁
      exact Or.inr (hholds (hr₁.of_run hm₁.heap (changing_allocate (o := .long info.1) trivial)
        hrun₂))

end Linkage
