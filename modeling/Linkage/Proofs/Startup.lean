import Linkage.Proofs.Hierarchy

/-! # Startup

    What the core classes are after startup. Each core declaration names supertypes
    that are declared before it (`definable`), so none of them is looked for on the
    class path and every class comes out of its declaration: `HasDeclared` says from
    what it was laid out. From there on the class table stays `Linked`. -/

namespace Linkage

open Link

variable {env : Environment} {m m' : Machine} {d : ClassDeclaration} {c : Class}

/-! ## Defining a class whose supertypes are there -/

/-- A load may always open one file. -/
theorem Environment.loadBound_eq_succ (env : Environment) : ∃ bound, env.loadBound = bound + 1 :=
  ⟨3 * env.classPath.size + 5, by unfold Environment.loadBound; omega⟩

/-- A class that is in the table is loaded from there. -/
theorem loadClass_of_find? {name : String} (env : Environment)
    (h : m.classes.find? name = some c) : loadClass env name m = (.ok c, m) := by
  obtain ⟨bound, hbound⟩ := env.loadBound_eq_succ
  unfold loadClass
  rw [hbound]
  unfold loadClassWithin
  rw [bind_of_ok (findClass_run name m), h]
  rfl

/-- Adding a class under a new name stores its class object first. -/
theorem addClass_eq_ok {name : String} {make : ClassId → Handle → Class}
    {named : ∀ id classObject, (make id classObject).name = name}
    (hnew : m.classes.find? name = none) (h : addClass name make named m = (.ok c, m')) :
    ∃ classObject heap, m.heap.allocate (.classObject m.classes.size) = (some classObject, heap) ∧
      c = make m.classes.size classObject ∧
      m' = { m with heap, classes := m.classes.push c } := by
  unfold addClass at h
  rw [bind_of_ok (findClass_run name m), hnew] at h
  dsimp only at h
  rw [bind_of_ok (classes_run m)] at h
  obtain ⟨classObject, m₁, hstored, happend⟩ := bind_eq_ok_iff.mp h
  rcases allocate_run_cases (.classObject m.classes.size) m with
    ⟨_, _, hrun⟩ | ⟨handle, heap, hheap, hrun⟩
  · rw [hrun] at hstored
    cases hstored
  · rw [hrun] at hstored
    cases hstored
    rw [appendClass_run] at happend
    cases happend
    exact ⟨classObject, heap, hheap, rfl, rfl⟩

/-- The names of the direct supertypes. -/
def ClassDeclaration.supertypes (d : ClassDeclaration) : List String :=
  d.superclass.toList ++ d.interfaces

theorem loadSuperclass_of_find? {superclass : Option Class}
    (hfound : ∀ name ∈ d.supertypes, (m.classes.find? name).isSome = true)
    (h : loadSuperclass (loadClass env) d m = (.ok superclass, m')) :
    m' = m ∧ superclass = d.superclass.bind m.classes.find? ∧
      ∀ s, superclass = some s → s.isSealed = false := by
  unfold loadSuperclass at h
  cases hd : d.superclass with
  | none =>
    rw [hd] at h
    cases h
    exact ⟨rfl, rfl, fun s hs => by cases hs⟩
  | some name =>
    -- The superclass has been loaded before, so loading it gives it as it is.
    have hsome := hfound name (by simp [ClassDeclaration.supertypes, hd])
    obtain ⟨s, hs⟩ := Option.isSome_iff_exists.mp hsome
    rw [hd] at h
    dsimp only at h
    rw [bind_of_ok (loadClass_of_find? env hs)] at h
    split at h
    · cases h
    · rename_i hsealed
      cases h
      refine ⟨rfl, by simp [hs], fun s' hs' => ?_⟩
      rw [Option.some.injEq] at hs'
      rw [← hs']
      simpa using hsealed

theorem loadInterfaces_of_find? {names : List String} {interfaces : List Class}
    (hfound : ∀ name ∈ names, (m.classes.find? name).isSome = true)
    (h : forEach (loadInterface (loadClass env) d) names m = (.ok interfaces, m')) :
    m' = m ∧ interfaces = names.filterMap m.classes.find? ∧
      ∀ i ∈ interfaces, i.isInterface = true := by
  induction names generalizing interfaces m' with
  | nil =>
    cases h
    exact ⟨rfl, rfl, by simp⟩
  | cons name names ih =>
    obtain ⟨i, hi⟩ := Option.isSome_iff_exists.mp (hfound name List.mem_cons_self)
    obtain ⟨i', m₁, hfirst, hrest⟩ := bind_eq_ok_iff.mp h
    unfold loadInterface at hfirst
    -- The interface is in the table, so that the machine does not change here.
    rw [bind_of_ok (loadClass_of_find? env hi)] at hfirst
    split at hfirst
    · rename_i hinterface
      cases hfirst
      obtain ⟨is, m₂, his, hlast⟩ := bind_eq_ok_iff.mp hrest
      obtain ⟨rfl, rfl, hall⟩ := ih (fun n hn => hfound n (List.mem_cons_of_mem _ hn)) his
      cases hlast
      refine ⟨rfl, by simp [hi], ?_⟩
      intro j hj
      rcases List.mem_cons.mp hj with rfl | hj
      · exact hinterface
      · exact hall j hj
    · cases hfirst

/-- The class is laid out from the declaration over the table, with the supertypes
    that the table has under the names of the declaration. -/
def Class.MadeFrom (c : Class) (d : ClassDeclaration) (t : ClassTable) : Prop :=
  ∃ layout classObject,
    Layout.ofDeclaration t d (d.superclass.bind t.find?) (d.interfaces.filterMap t.find?) =
      .ok layout ∧
    (∀ s, d.superclass.bind t.find? = some s → s.isSealed = false) ∧
    (∀ i ∈ d.interfaces.filterMap t.find?, i.isInterface = true) ∧
    c = layout.toClass t.size classObject

/-- A new class whose supertypes are there is made from its declaration. -/
theorem defineClass_eq_ok (hnew : m.classes.find? d.name = none)
    (hfound : ∀ name ∈ d.supertypes, (m.classes.find? name).isSome = true)
    (h : defineClass env d m = (.ok c, m')) :
    c.MadeFrom d m.classes ∧ m'.classes = m.classes.push c := by
  unfold defineClass defineClassWith at h
  rw [bind_of_ok (findClass_run d.name m), hnew] at h
  dsimp only at h
  obtain ⟨superclass, m₁, hsuper, h⟩ := bind_eq_ok_iff.mp h
  -- Both kinds of supertypes are there, so nothing is loaded and the table is still `m.classes`.
  obtain ⟨rfl, rfl, hsealed⟩ := loadSuperclass_of_find? hfound hsuper
  obtain ⟨interfaces, m₂, hinterfaces, h⟩ := bind_eq_ok_iff.mp h
  obtain ⟨rfl, rfl, hinterface⟩ := loadInterfaces_of_find?
    (fun name hname => hfound name (List.mem_append_right _ hname)) hinterfaces
  rw [bind_of_ok (classes_run m₂)] at h
  obtain ⟨layout, m₃, hlayout, h⟩ := bind_eq_ok_iff.mp h
  cases hlaid : Layout.ofDeclaration m₂.classes d (d.superclass.bind m₂.classes.find?)
      (d.interfaces.filterMap m₂.classes.find?) with
  | error e =>
    rw [hlaid] at hlayout
    cases hlayout
  | ok layout' =>
    rw [hlaid] at hlayout
    cases hlayout
    have hname : m₂.classes.find? layout.declaration.name = none := by
      rw [(Layout.ofDeclaration_eq_ok hlaid).1]
      exact hnew
    obtain ⟨classObject, heap, _, rfl, rfl⟩ := addClass_eq_ok hname h
    exact ⟨⟨layout, classObject, hlaid, hsealed, hinterface, rfl⟩, rfl⟩

/-- A class that is made from a declaration fits the table. -/
theorem Class.MadeFrom.fits {t : ClassTable} (h : c.MadeFrom d t)
    (hids : ∀ {i c}, t.get? i = some c → c.id = i) : c.Fits t := by
  obtain ⟨layout, classObject, hlaid, hsealed, hinterface, rfl⟩ := h
  obtain ⟨_, hs, hi, _⟩ := Layout.ofDeclaration_eq_ok hlaid
  refine Layout.fits_toClass hids classObject ?_ ?_
  · intro s hs'
    rw [hs] at hs'
    obtain ⟨name, _, hname⟩ := Option.bind_eq_some_iff.mp hs'
    exact ⟨ClassTable.mem_of_find? hname, hsealed s hs'⟩
  · intro i hi'
    rw [hi] at hi'
    obtain ⟨name, _, hname⟩ := List.mem_filterMap.mp hi'
    exact ⟨ClassTable.mem_of_find? hname, hinterface i hi'⟩

theorem Class.MadeFrom.name_eq {t : ClassTable} (h : c.MadeFrom d t) : c.name = d.name := by
  obtain ⟨layout, classObject, hlaid, _, _, rfl⟩ := h
  obtain ⟨hd, _⟩ := Layout.ofDeclaration_eq_ok hlaid
  simp [Layout.toClass, hd]

theorem Class.MadeFrom.id_eq {t : ClassTable} (h : c.MadeFrom d t) : c.id = t.size := by
  obtain ⟨layout, classObject, _, _, _, rfl⟩ := h
  rfl

/-! ## The core declarations -/

/-- The table has, under its name, a class that was made from the declaration over an
    earlier table. -/
def ClassTable.HasDeclared (t : ClassTable) (d : ClassDeclaration) : Prop :=
  ∃ (t₀ : ClassTable) (c : Class), (∀ {name c}, t₀.find? name = some c → t.find? name = some c) ∧
    c.MadeFrom d t₀ ∧ t.find? d.name = some c

theorem ClassTable.HasDeclared.push {t : ClassTable} (h : t.HasDeclared d)
    (hnew : t.find? c.name = none) : (t.push c).HasDeclared d := by
  obtain ⟨t₀, c', hsub, hmade, hfind⟩ := h
  exact ⟨t₀, c', fun h => ClassTable.find?_push_of_find? (hsub h) hnew, hmade,
    ClassTable.find?_push_of_find? hfind hnew⟩

/-- A class that is made from a declaration with a new name keeps the table linked. -/
theorem Class.MadeFrom.linked_push {t : ClassTable} (h : c.MadeFrom d t) (hlinked : t.Linked)
    (hnew : t.find? d.name = none) : (t.push c).Linked :=
  hlinked.push h.id_eq (by rw [h.name_eq]; exact hnew) (h.fits hlinked.ids)

/-- The table has a declaration from when the class made from it is added. -/
theorem Class.MadeFrom.hasDeclared_push {t : ClassTable} (h : c.MadeFrom d t)
    (hlinked : t.Linked) (hnew : t.find? d.name = none) : (t.push c).HasDeclared d := by
  have hget : (t.push c).get? c.id = some c := by
    rw [h.id_eq]
    exact t.get?_push_size c
  have hfind : (t.push c).find? d.name = some c :=
    (h.linked_push hlinked hnew).find?_eq_some_iff.mpr ⟨hget, h.name_eq⟩
  have hname : t.find? c.name = none := by
    rw [h.name_eq]
    exact hnew
  exact ⟨t, c, fun h => ClassTable.find?_push_of_find? h hname, h, hfind⟩

/-- The declarations have new names, and supertypes among the names seen before. -/
def definable : List String → List ClassDeclaration → Bool
  | _, [] => true
  | seen, d :: ds =>
      !seen.contains d.name && d.supertypes.all seen.contains && definable (d.name :: seen) ds

/-- Which names are found in a table with one more class. -/
theorem ClassTable.find?_push_isSome (t : ClassTable) (c : Class) (name : String) :
    ((t.push c).find? name).isSome = (name == c.name || (t.find? name).isSome) := by
  rw [ClassTable.find?_push]
  cases name == c.name <;> rfl

/-- Definable declarations are all defined, their names are found from then on and no
    others, and the table stays linked. -/
theorem forEach_defineClass {ds : List ClassDeclaration} {seen : List String} {cs : List Class}
    (hdefinable : definable seen ds = true) (hlinked : m.classes.Linked)
    (hseen : ∀ name, (m.classes.find? name).isSome = seen.contains name)
    (h : forEach (defineClass env) ds m = (.ok cs, m')) :
    m'.classes.Linked ∧ (∀ {d}, m.classes.HasDeclared d → m'.classes.HasDeclared d) ∧
      (∀ d ∈ ds, m'.classes.HasDeclared d) ∧
      ∀ name, (m'.classes.find? name).isSome = true → name ∈ seen ∨ name ∈ ds.map (·.name) := by
  induction ds generalizing m seen cs with
  | nil =>
    cases h
    refine ⟨hlinked, fun h => h, by simp, fun name hname => Or.inl ?_⟩
    rw [hseen] at hname
    simpa using hname
  | cons d ds ih =>
    simp only [definable, Bool.and_eq_true, Bool.not_eq_true', List.all_eq_true] at hdefinable
    obtain ⟨⟨hname, hsupers⟩, hrest⟩ := hdefinable
    obtain ⟨c, m₁, hdefine, h⟩ := bind_eq_ok_iff.mp h
    obtain ⟨cs', m₂, htail, hlast⟩ := bind_eq_ok_iff.mp h
    cases hlast
    -- Exactly the names in `seen` are taken, and the name of `d` is none of them.
    have hnew : m.classes.find? d.name = none := by
      have hnone := hseen d.name
      rw [hname] at hnone
      simpa using hnone
    obtain ⟨hmade, hpush⟩ := defineClass_eq_ok hnew
      (fun name hn => by rw [hseen]; exact hsupers name hn) hdefine
    have hlinked₁ : m₁.classes.Linked := by
      rw [hpush]
      exact hmade.linked_push hlinked hnew
    have hseen₁ : ∀ name, (m₁.classes.find? name).isSome = (d.name :: seen).contains name := by
      intro name
      rw [hpush, ClassTable.find?_push_isSome, hseen, hmade.name_eq, List.contains_cons]
    obtain ⟨hlinked', hkept, hall, hnames⟩ := ih hrest hlinked₁ hseen₁ htail
    have hpushed : ∀ {d}, m.classes.HasDeclared d → m₁.classes.HasDeclared d := by
      intro d' hd'
      rw [hpush]
      exact hd'.push (by rw [hmade.name_eq]; exact hnew)
    have hall' : ∀ name, (m'.classes.find? name).isSome = true →
        name ∈ seen ∨ name ∈ (d :: ds).map (·.name) := by
      intro name hname
      rcases hnames name hname with hname | hname
      · rcases List.mem_cons.mp hname with rfl | hname
        · exact Or.inr List.mem_cons_self
        · exact Or.inl hname
      · exact Or.inr (List.mem_cons_of_mem _ hname)
    refine ⟨hlinked', fun hd => hkept (hpushed hd), ?_, hall'⟩
    intro d' hd'
    rcases List.mem_cons.mp hd' with rfl | hd'
    · refine hkept ?_
      rw [hpush]
      exact hmade.hasDeclared_push hlinked hnew
    · exact hall d' hd'

theorem definable_declarations : definable [] CoreClasses.declarations = true := by
  decide +kernel

/-- After the declared classes, startup goes on through changes. -/
theorem start_declared {config : HeapConfig} (h : Machine.start env config = .ok m) :
    ∃ m₁, m₁.classes.Linked ∧ (∀ d ∈ CoreClasses.declarations, m₁.classes.HasDeclared d) ∧
      ∀ rule, Changes rule m₁ m := by
  have hcore := Machine.start_eq_ok_iff.mp h
  obtain ⟨cs, m₁, hdeclared, hothers⟩ := bind_eq_ok_iff.mp hcore
  obtain ⟨hlinked, _, hall, _⟩ := forEach_defineClass definable_declarations
    ClassTable.linked_empty (fun name => rfl) hdeclared
  exact ⟨m₁, hlinked, hall, fun rule => (changing_defineOtherClasses rule env).of_run hothers⟩

/-! ## What core classes are -/

/-- The parts of a class that its declaration and its supertypes determine. -/
theorem Class.MadeFrom.parts {t : ClassTable} (h : c.MadeFrom d t) :
    c.access = d.access ∧ c.kind = .object ∧
      c.superclasses = superclassChain (d.superclass.bind t.find?) ∧
      c.itable = interfaceTable (d.superclass.bind t.find?) (d.interfaces.filterMap t.find?) := by
  obtain ⟨layout, classObject, hlaid, _, _, rfl⟩ := h
  obtain ⟨hd, hs, hi, _⟩ := Layout.ofDeclaration_eq_ok hlaid
  simp [Layout.toClass, hd, hs, hi]

/-- An interface that only extends the root has no interfaces. -/
theorem ClassTable.HasDeclared.marker {t : ClassTable} {name : String}
    (h : t.HasDeclared (ClassDeclaration.interface name))
    (hobject : ∃ c, t.find? ClassDeclaration.objectName = some c ∧ c.itable = []) :
    ∃ c, t.find? name = some c ∧ c.isInterface = true ∧ c.itable = [] := by
  obtain ⟨t₀, c, hsub, hmade, hfind⟩ := h
  obtain ⟨haccess, _, _, hitable⟩ := hmade.parts
  have hinterface : c.isInterface = true := by
    unfold Class.isInterface
    rw [haccess]
    show Access.has (Access.publicFlag ||| Access.interfaceFlag ||| Access.abstractFlag)
      Access.interfaceFlag = true
    decide
  refine ⟨c, hfind, hinterface, ?_⟩
  obtain ⟨object, hobject, hempty⟩ := hobject
  rw [hitable]
  show interfaceTable (t₀.find? ClassDeclaration.objectName) [] = []
  -- The table in which it was laid out may not have the root yet; then nothing is inherited.
  cases hroot : t₀.find? ClassDeclaration.objectName with
  | none => rfl
  | some s =>
    have hs := hsub hroot
    rw [hobject, Option.some.injEq] at hs
    simp [interfaceTable, ← hs, hempty]

theorem ClassTable.core_of_hasDeclared {t : ClassTable}
    (h : ∀ d ∈ CoreClasses.declarations, t.HasDeclared d) : t.Core := by
  have hobject : ∃ c, t.find? ClassDeclaration.objectName = some c ∧ c.IsOrdinary ∧
      c.superclasses = [] ∧ c.itable = [] := by
    obtain ⟨t₀, c, _, hmade, hfind⟩ := h CoreClasses.object (by simp [CoreClasses.declarations])
    obtain ⟨haccess, hkind, hsuperclasses, hitable⟩ := hmade.parts
    refine ⟨c, hfind, ⟨?_, ?_, ?_⟩, hsuperclasses, hitable⟩
    · unfold Class.isInterface
      rw [haccess]
      decide
    · simp [Class.isArray, hkind]
    · simp [Class.isPrimitive, hkind]
  have hroot : ∃ c, t.find? ClassDeclaration.objectName = some c ∧ c.itable = [] :=
    hobject.imp (fun _ hc => ⟨hc.1, hc.2.2.2⟩)
  refine ⟨hobject, ?_, ?_⟩
  · exact (h _ (by simp [CoreClasses.declarations])).marker hroot
  · exact (h _ (by simp [CoreClasses.declarations, CoreClasses.serializableName])).marker hroot

/-! ## Runs -/

/-- The table is linked, and the core classes are in it. -/
structure ClassTable.Started (t : ClassTable) : Prop extends t.Linked where
  declared : ∀ d ∈ CoreClasses.declarations, t.HasDeclared d

theorem Change.started {rule : Discipline} (h : Change rule m m') (hm : m.classes.Started) :
    m'.classes.Started := by
  rcases h.classes_cases with he | ⟨c, hadmits, he⟩
  · rw [he]
    exact hm
  · rw [he]
    have hfits := hadmits.fits hm.ids (ClassTable.core_of_hasDeclared hm.declared)
    exact ⟨hm.toLinked.push hadmits.id_eq hadmits.find?_name hfits,
      fun d hd => (hm.declared d hd).push hadmits.find?_name⟩

theorem Machine.Reachable.started {rule : Discipline} (h : m.Reachable rule) :
    m.classes.Started := by
  obtain ⟨env, config, m₀, hstart, hrun⟩ := h
  obtain ⟨m₁, hlinked, hdeclared, hchanges⟩ := start_declared hstart
  exact ((hchanges rule).trans hrun.changes).keeps (P := fun m => m.classes.Started)
    Change.started ⟨hlinked, hdeclared⟩

theorem Machine.Reachable.sound {rule : Discipline} (h : m.Reachable rule) : m.Sound := by
  obtain ⟨config, hchanges⟩ := h.changes
  exact hchanges.sound (Machine.sound_bare config)

/-- What the bare machine has, and changes of sound machines keep. -/
theorem Machine.Reachable.of_changes {rule : Discipline} {P : Machine → Prop}
    (h : m.Reachable rule) (hbare : ∀ config, P (Machine.bare config))
    (hchange : ∀ {m₁ m₂}, Change rule m₁ m₂ → m₁.Sound → P m₁ → P m₂) : P m := by
  obtain ⟨config, hchanges⟩ := h.changes
  have hboth := hchanges.keeps (P := fun m => m.Sound ∧ P m)
    (fun hstep hm => ⟨hstep.sound hm.1, hchange hstep hm.1 hm.2⟩)
    ⟨Machine.sound_bare config, hbare config⟩
  exact hboth.2

/-- What every class has that is added to classes that have it. -/
theorem Machine.Reachable.forall_classes {rule : Discipline} {P : Class → Prop}
    (h : m.Reachable rule)
    (hadds : ∀ {t : ClassTable} {c : Class}, t.Admits c →
      (∀ {i d}, t.get? i = some d → d.id = i) → (∀ d ∈ t.classes, P d) → P c) :
    ∀ c ∈ m.classes.classes, P c := by
  refine h.of_changes (P := fun m => ∀ c ∈ m.classes.classes, P c) ?_ ?_
  · intro config c hc
    exact absurd hc (Array.not_mem_empty c)
  · intro m₁ m₂ hchange hsound hm
    rcases hchange.classes_cases with he | ⟨d, hadmits, he⟩
    · rw [he]
      exact hm
    · rw [he]
      intro c hc
      rcases Array.mem_push.mp hc with hold | rfl
      · exact hm c hold
      · exact hadds hadmits hsound.ids hm

end Linkage
