import Linkage.Proofs.PoolIndices

/-! # Where classes come from

    Startup defines the core classes, and after that classes are read from class files,
    unless outside code declares one by itself. Array classes are made along the way.

    * `Class.Origin`: the class is laid out from a class file or a core declaration, or it
      is a primitive class or an array class.
    * Startup, loading and deriving classes lead to no others (`Machine.Original`).
    * Such a class has at most 65535 methods, since a class file counts them in 16 bits. -/

namespace Linkage

open Link

/-- The class is laid out from the declaration. -/
def Class.LaidOutFrom (c : Class) (d : ClassDeclaration) : Prop :=
  ∃ t superclass interfaces layout id classObject,
    Layout.ofDeclaration t d superclass interfaces = .ok layout ∧
      c = layout.toClass id classObject

/-- The class was read from a class file or is of the kind that startup defines. -/
inductive Class.Origin : Class → Prop where
  | file {c : Class} {bytes : Text.Bytes} {d : ClassDeclaration}
      (declares : declarationOf bytes = .ok d) (laid : c.LaidOutFrom d) : c.Origin
  | core {c : Class} {d : ClassDeclaration} (core : d ∈ CoreClasses.declarations)
      (laid : c.LaidOutFrom d) : c.Origin
  | primitive (p : Primitive) (id : ClassId) (classObject : Handle) :
      (Class.ofPrimitive p id classObject).Origin
  | array (name : String) (component object cloneable serializable : Class) (id : ClassId)
      (classObject : Handle) :
      (Class.ofArray name component object cloneable serializable id classObject).Origin

/-- All classes come from class files or from startup. -/
def Machine.Original (m : Machine) : Prop :=
  ∀ c ∈ m.classes.classes, c.Origin

/-! ## Counting methods -/

namespace ClassFile

theorem length_methods_of_parse {file : ClassFile} {bytes : Text.Bytes}
    (h : parse bytes = .ok file) : file.methods.length ≤ 65535 := by
  have hyields : Yields (fun file => file.methods.length ≤ 65535) readFile := by
    refine yields_bind (fun found => ?_)
    split
    · intro bytes file rest hread
      obtain ⟨_, _, hthrow, _⟩ := reader_bind_eq_ok hread
      cases hthrow
    refine yields_bind (fun minor => yields_bind (fun major => yields_bind (fun pool => ?_)))
    refine yields_bind (fun access => yields_bind (fun thisClass => ?_))
    refine yields_bind (fun superClass => yields_bind (fun interfaces => ?_))
    -- The number of methods is stored in 16 bits.
    refine yields_bind (fun fields => yields_bind_of (yields_counted (yields_any readMember)) ?_)
    intro methods hmethods
    exact yields_bind (fun attributes => yields_pure hmethods.1)
  obtain ⟨table, hread⟩ := readFile_of_parse h
  have hmethods := hyields _ _ _ hread
  exact hmethods

end ClassFile

theorem length_of_mapM {ε α β : Type} {f : α → Except ε β} {as : List α} {bs : List β}
    (h : as.mapM f = .ok bs) : bs.length = as.length := by
  induction as generalizing bs with
  | nil =>
    cases h
    rfl
  | cons a as ih =>
    rw [List.mapM_cons] at h
    obtain ⟨b, _, h⟩ := except_bind_eq_ok h
    obtain ⟨bs', hbs, h⟩ := except_bind_eq_ok h
    cases h
    rw [List.length_cons, List.length_cons, ih hbs]

theorem ClassDeclaration.length_methods_of_ofFile {file : ClassFile} {d : ClassDeclaration}
    (h : ofFile file = .ok d) : d.methods.length = file.methods.length := by
  obtain ⟨name, _, h⟩ := except_bind_eq_ok h
  dsimp only at h
  -- The rest is the same with and without a superclass.
  split at h <;>
  · obtain ⟨superclass, _, h⟩ := except_bind_eq_ok h
    obtain ⟨interfaces, _, h⟩ := except_bind_eq_ok h
    obtain ⟨fields, _, h⟩ := except_bind_eq_ok h
    obtain ⟨methods, hmethods, h⟩ := except_bind_eq_ok h
    obtain ⟨constants, _, h⟩ := except_bind_eq_ok h
    cases h
    exact length_of_mapM hmethods

theorem Class.LaidOutFrom.size_methods {c : Class} {d : ClassDeclaration}
    (h : c.LaidOutFrom d) : c.methods.size = d.methods.length := by
  obtain ⟨t, superclass, interfaces, layout, id, classObject, hlaid, rfl⟩ := h
  obtain ⟨_, _, _, _, hmethods⟩ := Layout.ofDeclaration_eq_ok hlaid
  have hnames := congrArg List.length (MethodLayout.names_foldlM hmethods)
  simpa [MethodLayout.start, Layout.toClass] using hnames

/-- Places of methods fit 16 bits. -/
theorem Class.Origin.size_methods {c : Class} (h : c.Origin) : c.methods.size ≤ 65535 := by
  cases h with
  | file declares laid =>
    obtain ⟨file, hparse, hfile⟩ := except_bind_eq_ok declares
    rw [laid.size_methods, ClassDeclaration.length_methods_of_ofFile hfile]
    exact ClassFile.length_methods_of_parse hparse
  | core core laid =>
    have hshort : ∀ d ∈ CoreClasses.declarations, d.methods.length ≤ 65535 := by decide
    rw [laid.size_methods]
    exact hshort _ core
  | primitive p id classObject => exact Nat.zero_le _
  | array name component object cloneable serializable id classObject => exact Nat.zero_le _

/-! ## Startup and loading -/

section Loading

variable {α : Type} {env : Environment} {load : String → Link Class}

theorem keeps_original_of_classes {x : Link α} (h : ∀ m, (x m).2.classes = m.classes) :
    Keeps Machine.Original x := by
  intro m hm
  unfold Machine.Original
  rw [h m]
  exact hm

theorem keeps_original_coreClass (name : String) : Keeps Machine.Original (coreClass name) := by
  refine keeps_original_of_classes (fun m => ?_)
  unfold coreClass
  rw [bind_of_ok (findClass_run name m)]
  cases m.classes.find? name <;> rfl

theorem keeps_original_addClass {name : String} {make : ClassId → Handle → Class}
    (named : ∀ id classObject, (make id classObject).name = name)
    (hmake : ∀ id classObject, (make id classObject).Origin) :
    Keeps Machine.Original (addClass name make named) := by
  intro m hm
  unfold addClass
  rw [bind_of_ok (findClass_run name m)]
  cases m.classes.find? name with
  | some c => exact hm
  | none =>
    refine keeps_bind_of_ok (x := classes) (fun _ hm => hm) ?_ m hm
    intro m₁ table m₂ _
    refine keeps_bind (keeps_original_of_classes (fun m => by rw [allocate_run])) ?_
    intro classObject m₃ hm₃ c hc
    rcases Array.mem_push.mp hc with hold | rfl
    · exact hm₃ c hold
    · exact hmake _ _

theorem keeps_original_defineClassWith (hload : ∀ name, Keeps Machine.Original (load name))
    {d : ClassDeclaration} (hd : ∀ c : Class, c.LaidOutFrom d → c.Origin) :
    Keeps Machine.Original (defineClassWith load d) := by
  refine keeps_bind (fun _ hm => hm) (fun found => ?_)
  cases found with
  | some c => exact fun _ hm => hm
  | none =>
    -- Loading supertypes keeps the origins of the classes that are there.
    have hsuper : Keeps Machine.Original (loadSuperclass load d) := by
      unfold loadSuperclass
      cases d.superclass with
      | none => exact fun _ hm => hm
      | some name =>
        refine keeps_bind (hload name) (fun s => ?_)
        split <;> exact fun _ hm => hm
    have hinterface : ∀ name, Keeps Machine.Original (loadInterface load d name) := by
      intro name
      refine keeps_bind (hload name) (fun i => ?_)
      split <;> exact fun _ hm => hm
    refine keeps_bind hsuper (fun superclass => ?_)
    refine keeps_bind (keeps_forEach (fun name _ => hinterface name)) (fun interfaces => ?_)
    refine keeps_bind (fun _ hm => hm) (fun table => ?_)
    cases hlaid : Layout.ofDeclaration table d superclass interfaces with
    | error e => exact fun _ hm => hm
    | ok layout =>
      change Keeps _ (addClass layout.declaration.name layout.toClass (fun _ _ => rfl))
      exact keeps_original_addClass _
        (fun id classObject => hd _ ⟨_, _, _, _, id, classObject, hlaid, rfl⟩)

theorem keeps_original_deriveClassWith (hload : ∀ name, Keeps Machine.Original (load name))
    (bytes : Text.Bytes) : Keeps Machine.Original (deriveClassWith load bytes) := by
  unfold deriveClassWith
  split
  · rename_i d hd
    exact keeps_original_defineClassWith hload (fun c hc => .file hd hc)
  · exact fun _ hm => hm

theorem keeps_original_defineArrayClass (component : Class) :
    Keeps Machine.Original (defineArrayClass component) := by
  unfold defineArrayClass
  split
  · exact fun _ hm => hm
  · refine keeps_bind (fun _ hm => hm) (fun table => keeps_bind (fun _ hm => hm) (fun found => ?_))
    cases found with
    | some c => exact fun _ hm => hm
    | none =>
      refine keeps_bind (keeps_original_coreClass _) (fun object => ?_)
      refine keeps_bind (keeps_original_coreClass _) (fun cloneable => ?_)
      refine keeps_bind (keeps_original_coreClass _) (fun serializable => ?_)
      exact keeps_original_addClass _ (fun id classObject => .array _ _ _ _ _ id classObject)

theorem keeps_original_classOfTypeWith (hload : ∀ name, Keeps Machine.Original (load name))
    (t : TypeDescriptor) : Keeps Machine.Original (classOfTypeWith load t) := by
  induction t with
  | primitive p => exact hload _
  | object name => exact hload _
  | array component ih =>
    refine keeps_bind (fun _ hm => hm) (fun found => ?_)
    cases found with
    | some c => exact fun _ hm => hm
    | none => exact keeps_bind ih keeps_original_defineArrayClass

theorem keeps_original_loadFile (hload : ∀ name, Keeps Machine.Original (load name))
    (name : String) : Keeps Machine.Original (loadFile env load name) := by
  have hfile : Keeps Machine.Original
      (orFail (env.classPath.find? name) (.classNotFound name)) := by
    cases env.classPath.find? name <;> exact fun _ hm => hm
  refine keeps_bind hfile (fun bytes => ?_)
  refine keeps_bind (x := view Machine.loading) (fun _ hm => hm) (fun loading => ?_)
  split
  · exact fun _ hm => hm
  · -- The list of the classes that are being loaded is no part of the class table.
    have hderive : Keeps Machine.Original (whileLoading name (deriveClassWith load bytes)) :=
      fun m hm => keeps_original_deriveClassWith hload bytes
        { m with loading := name :: m.loading } hm
    refine keeps_bind hderive (fun c => ?_)
    split <;> exact fun _ hm => hm

/-- Loading a class leads to classes from files and to array classes. -/
theorem keeps_original_loadClassWithin (env : Environment) (bound : Nat) (name : String) :
    Keeps Machine.Original (loadClassWithin env bound name) := by
  induction bound generalizing name with
  | zero => exact fun _ hm => hm
  | succ bound ih =>
    refine keeps_bind (fun _ hm => hm) (fun found => ?_)
    cases found with
    | some c => exact fun _ hm => hm
    | none =>
      dsimp only
      split
      · split
        · exact keeps_bind (keeps_original_classOfTypeWith ih _) keeps_original_defineArrayClass
        · exact fun _ hm => hm
      · exact keeps_original_loadFile ih name

theorem keeps_original_loadClass (env : Environment) (name : String) :
    Keeps Machine.Original (loadClass env name) :=
  keeps_original_loadClassWithin env env.loadBound name

/-- Deriving a class leads to it and to what loading its supertypes leads to. -/
theorem keeps_original_deriveClass (env : Environment) (bytes : Text.Bytes) :
    Keeps Machine.Original (deriveClass env bytes) :=
  keeps_original_deriveClassWith (keeps_original_loadClass env) bytes

/-- The classes of a machine that has been started are those of startup. -/
theorem Machine.original_of_start {config : HeapConfig} {m : Machine}
    (h : Machine.start env config = .ok m) : m.Original := by
  have hcore : Keeps Machine.Original (defineCoreClasses env) := by
    refine keeps_bind (keeps_forEach (fun d hd => ?_)) (fun _ => ?_)
    · exact keeps_original_defineClassWith (keeps_original_loadClass env)
        (fun c hc => .core hd hc)
    · refine keeps_bind (keeps_forEach (fun p _ => ?_)) (fun _ => ?_)
      · exact keeps_original_addClass _ (fun id classObject => .primitive p id classObject)
      · exact keeps_bind (keeps_original_loadClass env _) (fun _ _ hm => hm)
  have hbare : (Machine.bare config).Original := by
    intro c hc
    simp [Machine.bare, ClassTable.empty] at hc
  have hstarted := hcore _ hbare
  rw [Machine.start_eq_ok_iff.mp h] at hstarted
  exact hstarted

end Loading

end Linkage
