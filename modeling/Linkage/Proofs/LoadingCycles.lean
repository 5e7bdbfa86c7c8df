import Mathlib.Logic.Relation
import Linkage.ClassFile.Encoding
import Linkage.Proofs.Dispatch
import Linkage.Proofs.LoadingEnds

/-! # Circular supertypes

    A class is defined after its supertypes. So of a set of names where each needs
    another one of the set, none can be the first to be defined: while none of them is
    registered, loads of them fail, and all other loads leave them unregistered. The
    names on a cycle of supertypes are such a set.

    * `Environment.Unfounded env I`: each name of `I` has a file that declares a class
      with a supertype in `I`.
    * `Link.Spares I x`: the action registers no name of `I`.
    * `Link.Refuses I x`: it does not end with a value either.
    * `Environment.OnCycle env name n`: supertypes lead from `name` to `n` and back. -/

namespace Linkage

open Link

variable {α β : Type} {I : String → Prop} {env : Environment} {name : String} {m : Machine}
  {load : String → Link Class}

/-! ## Names that stay unregistered -/

/-- No class has one of the names. -/
def Machine.Lacks (m : Machine) (I : String → Prop) : Prop :=
  ∀ n, I n → m.classes.find? n = none

/-- Where no class has one of the names, none has one after the action. -/
def Link.Spares (I : String → Prop) (x : Link α) : Prop :=
  ∀ m : Machine, m.Lacks I → (x m).2.Lacks I

/-- Where no class has one of the names, the action has no value, and no class has one
    afterwards. -/
def Link.Refuses (I : String → Prop) (x : Link α) : Prop :=
  ∀ m : Machine, m.Lacks I → (x m).2.Lacks I ∧ ∀ a, (x m).1 ≠ .ok a

theorem Link.Refuses.spares {x : Link α} (hx : Refuses I x) : Spares I x :=
  fun m hm => (hx m hm).1

theorem spares_of_keeps {x : Link α} (hx : ∀ m, (x m).2.classes = m.classes) : Spares I x := by
  intro m hm n hn
  rw [hx m]
  exact hm n hn

theorem spares_pure (a : α) : Spares I (pure a : Link α) := spares_of_keeps (fun _ => rfl)

theorem spares_fail (e : LinkError) : Spares I (fail e : Link α) := spares_of_keeps (fun _ => rfl)

theorem spares_view (f : Machine → α) : Spares I (view f) := spares_of_keeps (fun _ => rfl)

theorem spares_orFail (o : Option α) (e : LinkError) : Spares I (orFail o e) := by
  cases o with
  | none => exact spares_fail e
  | some a => exact spares_pure a

theorem spares_bind_orFail {o : Option α} {e : LinkError} {f : α → Link β}
    (hf : ∀ a, o = some a → Spares I (f a)) : Spares I (orFail o e >>= f) := by
  cases o with
  | none => exact fun _ hm => hm
  | some a => exact fun m hm => hf a rfl m hm

theorem spares_bind_ofExcept {r : Except LinkError α} {f : α → Link β}
    (hf : ∀ a, r = .ok a → Spares I (f a)) : Spares I (ofExcept r >>= f) := by
  cases r with
  | error e => exact fun _ hm => hm
  | ok a => exact fun m hm => hf a rfl m hm

theorem spares_bind {x : Link α} {f : α → Link β} (hx : Spares I x) (hf : ∀ a, Spares I (f a)) :
    Spares I (x >>= f) :=
  keeps_bind hx hf

theorem refuses_bind {x : Link α} (hx : Refuses I x) (f : α → Link β) : Refuses I (x >>= f) :=
  bars_bind hx f

theorem refuses_bind_of_spares {x : Link α} {f : α → Link β} (hx : Spares I x)
    (hf : ∀ a, Refuses I (f a)) : Refuses I (x >>= f) :=
  bars_bind_of_keeps hx hf

theorem spares_forEach {f : α → Link β} {as : List α} (hf : ∀ a ∈ as, Spares I (f a)) :
    Spares I (forEach f as) :=
  keeps_forEach hf

theorem refuses_forEach {f : α → Link β} {as : List α} (hf : ∀ a ∈ as, Spares I (f a)) {a : α}
    (ha : a ∈ as) (hrefuses : Refuses I (f a)) : Refuses I (forEach f as) :=
  bars_forEach hf ha hrefuses

/-! ## Defining -/

theorem spares_allocate (object : Object) : Spares I (allocate object) := by
  apply spares_of_keeps
  intro m
  rw [allocate_run]

theorem spares_appendClass {c : Class} (named : c.name = name) (hc : ¬ I c.name) :
    Spares I (appendClass name c named) := by
  intro m hm n hn
  have hname : (n == c.name) = false := by
    rw [beq_eq_false_iff_ne]
    intro h
    exact hc (h ▸ hn)
  rw [appendClass_run]
  have hfound := ClassTable.find?_push_isSome m.classes c n
  rw [hname, hm n hn] at hfound
  exact Option.not_isSome_iff_eq_none.mp (by simp [hfound])

theorem spares_addClass {make : ClassId → Handle → Class}
    {named : ∀ id h, (make id h).name = name} (hmake : ∀ id h, ¬ I (make id h).name) :
    Spares I (addClass name make named) := by
  refine spares_bind (spares_view _) (fun found => ?_)
  cases found with
  | some c => exact spares_pure c
  | none =>
    refine spares_bind (spares_view _) (fun table => ?_)
    exact spares_bind (spares_allocate _) (fun classObject => spares_appendClass _ (hmake _ _))

theorem spares_coreClass (name : String) : Spares I (coreClass name) :=
  spares_bind (spares_view _) (fun found => spares_orFail found _)

theorem isArrayName_append (text : String) : isArrayName ("[" ++ text) := by
  simp [isArrayName]

theorem spares_defineArrayClass (hplain : ∀ n, I n → ¬ isArrayName n) (component : Class) :
    Spares I (defineArrayClass component) := by
  unfold defineArrayClass
  split
  · exact spares_fail _
  · refine spares_bind (spares_view _) (fun table => ?_)
    refine spares_bind (spares_view _) (fun found => ?_)
    cases found with
    | some c => exact spares_pure c
    | none =>
      refine spares_bind (spares_coreClass _) (fun object => ?_)
      refine spares_bind (spares_coreClass _) (fun cloneable => ?_)
      refine spares_bind (spares_coreClass _) (fun serializable => ?_)
      refine spares_addClass (fun id h hname => ?_)
      exact hplain _ hname (isArrayName_append _)

theorem spares_classOfTypeWith (hplain : ∀ n, I n → ¬ isArrayName n)
    (hload : ∀ s, Spares I (load s)) (t : TypeDescriptor) : Spares I (classOfTypeWith load t) := by
  induction t with
  | primitive p => exact hload _
  | object name => exact hload _
  | array component ih =>
    refine spares_bind (spares_view _) (fun found => ?_)
    cases found with
    | some c => exact spares_pure c
    | none => exact spares_bind ih (fun c => spares_defineArrayClass hplain c)

section Supertypes

variable (hload : ∀ s, Spares I (load s)) (d : ClassDeclaration)

include hload

theorem spares_loadSuperclass : Spares I (loadSuperclass load d) := by
  unfold loadSuperclass
  cases d.superclass with
  | none => exact spares_pure none
  | some s =>
    refine spares_bind (hload s) (fun c => ?_)
    split
    · exact spares_fail _
    · exact spares_pure _

theorem spares_loadInterface (s : String) : Spares I (loadInterface load d s) := by
  refine spares_bind (hload s) (fun c => ?_)
  split
  · exact spares_pure c
  · exact spares_fail _

/-- Nothing follows the supertypes if one of them cannot be loaded. -/
theorem refuses_supertypes (f : Option Class → List Class → Link β) {s : String}
    (hs : s ∈ d.supertypes) (hrefuses : Refuses I (load s)) :
    Refuses I (do
      let superclass ← loadSuperclass load d
      let interfaces ← forEach (loadInterface load d) d.interfaces
      f superclass interfaces) := by
  rcases List.mem_append.mp hs with hsuper | hinterface
  · apply refuses_bind
    have hd : d.superclass = some s := by simpa using hsuper
    unfold loadSuperclass
    rw [hd]
    exact refuses_bind hrefuses _
  · -- The superclass may have been loaded before.
    refine refuses_bind_of_spares (spares_loadSuperclass hload d) (fun superclass => ?_)
    apply refuses_bind
    exact refuses_forEach (fun s _ => spares_loadInterface hload d s) hinterface
      (refuses_bind hrefuses _)

/-- A declared class gets its own name. -/
theorem spares_defineClassWith (hneeds : I d.name → ∃ s ∈ d.supertypes, Refuses I (load s)) :
    Spares I (defineClassWith load d) := by
  refine spares_bind (spares_view _) (fun found => ?_)
  cases found with
  | some c => exact spares_pure c
  | none =>
    -- A class with such a name is never reached, since one of its supertypes is refused before.
    by_cases hname : I d.name
    · obtain ⟨s, hs, hrefuses⟩ := hneeds hname
      exact (refuses_supertypes hload d _ hs hrefuses).spares
    · refine spares_bind (spares_loadSuperclass hload d) (fun superclass => ?_)
      refine spares_bind (spares_forEach (fun s _ => spares_loadInterface hload d s))
        (fun interfaces => ?_)
      refine spares_bind (spares_view _) (fun table => ?_)
      refine spares_bind_ofExcept (fun layout hlaid => ?_)
      obtain ⟨hd, _⟩ := Layout.ofDeclaration_eq_ok hlaid
      refine spares_addClass (fun id h hlayout => hname ?_)
      rw [← hd]
      exact hlayout

/-- A class that needs one of the names is not defined; it may be there already. -/
theorem find?_of_defineClassWith {s : String} (hs : s ∈ d.supertypes)
    (hrefuses : Refuses I (load s)) (hm : m.Lacks I) {c : Class}
    (h : (defineClassWith load d m).1 = .ok c) : m.classes.find? d.name = some c := by
  unfold defineClassWith at h
  rw [bind_of_ok (findClass_run d.name m)] at h
  cases hfind : m.classes.find? d.name with
  | some c' =>
    rw [hfind] at h
    cases h
    rfl
  | none =>
    rw [hfind] at h
    exact absurd h ((refuses_supertypes hload d _ hs hrefuses m hm).2 c)

end Supertypes

/-! ## Unfounded names -/

/-- The file that is found for the name declares the class. -/
def Environment.Declares (env : Environment) (n : String) (d : ClassDeclaration) : Prop :=
  ∃ bytes, env.classPath.find? n = some bytes ∧ declarationOf bytes = .ok d

/-- Class files declare the names that they are stored under. Names are stored under
    the same path if they differ in dots for slashes or in repeated slashes only. -/
def Environment.Named (env : Environment) : Prop :=
  ∀ n d, env.Declares n d →
    Directory.collapse (ClassPath.fileName d.name).toList =
      Directory.collapse (ClassPath.fileName n).toList

theorem Environment.Declares.unique {n : String} {d d' : ClassDeclaration}
    (h : env.Declares n d) (h' : env.Declares n d') : d = d' := by
  obtain ⟨bytes, hbytes, hd⟩ := h
  obtain ⟨bytes', hbytes', hd'⟩ := h'
  rw [hbytes, Option.some.injEq] at hbytes'
  subst hbytes'
  rw [hd, Except.ok.injEq] at hd'
  exact hd'

/-- The file of a class is found under the name that it declares, too. -/
theorem Environment.Named.declares (hnamed : env.Named) {n : String} {d : ClassDeclaration}
    (h : env.Declares n d) : env.Declares d.name d := by
  have hpath := hnamed n d h
  obtain ⟨bytes, hbytes, hd⟩ := h
  refine ⟨bytes, ?_, hd⟩
  unfold ClassPath.find? Directory.read? at *
  rw [hpath]
  exact hbytes

theorem head?_collapse (path : List Char) : (Directory.collapse path).head? = path.head? := by
  cases path with
  | nil => rfl
  | cons c rest =>
    unfold Directory.collapse
    dsimp only
    split
    · rename_i h
      simp only [Bool.and_eq_true, decide_eq_true_eq, beq_iff_eq] at h
      rw [h.2, h.1]
      rfl
    · rfl

/-- The path of a file shows whether its name is that of an array class. -/
theorem isArrayName_iff_head?_path (n : String) :
    isArrayName n ↔ (Directory.collapse (ClassPath.fileName n).toList).head? = some '[' := by
  rw [head?_collapse]
  unfold isArrayName ClassPath.fileName
  rw [String.toList_append, String.toList_ofList]
  cases n.toList with
  | nil => decide
  | cons c rest =>
    by_cases hdot : c = '.'
    · subst hdot
      simp
    · simp [hdot]

/-- None of the names can be registered first: each has a file that declares a class
    with a supertype among them. -/
structure Environment.Unfounded (env : Environment) (I : String → Prop) : Prop where
  plain : ∀ n, I n → ¬ isArrayName n
  needs : ∀ n, I n → ∃ d, env.Declares n d ∧ ∃ s ∈ d.supertypes, I s

theorem spares_whileLoading {x : Link α} (hx : Spares I x) (name : String) :
    Spares I (whileLoading name x) :=
  fun m hm => hx { m with loading := name :: m.loading } hm

theorem spares_loadFile
    (hderive : ∀ bytes, env.classPath.find? name = some bytes →
      Spares I (deriveClassWith load bytes)) : Spares I (loadFile env load name) := by
  refine spares_bind_orFail (fun bytes hbytes => ?_)
  refine spares_bind (spares_view _) (fun names => ?_)
  split
  · exact spares_fail _
  · refine spares_bind (spares_whileLoading (hderive bytes hbytes) name) (fun c => ?_)
    split
    · exact spares_pure c
    · exact spares_fail _

/-- The file of an unregistered name is of no use if the class needs one of the names:
    at best it leads to a class of another name, which is refused too. -/
theorem loadFile_ne_ok (hload : ∀ s, Spares I (load s)) (hm : m.Lacks I) (hname : I name)
    {d : ClassDeclaration} (hd : env.Declares name d) {s : String} (hs : s ∈ d.supertypes)
    (hrefuses : Refuses I (load s)) (c : Class) : (loadFile env load name m).1 ≠ .ok c := by
  intro hc
  have hrun : loadFile env load name m = (.ok c, (loadFile env load name m).2) :=
    Prod.ext hc rfl
  obtain ⟨bytes, _, hbytes, hsame, hderived, _⟩ := loadFile_eq_ok hrun
  obtain ⟨bytes', hbytes', hd⟩ := hd
  rw [hbytes, Option.some.injEq] at hbytes'
  subst hbytes'
  unfold declarationOf at hd
  unfold deriveClassWith at hderived
  rw [hd] at hderived
  replace hderived := congrArg Prod.fst hderived
  -- The class was there before, under the name that the file declares.
  have hfind : m.classes.find? d.name = some c :=
    find?_of_defineClassWith (m := { m with loading := name :: m.loading }) hload d hs hrefuses
      hm hderived
  have hother : d.name = name := (ClassTable.name_of_find? hfind).symm.trans hsame
  rw [hother, hm name hname] at hfind
  cases hfind

/-- Loads of unfounded names fail, and other loads leave them unregistered. The
    induction is on the bound: the loads of supertypes are the smaller ones. -/
theorem refuses_loadClassWithin (hnamed : env.Named) (hI : env.Unfounded I) (bound : Nat)
    (name : String) : Spares I (loadClassWithin env bound name) ∧
      (I name → Refuses I (loadClassWithin env bound name)) := by
  induction bound generalizing name with
  | zero => exact ⟨spares_of_keeps (fun _ => rfl), fun _ m hm => ⟨hm, fun a ha => by cases ha⟩⟩
  | succ bound ih =>
    have hload : ∀ s, Spares I (loadClassWithin env bound s) := fun s => (ih s).1
    have hderive : ∀ bytes, env.classPath.find? name = some bytes →
        Spares I (deriveClassWith (loadClassWithin env bound) bytes) := by
      intro bytes hbytes
      unfold deriveClassWith
      split
      · rename_i d hd
        refine spares_defineClassWith hload d (fun hname => ?_)
        -- The file is also that of the declared name, which is unfounded.
        obtain ⟨d', hd', s, hs, hIs⟩ := hI.needs d.name hname
        have hsame := hd'.unique (hnamed.declares ⟨bytes, hbytes, hd⟩)
        subst hsame
        exact ⟨s, hs, (ih s).2 hIs⟩
      · exact spares_fail _
    have hspares : Spares I (loadClassWithin env (bound + 1) name) := by
      refine spares_bind (spares_view _) (fun found => ?_)
      cases found with
      | some c => exact spares_pure c
      | none =>
        dsimp only
        split
        · split
          · exact spares_bind (spares_classOfTypeWith hI.plain hload _)
              (fun c => spares_defineArrayClass hI.plain c)
          · exact spares_fail _
        · exact spares_loadFile hderive
    refine ⟨hspares, fun hname m hm => ⟨hspares m hm, ?_⟩⟩
    -- Neither the class table nor an array type gives an unfounded name, so its file is opened.
    obtain ⟨d, hd, s, hs, hIs⟩ := hI.needs name hname
    rw [loadClassWithin, bind_of_ok (findClass_run name m), hm name hname]
    dsimp only
    rw [if_neg (show ¬ name.toList.head? = some '[' from hI.plain name hname)]
    exact loadFile_ne_ok hload hm hname hd hs ((ih s).2 hIs)

/-! ## Cycles -/

/-- The file that is found for the first name declares a class with the second one as a
    supertype. Array classes have no files. -/
def Environment.Supertype (env : Environment) (n s : String) : Prop :=
  ¬ isArrayName n ∧ ∃ d, env.Declares n d ∧ s ∈ d.supertypes

/-- Supertypes lead from the first name to the second and back. -/
def Environment.OnCycle (env : Environment) (name n : String) : Prop :=
  Relation.TransGen env.Supertype name n ∧ Relation.TransGen env.Supertype n name

/-- The name is on a cycle through the first name, or is declared in a file on it. -/
def Environment.Involved (env : Environment) (name x : String) : Prop :=
  env.OnCycle name x ∨ ∃ n d, env.OnCycle name n ∧ env.Declares n d ∧ d.name = x

/-- A cycle goes on from each of its names. -/
theorem Environment.OnCycle.next {n : String} (h : env.OnCycle name n) :
    ∃ s, env.Supertype n s ∧ env.OnCycle name s := by
  obtain ⟨hfrom, hto⟩ := h
  obtain ⟨s, hs, hback⟩ := Relation.TransGen.head'_iff.mp hto
  exact ⟨s, hs, hfrom.tail hs, .trans_right hback (hfrom.trans hto)⟩

/-- If no name on a cycle is registered, the unregistered names among those that it
    involves are unfounded. -/
theorem Environment.unfounded_involved (hnamed : env.Named)
    (hunregistered : ∀ n, env.OnCycle name n → m.classes.find? n = none) :
    env.Unfounded (fun x => env.Involved name x ∧ m.classes.find? x = none) where
  plain := by
    -- A name is involved if it is on the cycle, or if a file on the cycle declares it.
    rintro x ⟨hx | ⟨n, d, hn, hd, rfl⟩, _⟩
    · obtain ⟨s, hs, _⟩ := hx.next
      exact hs.1
    · obtain ⟨s, hs, _⟩ := hn.next
      rw [isArrayName_iff_head?_path, hnamed n d hd, ← isArrayName_iff_head?_path]
      exact hs.1
  needs := by
    rintro x ⟨hx | ⟨n, d, hn, hd, rfl⟩, _⟩
    · obtain ⟨s, ⟨_, d, hd, hs⟩, hcycle⟩ := hx.next
      exact ⟨d, hd, s, hs, Or.inl hcycle, hunregistered s hcycle⟩
    · obtain ⟨s, ⟨_, d', hd', hs⟩, hcycle⟩ := hn.next
      -- The class path has one file under a name, so the supertype on the cycle is one of this
      -- class.
      have hsame := hd'.unique hd
      subst hsame
      exact ⟨d', hnamed.declares hd, s, hs, Or.inl hcycle, hunregistered s hcycle⟩

/-! ## What a load does -/

/-- What is promised of a load of `name` in the machine `m` that ends with `result` in
    the machine `m'`. -/
structure LoadSpec (env : Environment) (name : String) (m : Machine)
    (result : Except Failure Class) (m' : Machine) : Prop where
  /-- There is a class or an error. -/
  ends : (∃ c, result = .ok c) ∨ ∃ e, result = .error (.thrown e)
  /-- No more loads inside each other are needed than the bound allows. -/
  bounded : ∀ bound, env.loadBound ≤ bound → loadClassWithin env bound name m = (result, m')
  /-- The same classes are being loaded as before. -/
  loading : m'.loading = m.loading
  /-- The class is the one that is registered under the name. -/
  found : ∀ c, result = .ok c → ¬ isArrayName name →
    c.name = name ∧ m'.classes.find? name = some c
  /-- A class that is its own supertype is refused, and nothing that its cycle involves
      gets registered. -/
  circular : env.Named → env.OnCycle name name →
    (∀ n, env.OnCycle name n → m.classes.find? n = none) →
    (∃ e, result = .error (.thrown e)) ∧
      ∀ x, env.Involved name x → m.classes.find? x = none → m'.classes.find? x = none

/-- In every reachable machine, with every class path, a load of any name ends, cleans up
    after itself, and answers with the class of that name or an error. -/
theorem loadClass_spec {rule : Discipline} {m : Machine} (h : m.Reachable rule)
    (env : Environment) (name : String) :
    LoadSpec env name m (loadClass env name m).1 (loadClass env name m).2 := by
  have hends := ends_loadClass env name m.loading m rfl
  refine ⟨hends.1, ?_, hends.2, ?_, ?_⟩
  · intro bound hbound
    exact loadClassWithin_eq_loadClass hbound name m
  · intro c hc hplain
    have hrun : loadClass env name m = (.ok c, (loadClass env name m).2) := Prod.ext hc rfl
    have hname := loadClass_name hplain hrun
    have hloads : Loads rule (loadClass env name) := loads_loadClass env name
    obtain ⟨hchanges, hmem⟩ := hloads m
    have hstarted := hchanges.keeps (P := fun m => m.classes.Started) Change.started h.started
    have hlinked := hstarted.toLinked
    -- Linked tables have one class for each name.
    have hget := ClassTable.get?_id hlinked.ids (hmem c _ hrun)
    exact ⟨hname, hlinked.find?_eq_some_iff.mpr ⟨hget, hname⟩⟩
  · intro hnamed hcycle hunregistered
    -- Names that are registered already are left out: there is nothing to show for them.
    have hunfounded : env.Unfounded (fun x => env.Involved name x ∧ m.classes.find? x = none) :=
      Environment.unfounded_involved hnamed hunregistered
    have hrefuses := (refuses_loadClassWithin hnamed hunfounded env.loadBound name).2
      ⟨Or.inl hcycle, hunregistered name hcycle⟩ m (fun x hx => hx.2)
    constructor
    · rcases hends.1 with ⟨c, hc⟩ | hthrown
      · exact absurd hc (hrefuses.2 c)
      · exact hthrown
    · intro x hx hnone
      exact hrefuses.1 x ⟨hx, hnone⟩

namespace Sample

/-- The file of a class without members that is constant 2, below constant 4. -/
def emptyFile (pool : Array Constant) (interfaces : List UInt16) : ClassFile :=
  { minor := 0
    major := 61
    pool
    access := 0x21
    thisClass := 2
    superClass := 4
    interfaces
    fields := []
    methods := []
    attributes := []
    bootstrapMethods := [] }

/-- A class that names its superclass with a dot. -/
def leftFile : Text.Bytes :=
  (emptyFile #[.utf8 "Left", .classRef 1, .utf8 "pkg.Right", .classRef 3] []).encode

/-- The superclass, which has the class as an interface. -/
def rightFile : Text.Bytes :=
  (emptyFile #[.utf8 "pkg/Right", .classRef 1, .utf8 "java/lang/Object", .classRef 3,
    .utf8 "Left", .classRef 5] [6]).encode

/-- Both files in one directory. -/
def ring : Environment :=
  ⟨⟨[[("Left.class", leftFile), ("pkg/Right.class", rightFile)]]⟩, none⟩

theorem leftFile_declares : Succeeds (declarationOf leftFile)
    (fun d => d.name = "Left" ∧ d.supertypes = ["pkg.Right"]) := by
  decide +kernel

theorem rightFile_declares : Succeeds (declarationOf rightFile)
    (fun d => d.name = "pkg/Right" ∧ d.supertypes = ["java/lang/Object", "Left"]) := by
  decide +kernel

/-- What the two files say, and what they are found under. -/
theorem declares_ring {n : String} {d : ClassDeclaration} (h : ring.Declares n d) :
    (d.name = "Left" ∧ d.supertypes = ["pkg.Right"] ∧
      Directory.collapse (ClassPath.fileName n).toList = "Left.class".toList) ∨
    (d.name = "pkg/Right" ∧ d.supertypes = ["java/lang/Object", "Left"] ∧
      Directory.collapse (ClassPath.fileName n).toList = "pkg/Right.class".toList) := by
  obtain ⟨bytes, hbytes, hd⟩ := h
  obtain ⟨dir, hdir, file, hfile, rfl, hpath⟩ := ClassPath.exists_file_of_find? hbytes
  rw [← hpath]
  have hdir' := List.mem_singleton.mp hdir
  subst hdir'
  rcases List.mem_cons.mp hfile with rfl | hfile
  · obtain ⟨hname, hsupertypes⟩ := leftFile_declares.of_eq_ok hd
    exact Or.inl ⟨hname, hsupertypes, by decide +kernel⟩
  · have hfile' := List.mem_singleton.mp hfile
    subst hfile'
    obtain ⟨hname, hsupertypes⟩ := rightFile_declares.of_eq_ok hd
    exact Or.inr ⟨hname, hsupertypes, by decide +kernel⟩

theorem named_ring : ring.Named := by
  intro n d h
  rcases declares_ring h with ⟨hname, _, hpath⟩ | ⟨hname, _, hpath⟩
  · rw [hpath, hname]
    decide +kernel
  · rw [hpath, hname]
    decide +kernel

theorem left_supertype : ring.Supertype "Left" "pkg.Right" := by
  obtain ⟨d, hd, _, hsupertypes⟩ := leftFile_declares
  exact ⟨by decide +kernel, d, ⟨leftFile, by decide +kernel, hd⟩, by simp [hsupertypes]⟩

theorem right_supertype : ring.Supertype "pkg.Right" "Left" := by
  obtain ⟨d, hd, _, hsupertypes⟩ := rightFile_declares
  exact ⟨by decide +kernel, d, ⟨rightFile, by decide +kernel, hd⟩, by simp [hsupertypes]⟩

theorem onCycle_left : ring.OnCycle "Left" "Left" :=
  ⟨.tail (.single left_supertype) right_supertype, .tail (.single left_supertype) right_supertype⟩

theorem onCycle_right : ring.OnCycle "Left" "pkg.Right" :=
  ⟨.single left_supertype, .single right_supertype⟩

/-- The cycle has the superclass under one name, and its file declares another. -/
theorem involved_right : ring.Involved "Left" "pkg/Right" := by
  obtain ⟨d, hd, hname, _⟩ := rightFile_declares
  exact Or.inr ⟨"pkg.Right", d, onCycle_right, ⟨rightFile, by decide +kernel, hd⟩, hname⟩

theorem eq_of_onCycle_left {n : String} (h : ring.OnCycle "Left" n) :
    n = "Left" ∨ n = "pkg.Right" := by
  obtain ⟨s, ⟨_, _, ⟨bytes, hbytes, _⟩, _⟩, _⟩ := Relation.TransGen.head'_iff.mp h.2
  obtain ⟨k, _, _, d, hd, hn⟩ := Relation.TransGen.tail'_iff.mp h.1
  rcases declares_ring hd with ⟨_, hsupertypes, _⟩ | ⟨_, hsupertypes, _⟩
  · rw [hsupertypes] at hn
    exact Or.inr (List.mem_singleton.mp hn)
  · rw [hsupertypes] at hn
    rcases List.mem_cons.mp hn with rfl | hn
    · -- There is no file for this supertype, so nothing leads back from it.
      have hnone : ring.classPath.find? "java/lang/Object" = none := by decide +kernel
      rw [hnone] at hbytes
      cases hbytes
    · exact Or.inl (List.mem_singleton.mp hn)

end Sample

theorem left_load_refused :
    ∃ m : Machine, m.Reachable (fun _ {_} _ => True) ∧ Sample.ring.Named ∧
      Sample.ring.OnCycle "Left" "Left" ∧
      (∀ n, Sample.ring.OnCycle "Left" n → m.classes.find? n = none) ∧
      (∃ e, (loadClass Sample.ring "Left" m).1 = .error (.thrown e)) ∧
      (loadClass Sample.ring "Left" m).2.loading = m.loading ∧
      (loadClass Sample.ring "Left" m).2.classes.find? "Left" = none ∧
      (loadClass Sample.ring "Left" m).2.classes.find? "pkg/Right" = none := by
  obtain ⟨m₀, hstart, _, _, hnew⟩ := Sample.shapes_succeed
  have hunregistered : ∀ n, Sample.ring.OnCycle "Left" n →
      (m₀.perform Sample.bare Sample.shapes).classes.find? n = none := by
    intro n hn
    -- There are two names on the cycle, and neither is registered.
    rcases Sample.eq_of_onCycle_left hn with rfl | rfl
    · exact Option.isNone_iff_eq_none.mp (hnew _ (by simp))
    · exact Option.isNone_iff_eq_none.mp (hnew _ (by simp))
  have hdeclared := Option.isNone_iff_eq_none.mp (hnew "pkg/Right" (by simp))
  have hspec := loadClass_spec (Sample.reachable_shapes hstart) Sample.ring "Left"
  obtain ⟨hthrown, hlacks⟩ := hspec.circular Sample.named_ring Sample.onCycle_left hunregistered
  exact ⟨_, Sample.reachable_shapes hstart, Sample.named_ring, Sample.onCycle_left, hunregistered,
    hthrown, hspec.loading,
    hlacks _ (Or.inl Sample.onCycle_left) (hunregistered _ Sample.onCycle_left),
    hlacks _ Sample.involved_right hdeclared⟩

end Linkage
