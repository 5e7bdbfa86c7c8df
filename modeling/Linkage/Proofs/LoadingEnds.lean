import Mathlib.Data.Finset.Card
import Mathlib.Data.Finset.SDiff
import Mathlib.Data.List.TakeWhile
import Linkage.Proofs.Mentions

/-! # Loading ends

    Loads inside each other that open a file ask for different names, since a class
    that is needed to define itself is refused. All these names but the first stand in
    files of the class path. So with a bound on the depth that is large enough for the
    class path, the bound is never reached.

    * `Link.Ends names x`: run while the classes `names` are being loaded, the action
      ends with a value or throws, and leaves `names` as it found them.
    * `Reaches U n name`: a load of the name is at most `n` loads away from one that
      opens a file, and the name of that file is in `U`.
    * `ends_loadClassWithin`: three loads for each name of `U` that is not being loaded
      are enough.
    * `Link.Approx x y`: what `x` does without reaching its bound, `y` does too. -/

namespace Linkage

open Link

variable {α β : Type}

/-! ## Actions that end -/

/-- Run while the given classes are being loaded, the action ends with a value or
    throws, and the same classes are being loaded afterwards. -/
def Link.Ends (names : List String) (x : Link α) : Prop :=
  ∀ m : Machine, m.loading = names →
    ((∃ a, (x m).1 = .ok a) ∨ ∃ e, (x m).1 = .error (.thrown e)) ∧ (x m).2.loading = names

variable {names : List String} {name : String} {load load' : String → Link Class}

theorem ends_pure (a : α) : Ends names (pure a : Link α) :=
  fun _ hm => ⟨Or.inl ⟨a, rfl⟩, hm⟩

theorem ends_fail (e : LinkError) : Ends names (fail e : Link α) :=
  fun _ hm => ⟨Or.inr ⟨e, rfl⟩, hm⟩

theorem ends_view (f : Machine → α) : Ends names (view f) :=
  fun m hm => ⟨Or.inl ⟨f m, rfl⟩, hm⟩

theorem ends_bind {x : Link α} {f : α → Link β} (hx : Ends names x)
    (hf : ∀ a, Ends names (f a)) : Ends names (x >>= f) := by
  intro m hm
  have hend := hx m hm
  rcases bind_cases x f m with ⟨e, m', hrun, hbind⟩ | ⟨a, m', hrun, hbind⟩
  · rw [hrun] at hend
    rw [hbind]
    refine ⟨Or.inr ?_, hend.2⟩
    rcases hend.1 with ⟨a, ha⟩ | ⟨e', he⟩
    · cases ha
    · cases he
      exact ⟨e', rfl⟩
  · rw [hrun] at hend
    rw [hbind]
    exact hf a m' hend.2

/-- The classes being loaded are known. -/
theorem ends_bind_loading {f : List String → Link β} (hf : Ends names (f names)) :
    Ends names (view Machine.loading >>= f) := by
  intro m hm
  rw [bind_of_ok (view_run Machine.loading m), hm]
  exact hf m hm

theorem ends_orFail (o : Option α) (e : LinkError) : Ends names (orFail o e) := by
  cases o with
  | none => exact ends_fail e
  | some a => exact ends_pure a

theorem ends_bind_orFail {o : Option α} {e : LinkError} {f : α → Link β}
    (hf : ∀ a, o = some a → Ends names (f a)) : Ends names (orFail o e >>= f) := by
  cases o with
  | none => exact fun _ hm => ⟨Or.inr ⟨e, rfl⟩, hm⟩
  | some a => exact fun m hm => hf a rfl m hm

theorem ends_ofExcept (r : Except LinkError α) : Ends names (ofExcept r) := by
  cases r with
  | error e => exact ends_fail e
  | ok a => exact ends_pure a

theorem ends_forEach {f : α → Link β} {as : List α} (hf : ∀ a ∈ as, Ends names (f a)) :
    Ends names (forEach f as) := by
  induction as with
  | nil => exact ends_pure []
  | cons a as ih =>
    refine ends_bind (hf a List.mem_cons_self) (fun b => ?_)
    exact ends_bind (ih (fun a' ha' => hf a' (List.mem_cons_of_mem a ha'))) (fun _ => ends_pure _)

theorem ends_allocate (object : Object) : Ends names (allocate object) := by
  intro m hm
  rcases allocate_run_cases object m with ⟨heap, _, hrun⟩ | ⟨handle, heap, _, hrun⟩
  · rw [hrun]
    exact ⟨Or.inr ⟨_, rfl⟩, hm⟩
  · rw [hrun]
    exact ⟨Or.inl ⟨handle, rfl⟩, hm⟩

theorem ends_addClass (make : ClassId → Handle → Class)
    (named : ∀ id h, (make id h).name = name) : Ends names (addClass name make named) := by
  refine ends_bind (ends_view _) (fun found => ?_)
  cases found with
  | some c => exact ends_pure c
  | none =>
    refine ends_bind (ends_view _) (fun table => ?_)
    refine ends_bind (ends_allocate _) (fun classObject => ?_)
    exact fun m hm => ⟨Or.inl ⟨_, rfl⟩, hm⟩

theorem ends_coreClass (name : String) : Ends names (coreClass name) :=
  ends_bind (ends_view _) (fun found => ends_orFail found _)

theorem ends_defineArrayClass (component : Class) : Ends names (defineArrayClass component) := by
  unfold defineArrayClass
  split
  · exact ends_fail _
  · refine ends_bind (ends_view _) (fun table => ?_)
    refine ends_bind (ends_view _) (fun found => ?_)
    cases found with
    | some c => exact ends_pure c
    | none =>
      refine ends_bind (ends_coreClass _) (fun object => ?_)
      refine ends_bind (ends_coreClass _) (fun cloneable => ?_)
      refine ends_bind (ends_coreClass _) (fun serializable => ?_)
      exact ends_addClass _ _

/-! ## Defining and loading -/

/-- A class is defined if the loads of its supertypes end. -/
theorem ends_defineClassWith {d : ClassDeclaration}
    (hload : ∀ s ∈ d.supertypes, Ends names (load s)) : Ends names (defineClassWith load d) := by
  -- The only loads are those of the superclass and of the interfaces, and these are supertypes.
  have hsuper : Ends names (loadSuperclass load d) := by
    unfold loadSuperclass
    cases hd : d.superclass with
    | none => exact ends_pure none
    | some s =>
      have hs : s ∈ d.supertypes := List.mem_append_left _ (by simp [hd])
      refine ends_bind (hload s hs) (fun c => ?_)
      split
      · exact ends_fail _
      · exact ends_pure _
  have hinterface : ∀ s ∈ d.interfaces, Ends names (loadInterface load d s) := by
    intro s hs
    refine ends_bind (hload s (List.mem_append_right _ hs)) (fun c => ?_)
    split
    · exact ends_pure c
    · exact ends_fail _
  refine ends_bind (ends_view _) (fun found => ?_)
  cases found with
  | some c => exact ends_pure c
  | none =>
    refine ends_bind hsuper (fun superclass => ?_)
    refine ends_bind (ends_forEach hinterface) (fun interfaces => ?_)
    refine ends_bind (ends_view _) (fun table => ?_)
    exact ends_bind (ends_ofExcept _) (fun layout => ends_addClass _ _)

theorem ends_deriveClassWith {bytes : Text.Bytes}
    (hload : ∀ d, declarationOf bytes = .ok d → ∀ s ∈ d.supertypes, Ends names (load s)) :
    Ends names (deriveClassWith load bytes) := by
  unfold deriveClassWith
  split
  · rename_i d hd
    exact ends_defineClassWith (hload d hd)
  · exact ends_fail _

/-- The name is on the list during the action and off it afterwards. -/
theorem ends_whileLoading {x : Link α} (hx : Ends (name :: names) x) :
    Ends names (whileLoading name x) := by
  intro m hm
  have hend := hx { m with loading := name :: m.loading } (by rw [hm])
  refine ⟨hend.1, ?_⟩
  show (x { m with loading := name :: m.loading }).2.loading.erase name = names
  rw [hend.2, List.erase_cons_head]

theorem ends_loadFile {env : Environment}
    (hload : name ∉ names → ∀ bytes d, env.classPath.find? name = some bytes →
      declarationOf bytes = .ok d → ∀ s ∈ d.supertypes, Ends (name :: names) (load s)) :
    Ends names (loadFile env load name) := by
  refine ends_bind_orFail (fun bytes hbytes => ends_bind_loading ?_)
  split
  · exact ends_fail _
  · rename_i hname
    have hnew : name ∉ names := by simpa using hname
    refine ends_bind (ends_whileLoading (ends_deriveClassWith ?_)) (fun c => ?_)
    · exact fun d hd => hload hnew bytes d hbytes hd
    · split
      · exact ends_pure c
      · exact ends_fail _

/-- The type of the innermost components. -/
def TypeDescriptor.element : TypeDescriptor → TypeDescriptor
  | .array component => component.element
  | t => t

theorem ends_classOfTypeWith {t : TypeDescriptor} (hload : Ends names (load t.element.className)) :
    Ends names (classOfTypeWith load t) := by
  induction t with
  | primitive p => exact hload
  | object name => exact hload
  | array component ih =>
    refine ends_bind (ends_view _) (fun found => ?_)
    cases found with
    | some c => exact ends_pure c
    | none => exact ends_bind (ih hload) (fun c => ends_defineArrayClass c)

/-! ## Names of files -/

/-- The name of an array class. -/
def isArrayName (name : String) : Prop :=
  name.toList.head? = some '['

instance : DecidablePred isArrayName :=
  fun name => inferInstanceAs (Decidable (name.toList.head? = some '['))

/-- A load of the name is at most `n` loads away from one that opens a file, and the
    name of that file is in `U`. -/
def Reaches (U : Finset String) : Nat → String → Prop
  | 0, _ => False
  | n + 1, name =>
      (isArrayName name → ∀ component, TypeDescriptor.parse? name = some (.array component) →
        Reaches U n component.element.className) ∧
      (¬ isArrayName name → name ∈ U)

/-- The files of the class path lead only to names of `U`. -/
def Environment.Closed (env : Environment) (U : Finset String) : Prop :=
  ∀ name bytes d, env.classPath.find? name = some bytes → declarationOf bytes = .ok d →
    ∀ s ∈ d.supertypes, Reaches U 3 s

/-- One more name of `U` is being loaded. -/
theorem card_sdiff_cons_lt {U : Finset String} (hmem : name ∈ U) (hnew : name ∉ names) :
    (U \ (name :: names).toFinset).card < (U \ names.toFinset).card := by
  apply Finset.card_lt_card
  rw [Finset.ssubset_iff_of_subset]
  · exact ⟨name, by simp [hmem, hnew], by simp⟩
  · intro other hother
    simp only [Finset.mem_sdiff, List.mem_toFinset, List.mem_cons, not_or] at hother ⊢
    exact ⟨hother.1, hother.2.2⟩

/-- Three loads for each name of `U` that is not being loaded are enough: one that
    opens its file, and two for array classes on the way to the next one. -/
theorem ends_loadClassWithin {env : Environment} {U : Finset String} (hclosed : env.Closed U)
    {bound n : Nat} (hname : Reaches U n name)
    (hbound : 3 * (U \ names.toFinset).card + n ≤ bound) :
    Ends names (loadClassWithin env bound name) := by
  induction bound generalizing n name names with
  | zero =>
    have hn : n = 0 := by omega
    subst hn
    exact hname.elim
  | succ bound ih =>
    cases n with
    | zero => exact hname.elim
    | succ n =>
      refine ends_bind (ends_view _) (fun found => ?_)
      cases found with
      | some c => exact ends_pure c
      | none =>
        dsimp only
        by_cases harray : name.toList.head? = some '['
        · -- An array class: the load of its elements is one step closer to a file.
          rw [if_pos harray]
          split
          · rename_i component hparse
            have hcomponent := hname.1 harray component hparse
            refine ends_bind (ends_classOfTypeWith ?_) (fun c => ends_defineArrayClass c)
            exact ih hcomponent (by omega)
          · exact ends_fail _
        · -- A file: one more name of `U` is being loaded, which pays for three loads.
          rw [if_neg harray]
          have hmem := hname.2 harray
          refine ends_loadFile (fun hnew bytes d hbytes hd s hs => ?_)
          have hless := card_sdiff_cons_lt hmem hnew
          exact ih (hclosed name bytes d hbytes hd s hs) (by omega)

/-! ## Names of array classes -/

namespace TypeDescriptor

/-- The name of an object type ends where its descriptor has a semicolon. -/
theorem element_read? {allowVoid : Bool} {depth : Nat} {text rest : List Char}
    {t : TypeDescriptor} (h : read? allowVoid depth text = some (t, rest)) :
    (∃ p, t.element = .primitive p) ∨
      ∃ name, t.element = .object name ∧ ';' ∈ text ∧ ';' ∉ name.toList := by
  induction text generalizing allowVoid depth t rest with
  | nil => cases h
  | cons c text ih =>
    unfold read? at h
    split at h
    · -- An array: its element is that of the component.
      split at h
      · cases h
      · obtain ⟨⟨component, rest'⟩, hread, he⟩ := Option.map_eq_some_iff.mp h
        cases he
        rcases ih hread with hprimitive | ⟨name, hname, hin, hout⟩
        · exact Or.inl hprimitive
        · exact Or.inr ⟨name, hname, List.mem_cons_of_mem c hin, hout⟩
    · split at h
      · -- An object type: its name goes up to the first character that ends names.
        split at h
        · rename_i n name rest' htake hdrop
          cases h
          refine Or.inr ⟨_, rfl, ?_, ?_⟩
          · have hmem : ';' ∈ text.dropWhile (fun c => !endsName c) := by
              rw [hdrop]
              exact List.mem_cons_self
            exact List.mem_cons_of_mem c ((List.dropWhile_sublist _).mem hmem)
          · intro hmem
            rw [String.toList_ofList, ← htake] at hmem
            have hends := List.mem_takeWhile_imp hmem
            exact absurd hends (by decide)
        · cases h
      · split at h
        · split at h
          · cases h
            exact Or.inl ⟨_, rfl⟩
          · cases h
        · cases h
          exact Or.inl ⟨_, rfl⟩
        · cases h

theorem element_parse? {text : String} {t : TypeDescriptor} (h : parse? text = some t) :
    (∃ p, t.element = .primitive p) ∨
      ∃ name, t.element = .object name ∧ ';' ∈ text.toList ∧ ';' ∉ name.toList := by
  unfold parse? complete? at h
  split at h
  · rename_i hread
    cases h
    exact element_read? hread
  · cases h

end TypeDescriptor

theorem not_isArrayName_primitive (p : Primitive) : ¬ isArrayName p.name := by
  cases p <;> simp [isArrayName, Primitive.name]

/-- The name that loading an array class asks for next; any other name itself. -/
def elementName (name : String) : String :=
  match name.toList.head?, TypeDescriptor.parse? name with
  | some '[', some t => t.element.className
  | _, _ => name

theorem elementName_of_array {component : TypeDescriptor} (harray : isArrayName name)
    (hparse : TypeDescriptor.parse? name = some (.array component)) :
    elementName name = component.element.className := by
  unfold elementName isArrayName at *
  rw [harray, hparse]
  rfl

theorem elementName_of_not_array (harray : ¬ isArrayName name) : elementName name = name := by
  unfold elementName
  split
  · rename_i h _
    exact absurd h harray
  · rfl

/-- After two steps the name of a file is reached: the name of an object type has no
    semicolon, so an array class of that name has primitive elements. -/
theorem reaches_of_mem {U : Finset String} (hmem : elementName (elementName name) ∈ U) :
    Reaches U 3 name := by
  refine ⟨fun harray component hparse => ?_, fun harray => ?_⟩
  · rw [elementName_of_array harray hparse] at hmem
    generalize hinner : component.element.className = inner at hmem
    refine ⟨fun harray' component' hparse' => ?_, fun harray' => ?_⟩
    · -- The elements are named like an array class, too.
      rw [elementName_of_array harray' hparse'] at hmem
      refine ⟨fun harray'' => ?_, fun _ => hmem⟩
      have hsemicolon : ';' ∉ inner.toList := by
        rcases TypeDescriptor.element_parse? hparse with ⟨p, hp⟩ | ⟨object, ho, _, hnone⟩
        · have he : component.element = .primitive p := hp
          rw [he] at hinner
          rw [← hinner] at harray'
          exact absurd harray' (not_isArrayName_primitive p)
        · have he : component.element = .object object := ho
          rw [he] at hinner
          rw [← hinner]
          exact hnone
      rcases TypeDescriptor.element_parse? hparse' with ⟨p, hp⟩ | ⟨_, _, hsome, _⟩
      · have he : component'.element = .primitive p := hp
        rw [he] at harray''
        exact absurd harray'' (not_isArrayName_primitive p)
      · exact absurd hsome hsemicolon
    · rwa [elementName_of_not_array harray'] at hmem
  · rwa [elementName_of_not_array harray, elementName_of_not_array harray] at hmem

/-! ## The bound -/

/-- The names of files that a load of `name` can lead to. -/
def Environment.fileNames (env : Environment) (name : String) : Finset String :=
  ((name :: env.classPath.texts).map (fun text => elementName (elementName text))).toFinset

theorem Environment.closed_fileNames (env : Environment) (name : String) :
    env.Closed (env.fileNames name) := by
  intro other bytes d hbytes hd s hs
  have htext := ClassPath.supertypes_subset_texts hbytes hd s hs
  apply reaches_of_mem
  rw [Environment.fileNames, List.mem_toFinset]
  exact List.mem_map_of_mem (List.mem_cons_of_mem name htext)

theorem Environment.card_fileNames_le (env : Environment) (name : String) :
    (env.fileNames name).card ≤ env.classPath.size + 1 := by
  have hcard : (env.fileNames name).card ≤ env.classPath.texts.length + 1 := by
    apply Nat.le_trans (List.toFinset_card_le _)
    simp
  have htexts := ClassPath.length_texts_le env.classPath
  omega

/-- A load ends, whatever is being loaded when it starts. -/
theorem ends_loadClass (env : Environment) (name : String) (names : List String) :
    Ends names (loadClass env name) := by
  have hreaches : Reaches (env.fileNames name) 3 name := by
    apply reaches_of_mem
    rw [Environment.fileNames, List.mem_toFinset]
    exact List.mem_map_of_mem List.mem_cons_self
  apply ends_loadClassWithin (env.closed_fileNames name) hreaches
  have hcard := env.card_fileNames_le name
  have hsub : (env.fileNames name \ names.toFinset).card ≤ (env.fileNames name).card :=
    Finset.card_le_card Finset.sdiff_subset
  unfold Environment.loadBound
  omega

/-! ## Larger bounds -/

/-- What the first action does without reaching its bound, the second does too. -/
def Link.Approx (x y : Link α) : Prop :=
  ∀ m, (x m).1 ≠ .error .boundReached → y m = x m

theorem approx_refl (x : Link α) : Approx x x := fun _ _ => rfl

theorem Link.Approx.trans {x y z : Link α} (hxy : Approx x y) (hyz : Approx y z) : Approx x z := by
  intro m hm
  have hy := hxy m hm
  rw [hyz m (by rw [hy]; exact hm), hy]

theorem approx_bind {x y : Link α} {f g : α → Link β} (hx : Approx x y)
    (hf : ∀ a, Approx (f a) (g a)) : Approx (x >>= f) (y >>= g) := by
  intro m hm
  rcases bind_cases x f m with ⟨e, m', hrun, hbind⟩ | ⟨a, m', hrun, hbind⟩
  · -- If the first action fails, then not by the bound: the sequence would fail by it too.
    rw [hbind] at hm ⊢
    have hreached : (x m).1 ≠ .error .boundReached := by
      rw [hrun]
      intro h
      cases h
      exact hm rfl
    rw [bind_of_error ((hx m hreached).trans hrun)]
  · rw [hbind] at hm ⊢
    have hreached : (x m).1 ≠ .error .boundReached := by
      rw [hrun]
      intro h
      cases h
    rw [bind_of_ok ((hx m hreached).trans hrun)]
    exact hf a m' hm

theorem approx_forEach {f g : α → Link β} (hf : ∀ a, Approx (f a) (g a)) (as : List α) :
    Approx (forEach f as) (forEach g as) := by
  induction as with
  | nil => exact approx_refl _
  | cons a as ih => exact approx_bind (hf a) (fun b => approx_bind ih (fun _ => approx_refl _))

theorem approx_whileLoading {x y : Link α} (hx : Approx x y) (name : String) :
    Approx (whileLoading name x) (whileLoading name y) := by
  intro m hm
  unfold whileLoading
  rw [hx { m with loading := name :: m.loading } hm]

section Approx

variable (hload : ∀ s, Approx (load s) (load' s))

include hload

theorem approx_defineClassWith (d : ClassDeclaration) :
    Approx (defineClassWith load d) (defineClassWith load' d) := by
  have hsuper : Approx (loadSuperclass load d) (loadSuperclass load' d) := by
    unfold loadSuperclass
    cases d.superclass with
    | none => exact approx_refl _
    | some s => exact approx_bind (hload s) (fun c => approx_refl _)
  have hinterface : ∀ s, Approx (loadInterface load d s) (loadInterface load' d s) :=
    fun s => approx_bind (hload s) (fun c => approx_refl _)
  refine approx_bind (approx_refl _) (fun found => ?_)
  cases found with
  | some c => exact approx_refl _
  | none =>
    refine approx_bind hsuper (fun superclass => ?_)
    exact approx_bind (approx_forEach hinterface d.interfaces) (fun interfaces => approx_refl _)

theorem approx_deriveClassWith (bytes : Text.Bytes) :
    Approx (deriveClassWith load bytes) (deriveClassWith load' bytes) := by
  unfold deriveClassWith
  split
  · exact approx_defineClassWith hload _
  · exact approx_refl _

theorem approx_loadFile (env : Environment) (name : String) :
    Approx (loadFile env load name) (loadFile env load' name) := by
  refine approx_bind (approx_refl _) (fun bytes => ?_)
  refine approx_bind (approx_refl _) (fun names => ?_)
  split
  · exact approx_refl _
  · exact approx_bind (approx_whileLoading (approx_deriveClassWith hload bytes) name)
      (fun c => approx_refl _)

theorem approx_classOfTypeWith (t : TypeDescriptor) :
    Approx (classOfTypeWith load t) (classOfTypeWith load' t) := by
  induction t with
  | primitive p => exact hload _
  | object name => exact hload _
  | array component ih =>
    refine approx_bind (approx_refl _) (fun found => ?_)
    cases found with
    | some c => exact approx_refl _
    | none => exact approx_bind ih (fun c => approx_refl _)

end Approx

theorem approx_loadClassWithin_succ (env : Environment) (bound : Nat) (name : String) :
    Approx (loadClassWithin env bound name) (loadClassWithin env (bound + 1) name) := by
  induction bound generalizing name with
  | zero => exact fun m hm => absurd rfl hm
  | succ bound ih =>
    refine approx_bind (approx_refl _) (fun found => ?_)
    cases found with
    | some c => exact approx_refl _
    | none =>
      dsimp only
      split
      · split
        · exact approx_bind (approx_classOfTypeWith ih _) (fun c => approx_refl _)
        · exact approx_refl _
      · exact approx_loadFile ih env name

theorem approx_loadClassWithin {env : Environment} {bound bound' : Nat} (hle : bound ≤ bound')
    (name : String) : Approx (loadClassWithin env bound name) (loadClassWithin env bound' name) := by
  induction bound', hle using Nat.le_induction with
  | base => exact approx_refl _
  | succ bound' _ ih => exact ih.trans (approx_loadClassWithin_succ env bound' name)

/-- The bound does not matter, once it is large enough. -/
theorem loadClassWithin_eq_loadClass {env : Environment} {bound : Nat}
    (hbound : env.loadBound ≤ bound) (name : String) (m : Machine) :
    loadClassWithin env bound name m = loadClass env name m := by
  apply approx_loadClassWithin hbound name m
  -- The smaller bound is not reached, since the load ends.
  intro hreached
  rcases (ends_loadClass env name m.loading m rfl).1 with ⟨c, hc⟩ | ⟨e, he⟩
  · have hc' : (loadClassWithin env env.loadBound name m).1 = .ok c := hc
    rw [hreached] at hc'
    cases hc'
  · have he' : (loadClassWithin env env.loadBound name m).1 = .error (.thrown e) := he
    rw [hreached] at he'
    cases he'

/-! ## What is loaded -/

/-- A file that leads to a class leads to one of the name that was asked for. -/
theorem loadFile_eq_ok {env : Environment} {m m' : Machine} {c : Class}
    (h : loadFile env load name m = (.ok c, m')) :
    ∃ bytes m₁, env.classPath.find? name = some bytes ∧ c.name = name ∧
      deriveClassWith load bytes { m with loading := name :: m.loading } = (.ok c, m₁) ∧
      m'.classes = m₁.classes := by
  unfold loadFile at h
  cases hbytes : env.classPath.find? name with
  | none =>
    rw [hbytes] at h
    cases h
  | some bytes =>
    rw [hbytes, orFail_some, bind_of_ok (pure_run bytes m),
      bind_of_ok (view_run Machine.loading m)] at h
    split at h
    · cases h
    · obtain ⟨d, m₁, hderive, h⟩ := bind_eq_ok_iff.mp h
      split at h
      · rename_i hname
        cases h
        -- The name that is being loaded is taken off again, which leaves the classes as they are.
        cases hinner : deriveClassWith load bytes { m with loading := name :: m.loading } with
        | mk result m₁ =>
          unfold whileLoading at hderive
          rw [hinner] at hderive
          cases hderive
          exact ⟨bytes, m₁, rfl, hname, hinner, rfl⟩
      · cases h

/-- A class that is loaded by the name of a file has that name. -/
theorem loadClassWithin_name {env : Environment} {bound : Nat} {m m' : Machine} {c : Class}
    (hname : ¬ isArrayName name) (h : loadClassWithin env bound name m = (.ok c, m')) :
    c.name = name := by
  cases bound with
  | zero => cases h
  | succ bound =>
    rw [loadClassWithin, bind_of_ok (findClass_run name m)] at h
    cases hfind : m.classes.find? name with
    | some d =>
      rw [hfind] at h
      cases h
      exact ClassTable.name_of_find? hfind
    | none =>
      rw [hfind] at h
      dsimp only at h
      rw [if_neg (show ¬ name.toList.head? = some '[' from hname)] at h
      obtain ⟨_, _, _, hsame, _⟩ := loadFile_eq_ok h
      exact hsame

theorem loadClass_name {env : Environment} {m m' : Machine} {c : Class}
    (hname : ¬ isArrayName name) (h : loadClass env name m = (.ok c, m')) : c.name = name :=
  loadClassWithin_name hname h

end Linkage
