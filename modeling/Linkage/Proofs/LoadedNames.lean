import Linkage.Proofs.LoadingEnds
import Linkage.Proofs.Startup

/-! # Names of loaded classes

    A load that succeeds declares classes only under the names of their files, and no
    file is opened for the name of an array class. -/

namespace Linkage

open Link

variable {α β : Type} {rule : Discipline} {m m' : Machine} {t t' : ClassTable} {c : Class}
  {env : Environment} {load : String → Link Class} {name : String}

theorem Changes.find?_classes (h : Changes rule m m') {name : String}
    (hfind : m.classes.find? name = some c) : m'.classes.find? name = some c := by
  refine h.keeps (P := fun m => m.classes.find? name = some c) ?_ hfind
  intro m₁ m₂ hchange hm
  rcases hchange.classes_cases with he | ⟨d, hadmits, he⟩
  · rw [he]
    exact hm
  · rw [he]
    exact ClassTable.find?_push_of_find? hm hadmits.find?_name

/-- Classes that are declared in between are not named like array classes. -/
def ClassTable.SparesArrayNames (t t' : ClassTable) : Prop :=
  ∀ c ∈ t'.classes, c.kind = .object → isArrayName c.name → c ∈ t.classes

theorem ClassTable.SparesArrayNames.refl (t : ClassTable) : t.SparesArrayNames t :=
  fun _ hc _ _ => hc

theorem ClassTable.SparesArrayNames.trans {t'' : ClassTable} (h : t.SparesArrayNames t')
    (h' : t'.SparesArrayNames t'') : t.SparesArrayNames t'' := by
  intro c hc hkind hname
  exact h c (h' c hc hkind hname) hkind hname

/-- If the action succeeds, then it has declared no class under the name of an array class. -/
def Link.Modest (x : Link α) : Prop :=
  ∀ {m a m'}, x m = (.ok a, m') → m.classes.SparesArrayNames m'.classes

theorem modest_of_keeps {x : Link α} (hx : ∀ m, (x m).2.classes = m.classes) : Modest x := by
  intro m a m' h
  have hm := hx m
  rw [h] at hm
  rw [hm]
  exact .refl _

theorem modest_bind {x : Link α} {f : α → Link β} (hx : Modest x) (hf : ∀ a, Modest (f a)) :
    Modest (x >>= f) := by
  intro m b m' h
  obtain ⟨a, m₁, hfirst, hrest⟩ := bind_eq_ok_iff.mp h
  exact (hx hfirst).trans (hf a hrest)

theorem modest_pure (a : α) : Modest (pure a : Link α) := modest_of_keeps (fun _ => rfl)

theorem modest_fail (e : LinkError) : Modest (fail e : Link α) := modest_of_keeps (fun _ => rfl)

theorem modest_view (f : Machine → α) : Modest (view f) := modest_of_keeps (fun _ => rfl)

theorem modest_allocate (object : Object) : Modest (allocate object) :=
  modest_of_keeps (fun m => by rw [allocate_run])

theorem modest_forEach {f : α → Link β} (hf : ∀ a, Modest (f a)) (as : List α) :
    Modest (forEach f as) := by
  induction as with
  | nil => exact modest_pure []
  | cons a as ih => exact modest_bind (hf a) (fun b => modest_bind ih (fun _ => modest_pure _))

theorem modest_coreClass (name : String) : Modest (coreClass name) := by
  refine modest_bind (modest_view _) (fun found => ?_)
  cases found with
  | none => exact modest_fail _
  | some c => exact modest_pure c

theorem ClassTable.SparesArrayNames.push (hc : c.kind = .object → ¬ isArrayName c.name) :
    t.SparesArrayNames (t.push c) := by
  intro d hd hkind hname
  rcases Array.mem_push.mp hd with hold | rfl
  · exact hold
  · exact absurd hname (hc hkind)

/-- The class is there, or it is added. -/
theorem addClass_cases {make : ClassId → Handle → Class}
    {named : ∀ id handle, (make id handle).name = name}
    (h : addClass name make named m = (.ok c, m')) :
    m' = m ∨ ((∃ handle, c = make m.classes.size handle) ∧ m'.classes = m.classes.push c) := by
  cases hfind : m.classes.find? name with
  | some d =>
    unfold addClass at h
    rw [bind_of_ok (findClass_run name m), hfind] at h
    cases h
    exact Or.inl rfl
  | none =>
    obtain ⟨handle, heap, _, hc, rfl⟩ := addClass_eq_ok hfind h
    exact Or.inr ⟨⟨handle, hc⟩, rfl⟩

theorem modest_defineArrayClass (component : Class) : Modest (defineArrayClass component) := by
  unfold defineArrayClass
  split
  · exact modest_fail _
  · refine modest_bind (modest_view _) (fun table => ?_)
    refine modest_bind (modest_view _) (fun found => ?_)
    cases found with
    | some c => exact modest_pure c
    | none =>
      refine modest_bind (modest_coreClass _) (fun object => ?_)
      refine modest_bind (modest_coreClass _) (fun cloneable => ?_)
      refine modest_bind (modest_coreClass _) (fun serializable => ?_)
      intro m c m' h
      -- Only declared classes must not have the name of an array type, and this is none of them.
      rcases addClass_cases h with rfl | ⟨⟨_, rfl⟩, hpush⟩
      · exact .refl _
      · rw [hpush]
        exact .push (fun hkind => by cases hkind)

section

variable (hload : ∀ s, Modest (load s))

include hload

theorem modest_classOfTypeWith (ty : TypeDescriptor) : Modest (classOfTypeWith load ty) := by
  induction ty with
  | primitive p => exact hload _
  | object name => exact hload _
  | array component ih =>
    refine modest_bind (modest_view _) (fun found => ?_)
    cases found with
    | some c => exact modest_pure c
    | none => exact modest_bind ih (fun d => modest_defineArrayClass d)

theorem modest_loadSuperclass (d : ClassDeclaration) : Modest (loadSuperclass load d) := by
  unfold loadSuperclass
  cases d.superclass with
  | none => exact modest_pure none
  | some s =>
    refine modest_bind (hload s) (fun c => ?_)
    split
    · exact modest_fail _
    · exact modest_pure _

theorem modest_loadInterface (d : ClassDeclaration) (s : String) :
    Modest (loadInterface load d s) := by
  refine modest_bind (hload s) (fun c => ?_)
  split
  · exact modest_pure c
  · exact modest_fail _

/-- A class may be declared under any name, which shows in the result. -/
theorem spares_of_defineClassWith {d : ClassDeclaration} (hname : ¬ isArrayName c.name)
    (h : defineClassWith load d m = (.ok c, m')) : m.classes.SparesArrayNames m'.classes := by
  unfold defineClassWith at h
  rw [bind_of_ok (findClass_run d.name m)] at h
  cases hfind : m.classes.find? d.name with
  | some e =>
    rw [hfind] at h
    cases h
    exact .refl _
  | none =>
    rw [hfind] at h
    -- The supertypes come before the class itself.
    obtain ⟨superclass, m₁, hsuper, h⟩ := bind_eq_ok_iff.mp h
    obtain ⟨interfaces, m₂, hinterfaces, h⟩ := bind_eq_ok_iff.mp h
    have hsupertypes := (modest_loadSuperclass hload d hsuper).trans
      (modest_forEach (modest_loadInterface hload d) d.interfaces hinterfaces)
    rw [bind_of_ok (classes_run m₂)] at h
    cases hlaid : Layout.ofDeclaration m₂.classes d superclass interfaces with
    | error e =>
      rw [hlaid] at h
      cases h
    | ok layout =>
      rw [hlaid, ofExcept_ok, bind_of_ok (pure_run layout m₂)] at h
      rcases addClass_cases h with rfl | ⟨_, hpush⟩
      · exact hsupertypes
      · rw [hpush]
        exact hsupertypes.trans (.push (fun _ => hname))

theorem modest_loadFile (hname : ¬ isArrayName name) : Modest (loadFile env load name) := by
  intro m c m' h
  -- The class in the file has the name that was asked for.
  obtain ⟨bytes, m₁, _, hsame, hderive, hclasses⟩ := loadFile_eq_ok h
  rw [hclasses]
  unfold deriveClassWith at hderive
  cases hparse : ClassFile.parse bytes >>= ClassDeclaration.ofFile with
  | error fault =>
    rw [hparse] at hderive
    cases hderive
  | ok d =>
    rw [hparse] at hderive
    exact spares_of_defineClassWith (m := { m with loading := name :: m.loading }) hload
      (hsame ▸ hname) hderive

end

theorem modest_loadClassWithin (env : Environment) (bound : Nat) (name : String) :
    Modest (loadClassWithin env bound name) := by
  induction bound generalizing name with
  | zero => exact modest_of_keeps (fun _ => rfl)
  | succ bound ih =>
    refine modest_bind (modest_view _) (fun found => ?_)
    cases found with
    | some c => exact modest_pure c
    | none =>
      dsimp only
      -- Names of arrays lead to array classes; only the others lead to a file.
      split
      · split
        · exact modest_bind (modest_classOfTypeWith ih _) (fun d => modest_defineArrayClass d)
        · exact modest_fail _
      · rename_i hname
        exact modest_loadFile ih hname

/-- A class that is loaded is found under the name that was asked for, unless it is an array
    class that was made for that name. -/
theorem find?_of_loadClassWithin {bound : Nat} (hm' : m'.classes.Linked)
    (hfound : isArrayName name → ∃ d, m.classes.find? name = some d)
    (h : loadClassWithin env bound name m = (.ok c, m')) : m'.classes.find? name = some c := by
  by_cases harray : isArrayName name
  · -- Nothing is loaded then.
    obtain ⟨d, hd⟩ := hfound harray
    cases bound with
    | zero => cases h
    | succ bound =>
      rw [loadClassWithin, bind_of_ok (findClass_run name m), hd] at h
      cases h
      exact hd
  · have hloads : Goes (fun _ {_} _ => True) (loadClassWithin env bound name) m
        (fun c m' => c ∈ m'.classes.classes) := loads_loadClassWithin env bound name m
    have hget := ClassTable.get?_id hm'.ids (hloads.2 c m' h)
    exact hm'.find?_eq_some_iff.mpr ⟨hget, loadClassWithin_name harray h⟩

end Linkage
