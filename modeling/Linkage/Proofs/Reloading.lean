import Linkage.Proofs.Signatures

/-! # Loading a class again

    A load that has succeeded gives the same class at any later time, and then changes
    nothing. For most names this is because the class is found under the name. But the name
    of an array class may lead to a class of another name, when the class of its components
    is declared under the name of an array class itself. Then the load takes the same steps
    once more, and each of them finds what it has found or made before.

    In between, classes may be loaded and declared, but none may be declared under the name
    of an array class (`LoadsOnly`). -/

namespace Linkage

open Link

variable {rule : Discipline} {env : Environment} {m m' m₂ : Machine} {c d : Class}
  {ty : TypeDescriptor} {name : String} {bound : Nat}

theorem loadClassWithin_of_find? (h : m.classes.find? name = some c) :
    loadClassWithin env (bound + 1) name m = (.ok c, m) := by
  unfold loadClassWithin
  rw [bind_of_ok (findClass_run name m), h]
  rfl

/-- The array class over a class is found once it has been made. -/
theorem defineArrayClass_again (hm : m.Typed) (hd : d ∈ m.classes.classes)
    (h : defineArrayClass d m = (.ok c, m')) (hlater : Changes rule m' m₂) :
    defineArrayClass d m₂ = (.ok c, m₂) := by
  have hget := ClassTable.get?_id hm.started.ids hd
  obtain ⟨ty, hty, _⟩ := hm.named.exists_standsFor hget
  have hgoes : Goes rule (defineArrayClass d) m (fun c m' => c ∈ m'.classes.classes) :=
    goes_defineArrayClass hd
  have hstep : Changes rule m m' := by
    have hmachine := hgoes.1
    rwa [h] at hmachine
  have hm' := hstep.typed hm
  have hm₂ := hlater.typed hm'
  -- The name does not depend on the machine.
  have hname : ∀ {k : Machine}, k.Typed → Changes rule m k →
      "[" ++ k.classes.signature d = (TypeDescriptor.array ty).className := by
    intro k hk hchanges
    rw [TypeDescriptor.className_array, hk.named.signature_eq (hchanges.get?_classes hget)
      (hty.mono (fun hget => hchanges.get?_classes hget))]
  have hfind : m'.classes.find? (TypeDescriptor.array ty).className = some c := by
    rcases defineArrayClass_eq_ok h with ⟨hfind, rfl⟩ | ⟨hkind, _⟩
    · rwa [hname hm (.refl m')] at hfind
    · have hgetc := ClassTable.get?_id hm'.started.ids (hgoes.2 c m' h)
      exact hm'.find?_className hgetc (.array hkind (hstep.get?_classes hget)
        (hty.mono (fun hget => hstep.get?_classes hget)))
  have hvoid : d.kind ≠ .primitive .void := by
    intro hvoid
    rw [defineArrayClass, if_pos hvoid] at h
    cases h
  have hfind₂ : m₂.classes.find? ("[" ++ m₂.classes.signature d) = some c := by
    rw [hname hm₂ (hstep.trans hlater)]
    exact hlater.find?_classes hfind
  rw [defineArrayClass, if_neg hvoid, bind_of_ok (classes_run m₂),
    bind_of_ok (findClass_run _ m₂), hfind₂]
  rfl

/-- A class under the name of an array type that was not there before is an array class for
    this type. -/
theorem LoadsOnly.registers (hlater : LoadsOnly rule m m₂) (hm₂ : m₂.Typed)
    (hnew : m.classes.find? (TypeDescriptor.array ty).className = none)
    (hfind : m₂.classes.find? (TypeDescriptor.array ty).className = some c) :
    m₂.classes.Registers (.array ty) := by
  have hname := ClassTable.name_of_find? hfind
  have hget := (hm₂.started.toLinked.find?_eq_some_iff.mp hfind).1
  have harray : isArrayName c.name := by
    rw [hname, TypeDescriptor.className_array]
    simp [isArrayName]
  obtain ⟨ty', hty', _⟩ := hm₂.named.exists_standsFor hget
  have hclassName := (hm₂.named.name hget hty').symm.trans hname
  cases hty' with
  | @primitive _ p kind =>
    rw [hname, ← hclassName] at harray
    exact absurd harray (not_isArrayName_primitive p)
  | object kind =>
    -- It would have been declared in between, under the name of an array class.
    have hmem := hlater.spares c (ClassTable.mem_of_find? hfind) kind harray
    exact absurd hname (ClassTable.name_ne_of_find? hnew hmem)
  | array kind found stands =>
    have hsame := TypeDescriptor.render_injective hclassName
    rw [← hsame]
    exact hm₂.registers hget (.array kind found stands)

/-- The class of a type is the same at a later time, if this holds for the loads inside. -/
theorem classOfTypeWith_again
    (hload : ∀ {name m c m' m₂}, m.Typed → loadClassWithin env bound name m = (.ok c, m') →
      LoadsOnly rule m' m₂ → loadClassWithin env bound name m₂ = (.ok c, m₂))
    (hm : m.Typed) (h : classOfTypeWith (loadClassWithin env bound) ty m = (.ok c, m'))
    (hlater : LoadsOnly rule m' m₂) :
    classOfTypeWith (loadClassWithin env bound) ty m₂ = (.ok c, m₂) := by
  have hloads : ∀ ty, Loads rule (classOfTypeWith (loadClassWithin env bound) ty) :=
    loads_classOfTypeWith (loads_loadClassWithin env bound)
  have hmodest := modest_classOfTypeWith (modest_loadClassWithin env bound)
  induction ty generalizing m m' c with
  | primitive p => exact hload hm h hlater
  | object name => exact hload hm h hlater
  | array component ih =>
    have hstep := loadsOnly_of_run (changing_of_goes (hloads _)) (hmodest _) h
    have hm' := hstep.changes.typed hm
    have hm₂ := hlater.changes.typed hm'
    have hmem := (hloads _ m).2 c m' h
    have hrun := h
    unfold classOfTypeWith at hrun ⊢
    rw [bind_of_ok (findClass_run _ _)] at hrun ⊢
    cases hfind : m.classes.find? (TypeDescriptor.array component).className with
    | some e =>
      rw [hfind] at hrun
      cases hrun
      rw [hlater.changes.find?_classes hfind]
      rfl
    | none =>
      rw [hfind] at hrun
      obtain ⟨d, m₁, hcomponent, harray⟩ := bind_eq_ok_iff.mp hrun
      cases hfound : m₂.classes.find? (TypeDescriptor.array component).className with
      | some e =>
        -- An array class for the type has been made, and it is the one that was given.
        have hregisters := (hstep.trans hlater).registers hm₂ hfind hfound
        have hstands := standsFor_of_classOfTypeWith hlater hm hregisters h
        have hget := ClassTable.get?_id hm'.started.ids hmem
        have hsame := hm₂.find?_className (hlater.changes.get?_classes hget)
          (hstands.mono (fun hget => hlater.changes.get?_classes hget))
        rw [hfound, Option.some.injEq] at hsame
        rw [hsame]
        rfl
      | none =>
        have hd := (hloads component m).2 d m₁ hcomponent
        have hfirst := loadsOnly_of_run (changing_of_goes (hloads component)) (hmodest _)
          hcomponent
        have hgoes : Goes rule (defineArrayClass d) m₁ (fun c m' => c ∈ m'.classes.classes) :=
          goes_defineArrayClass hd
        have hmachine := hgoes.1
        rw [harray] at hmachine
        have hafter : LoadsOnly rule m₁ m' := ⟨hmachine, modest_defineArrayClass d harray⟩
        show (classOfTypeWith (loadClassWithin env bound) component >>= defineArrayClass) m₂ = _
        rw [bind_of_ok (ih hm hcomponent (hafter.trans hlater))]
        exact defineArrayClass_again (hfirst.changes.typed hm) hd harray hlater.changes

/-- A load that succeeds for the name of an array class, with no class under it yet, is for
    the descriptor of an array type. -/
theorem parse?_of_loadClassWithin (harray : isArrayName name)
    (hfind : m.classes.find? name = none)
    (h : loadClassWithin env (bound + 1) name m = (.ok c, m')) :
    ∃ ty, TypeDescriptor.parse? name = some (.array ty) := by
  rw [loadClassWithin, bind_of_ok (findClass_run name m), hfind] at h
  simp only [if_pos (show name.toList.head? = some '[' from harray)] at h
  cases hparse : TypeDescriptor.parse? name with
  | none =>
    rw [hparse] at h
    cases h
  | some ty =>
    rw [hparse] at h
    cases ty with
    | array component => exact ⟨component, rfl⟩
    | primitive p => cases h
    | object other => cases h

theorem loadClassWithin_again (hm : m.Typed)
    (h : loadClassWithin env bound name m = (.ok c, m')) (hlater : LoadsOnly rule m' m₂) :
    loadClassWithin env bound name m₂ = (.ok c, m₂) := by
  induction bound generalizing name m c m' m₂ with
  | zero => cases h
  | succ bound ih =>
    -- Only a name of an array that is not there yet makes the load go on to another class.
    by_cases hfound : isArrayName name → ∃ d, m.classes.find? name = some d
    · have hstep : Changes rule m m' := by
        have hmachine : Changes rule m (loadClassWithin env (bound + 1) name m).2 :=
          (loads_loadClassWithin env (bound + 1) name m).1
        rwa [h] at hmachine
      have hfind := find?_of_loadClassWithin (hstep.typed hm).started.toLinked hfound h
      exact loadClassWithin_of_find? (hlater.changes.find?_classes hfind)
    · simp only [Classical.not_imp, not_exists] at hfound
      obtain ⟨ty, hparse⟩ := parse?_of_loadClassWithin hfound.1
        (Option.eq_none_iff_forall_ne_some.mpr hfound.2) h
      rw [loadClassWithin_of_parse? hparse] at h ⊢
      exact classOfTypeWith_again ih hm h hlater

/-- The class of a type is the same class at a later time. -/
theorem classOfType_again (hm : m.Typed) (h : classOfType env ty m = (.ok c, m'))
    (hlater : LoadsOnly rule m' m₂) : classOfType env ty m₂ = (.ok c, m₂) :=
  loadClassWithin_again hm h hlater

end Linkage
