import Linkage.Proofs.Accessibility

/-! # Denied fields

    A field reference is looked up twice, first as that of an instance field and then as
    that of a static one, and only the second lookup reports an error. So a caller without
    access learns of it if the field is static; an instance field is reported as not being
    static. Either way the member name is left as it is. -/

namespace Linkage

open Link

variable {m : Machine} {mn : Handle} {n : MemberName} {k : Class}

/-- The member name asks for a field, and its class, name and type lead the search to
    `r`. -/
def Machine.NamesField (m : Machine) (n : MemberName) (name : String) (r : FieldRef) : Prop :=
  n.decoded.kind = some .field ∧ ∃ clazz text type c signature,
    n.clazz = some clazz ∧ searchedClass clazz m = (.ok (some c), m) ∧
    n.name = some text ∧ m.heap.read text = .ok (.string name) ∧
    n.type = some type ∧ (typeSignature type m).1 = .ok signature ∧
    m.classes.searchField c name (some signature) = some r

/-- Code of the caller has no access to the field: it is not public, nor private to the
    caller itself, nor in the same package without being private, nor protected in a
    superclass of the caller. -/
structure Field.DeniedTo (f : Field) (declaring caller : Class) : Prop where
  notPublic : ¬ f.access.has Access.publicFlag = true
  notPrivate : ¬ (f.access.has Access.privateFlag = true ∧ declaring.id = caller.id)
  notPackage : ¬ (¬ f.access.has Access.privateFlag = true ∧ declaring.package = caller.package)
  notProtected : ¬ (f.access.has Access.protectedFlag = true ∧
    caller.isSubclassOf declaring.id = true)

theorem Field.DeniedTo.isAccessible {f : Field} {declaring caller : Class}
    (h : f.DeniedTo declaring caller) : isAccessible declaring f.access caller = false := by
  unfold Linkage.isAccessible
  rw [if_neg h.notPublic]
  -- Access is refused at each of the four levels in turn.
  by_cases hprivate : f.access.has Access.privateFlag = true
  · rw [if_pos hprivate]
    exact beq_false_of_ne (fun hid => h.notPrivate ⟨hprivate, hid⟩)
  · rw [if_neg hprivate]
    have hpackage : ¬ (declaring.package == caller.package) = true := by
      intro hsame
      exact h.notPackage ⟨hprivate, by simpa using hsame⟩
    rw [if_neg hpackage]
    by_cases hprotected : f.access.has Access.protectedFlag = true
    · rw [if_pos hprotected]
      exact Bool.not_eq_true _ ▸ fun hsub => h.notProtected ⟨hprotected, hsub⟩
    · rw [if_neg hprotected]

/-- The search for an instance field is followed by one for a static field, so it is this
    one that reports why there is no access. -/
theorem ClassTable.linkField_denied {t : ClassTable} {c declaring : Class} {name signature : String}
    {r : FieldRef} {f : Field} (kind : ReferenceKind)
    (hsearch : t.searchField c name (some signature) = some r)
    (hdeclaring : t.get? r.owner = some declaring) (hf : declaring.field? r.index = some f)
    (hdenied : isAccessible declaring f.access k = false) :
    t.linkField c name signature kind (some k) false = .error
      (if f.isStatic then .inaccessible k.name declaring.name name
        else .staticMismatch declaring.name name false) := by
  have hfield := (ClassTable.field?_of_get? hdeclaring).trans hf
  -- Either search finds the field, and staticness is checked before access.
  have hlookup : ∀ wantStatic, t.lookupField c name (some signature) (some k) {} wantStatic =
      .error (if f.isStatic = wantStatic then .inaccessible k.name declaring.name name
        else .staticMismatch declaring.name name f.isStatic) := by
    intro wantStatic
    unfold lookupField
    rw [hsearch]
    simp only [checkField, hdeclaring, hfield, hdenied]
    by_cases hstatic : f.isStatic = wantStatic
    · simp [hstatic, LookupOptions.missing]
    · simp [hstatic, LookupOptions.missing]
  unfold linkField
  simp only [hlookup]
  cases f.isStatic <;> rfl

/-- A search with a signature finds a field only if the signature is a type descriptor. -/
theorem ClassTable.type_of_searchField {t : ClassTable} {c : Class} {name signature : String}
    {r : FieldRef} (h : t.searchField c name (some signature) = some r) :
    ∃ type : TypeDescriptor, type.render = signature := by
  unfold searchField at h
  -- The induction is on the bound of the search; a field is found in a class or in a supertype of
  -- it.
  generalize t.size = limit at h
  induction limit generalizing c with
  | zero => cases h
  | succ limit ih =>
    unfold searchFieldWithin at h
    split at h
    · rename_i index hfound
      obtain ⟨i, hi, -⟩ := Option.map_eq_some_iff.mp hfound
      obtain ⟨_, hcalled, _⟩ := Array.findIdx?_eq_some_iff_getElem.mp hi
      exact ⟨_, (Field.isCalled_iff.mp hcalled).2⟩
    · obtain ⟨id, _, hid⟩ := List.exists_of_findSome?_eq_some h
      obtain ⟨supertype, _, hsupertype⟩ := Option.bind_eq_some_iff.mp hid
      exact ih hsupertype

/-- No type descriptor looks like a method descriptor. -/
theorem TypeDescriptor.render_ne_paren (type : TypeDescriptor) (rest : String) :
    type.render ≠ "(" ++ rest := by
  intro h
  have hchars : type.chars = '(' :: rest.toList := by
    have htext := congrArg String.toList h
    simpa [TypeDescriptor.render, String.toList_append] using htext
  cases type with
  | primitive p => cases p <;> simp [chars, Primitive.letter] at hchars
  | object name => simp [chars] at hchars
  | array component => simp [chars] at hchars

theorem goes_stringValue {rule : Discipline} (text : Handle) :
    Goes rule (stringValue text) m (fun _ m' => m' = m) := by
  unfold stringValue
  refine goes_bind (goes_read text) ?_
  rintro object m₁ _ ⟨rfl, -⟩
  exact goes_orFail (fun _ _ => rfl)

theorem goes_signatureOr {rule : Discipline} (e : LinkError) (classObject : Handle) :
    Goes rule (signatureOr e classObject) m (fun _ m' => m' = m) := by
  unfold signatureOr
  refine goes_bind (goes_classOfObject classObject) ?_
  rintro found m₁ _ ⟨rfl, -⟩
  refine goes_bind (goes_orFail (Q := fun _ m' => m' = m₁) (fun _ _ => rfl)) ?_
  rintro c m₂ _ rfl
  exact goes_bind_of_ok (classes_run m₂) (goes_pure rfl)

/-- Asking for a signature leaves the machine as it is, unless it is the signature of a
    method type. -/
theorem goes_typeSignature {rule : Discipline} (type : Handle) :
    Goes rule (typeSignature type) m (fun signature m' => m' = m ∨
      ∃ rest, signature = "(" ++ rest) := by
  unfold typeSignature
  refine goes_bind (goes_read type) ?_
  rintro object m₁ _ ⟨rfl, -⟩
  cases object with
  | methodType t =>
    dsimp only
    cases t.descriptor with
    | some text => exact (goes_stringValue text).mono (fun _ _ _ h => Or.inl h)
    -- The signature of a method type starts with a parenthesis, and is remembered in it.
    | none =>
      have hspelled : Goes rule (methodDescriptor t.result t.parameters) m₁
          (fun signature _ => ∃ rest, signature = "(" ++ rest) := by
        unfold methodDescriptor
        refine goes_bind ((changing_of_madeOf (madeOf_forEach
          (fun _ => madeOf_signatureOr _ _) t.parameters)).goes m₁) ?_
        intro parameters m₂ _ _
        refine goes_bind (goes_signatureOr _ t.result) ?_
        intro result m₃ _ _
        exact goes_pure ⟨String.join parameters ++ ")" ++ result, by simp [String.append_assoc]⟩
      refine goes_bind hspelled ?_
      intro signature m₂ _ hsignature
      refine goes_bind ((changing_intern signature).goes m₂) ?_
      intro text m₃ _ _
      refine goes_bind (goes_of_change (Change.setDescriptor type text) (fun _ _ _ => trivial)
        (Q := fun _ _ => True)) ?_
      intro _ m₄ _ _
      exact goes_pure (Or.inr hsignature)
  | string text => exact goes_pure (Or.inl rfl)
  | classObject id => exact (goes_signatureOr _ type).mono (fun _ _ _ h => Or.inl h)
  | _ => exact goes_fail _

/-- The question of a member name that leads to a field is read without a change. -/
theorem Machine.NamesField.question {name : String} {r : FieldRef} (h : m.NamesField n name r)
    {kind : ReferenceKind} (hkind : n.decoded.referenceKind = some kind) :
    ∃ c signature, n.question m = (.ok (some
        { kind := .field, referenceKind := kind, searched := c, name, signature }), m) ∧
      m.classes.searchField c name (some signature) = some r := by
  obtain ⟨hfield, clazz, text, type, c, signature, hclazz, hc, htext, hname, htype, hsignature,
    hsearch⟩ := h
  refine ⟨c, signature, ?_, hsearch⟩
  have hstill : typeSignature type m = (.ok signature, m) := by
    have hgoes : Goes (fun _ {_} _ => True) (typeSignature type) m _ := goes_typeSignature type
    rcases hgoes.2 signature _ (Prod.ext hsignature rfl) with hsame | ⟨rest, rfl⟩
    · exact Prod.ext hsignature hsame
    · -- A method descriptor is not the type of a field.
      obtain ⟨fieldType, hfieldType⟩ := ClassTable.type_of_searchField hsearch
      exact absurd hfieldType (fieldType.render_ne_paren rest)
  unfold MemberName.question
  simp only [hkind, orFail_some, hclazz, htext, htype, hfield]
  rw [bind_of_ok (pure_run kind m), bind_of_ok hc]
  dsimp only
  rw [bind_of_ok (stringValue_of_read hname), bind_of_ok hstill]
  rfl

/-- A resolution that throws an error answers with it, unless it is speculative. -/
theorem resolveMemberName_of_thrown {caller : Option Handle} {e : LinkError} {m' : Machine}
    (h : resolveMember mn caller false m = (.error (.thrown e), m')) :
    resolveMemberName mn caller false m = (.error (.thrown e), m') := by
  have hattempt : attempt (resolveMember mn caller false) m = (.ok (.error e), m') := by
    rw [attempt_run, h]
  unfold resolveMemberName
  rw [bind_of_ok hattempt]
  rfl

/-- Denied fields: for every member name that has no target and leads to a field, and for
    every class that has no access to the field, the resolution on behalf of that class
    fails and leaves the machine as it is. It reports illegal access if the field is static.
    An instance field is reported as not being static. -/
theorem denied_field_not_resolved {caller : Handle} {id : ClassId} {name : String} {r : FieldRef}
    {declaring : Class} {f : Field} (hmn : m.heap.read mn = .ok (.memberName n))
    (hunresolved : n.vmtarget = 0) (hnames : m.NamesField n name r)
    (hdeclaring : m.classes.get? r.owner = some declaring)
    (hf : declaring.field? r.index = some f)
    (hcaller : m.heap.read caller = .ok (.classObject id)) (hk : m.classes.get? id = some k)
    (hdenied : f.DeniedTo declaring k) :
    resolveMemberName mn (some caller) false m = (.error (.thrown
      (if n.decoded.referenceKind = none then .memberWithoutReferenceKind
        else if f.isStatic then .inaccessible k.name declaring.name name
        else .staticMismatch declaring.name name false)), m) := by
  apply resolveMemberName_of_thrown
  rw [resolveMember_eq hmn hunresolved (callerClass_of_read hcaller hk)]
  unfold MemberName.ask
  -- A member name without a reference kind is refused before anything is searched.
  cases hkind : n.decoded.referenceKind with
  | none =>
    have hquestion : n.question m = (.error (.thrown .memberWithoutReferenceKind), m) := by
      unfold MemberName.question
      rw [hkind]
      rfl
    rw [bind_of_error hquestion, if_pos rfl]
  | some kind =>
    obtain ⟨c, signature, hquestion, hsearch⟩ := hnames.question hkind
    rw [bind_of_ok hquestion, if_neg (by simp)]
    show resolveField mn c name signature kind (some k) false m = _
    unfold resolveField
    rw [bind_of_ok (classes_run m),
      ClassTable.linkField_denied kind hsearch hdeclaring hf hdenied.isAccessible]
    rfl

namespace Sample

/-- Both fields are private, so the other class has no access to them. -/
theorem Robbed.deniedTo {m : Machine} {vault thief : Class} (hm : Robbed m vault thief) {f : Field}
    (hf : f ∈ vault.fields) : f.DeniedTo vault thief := by
  have hshape := hm.shape
  simp only [Prod.mk.injEq] at hshape
  obtain ⟨hid, -, haccess⟩ := hshape
  have hmem : f.access ∈ [(0x2 : Access), 0xA] := by
    rw [← haccess]
    exact List.mem_map_of_mem hf.val
  have hflags : f.access.has Access.publicFlag = false ∧ f.access.has Access.privateFlag = true ∧
      f.access.has Access.protectedFlag = false := by
    simp only [List.mem_cons, List.not_mem_nil, or_false] at hmem
    rcases hmem with h | h <;> rw [h] <;> decide
  exact ⟨by simp [hflags.1], by simp [hid, hm.thief_id], by simp [hflags.2.1], by simp [hflags.2.2]⟩

/-- A member name of the sample leads to a field. -/
theorem Robbed.namesField {m : Machine} {vault thief : Class} (hm : Robbed m vault thief)
    {name : String} {text : Handle} {r : FieldRef} (htext : m.heap.read text = .ok (.string name))
    (hsearch : m.classes.searchField vault name (some "I") = some r) :
    m.NamesField (fieldOfVault text) name r := by
  have hvault : m.heap.read ⟨33⟩ = .ok (.classObject 33) := hm.read (⟨33⟩, _) (by simp [loot])
  have htype : m.heap.read ⟨37⟩ = .ok (.string "I") := hm.read (⟨37⟩, _) (by simp [loot])
  have hkind : vault.kind = .object := congrArg (fun shape => shape.2.1) hm.shape
  have hsearched : searchedClass ⟨33⟩ m = (.ok (some vault), m) := by
    unfold searchedClass
    rw [bind_of_ok (classOfObject_of_read hvault hm.get_vault)]
    simp [Class.isPrimitive, Class.isArray, hkind]
  refine ⟨?_, ⟨33⟩, text, ⟨37⟩, vault, "I", rfl, hsearched, rfl, htext, rfl, ?_, hsearch⟩
  · simp [fieldOfVault, MemberName.decoded, MemberFlags.decode_encode, MemberFlags.make]
  · rw [typeSignature_of_read htype]

end Sample

theorem vault_fields_not_resolved :
    ∃ (m : Machine) (vault thief : Class) (gold count : Field),
      m.Reachable (fun _ {_} _ => True) ∧
      m.classes.get? 33 = some vault ∧ m.classes.get? 34 = some thief ∧
      vault.field? 0 = some gold ∧ gold.isStatic = false ∧ gold.DeniedTo vault thief ∧
      vault.field? 1 = some count ∧ count.isStatic = true ∧ count.DeniedTo vault thief ∧
      resolveMemberName ⟨38⟩ (some ⟨34⟩) false m =
        (.error (.thrown (.staticMismatch vault.name "gold" false)), m) ∧
      resolveMemberName ⟨39⟩ (some ⟨34⟩) false m =
        (.error (.thrown (.inaccessible thief.name vault.name "count")), m) := by
  obtain ⟨m, vault, thief, hm⟩ := Sample.exists_robbed
  have hthief : m.heap.read ⟨34⟩ = .ok (.classObject 34) :=
    hm.read (⟨34⟩, _) (by simp [Sample.loot])
  have hgold := hm.namesField (hm.read (⟨35⟩, .string "gold") (by simp [Sample.loot]))
    (congrArg (fun found => found.head?.join) hm.fields : _ = some ⟨33, 0⟩)
  have hcount := hm.namesField (hm.read (⟨36⟩, .string "count") (by simp [Sample.loot]))
    (congrArg (fun found => found.tail.head?.join) hm.fields : _ = some ⟨33, 1⟩)
  -- The two fields of the sample, private both, the second one static.
  have haccess : vault.fields.toList.map Field.access = [0x2, 0xA] :=
    congrArg (fun shape => shape.2.2) hm.shape
  obtain ⟨gold, rest, hfields, hgoldAccess, hrest⟩ := List.map_eq_cons_iff.mp haccess
  obtain ⟨count, none, rfl, hcountAccess, hnone⟩ := List.map_eq_cons_iff.mp hrest
  have hget : ∀ index : UInt16, vault.field? index = (gold :: count :: none)[index.toNat]? := by
    intro index
    rw [← hfields, Array.getElem?_toList]
    rfl
  have hfield : ∀ f ∈ gold :: count :: none, f.DeniedTo vault thief := by
    intro f hf
    exact hm.deniedTo (Array.mem_def.mpr (hfields ▸ hf))
  have hgoldStatic : gold.isStatic = false := by
    unfold Field.isStatic
    rw [hgoldAccess]
    decide
  have hcountStatic : count.isStatic = true := by
    unfold Field.isStatic
    rw [hcountAccess]
    decide
  have hgoldDenied := hfield gold (by simp)
  have hcountDenied := hfield count (by simp)
  have hreference : ∀ text, ¬ (Sample.fieldOfVault text).decoded.referenceKind = Option.none := by
    intro text
    simp [Sample.fieldOfVault, MemberName.decoded, MemberFlags.decode_encode, MemberFlags.make]
  -- Both are refused, each in its own way.
  have hgoldError := denied_field_not_resolved
    (hm.read (⟨38⟩, .memberName (Sample.fieldOfVault ⟨35⟩)) (by simp [Sample.loot])) rfl hgold
    hm.get_vault (hget 0) hthief hm.get_thief hgoldDenied
  have hcountError := denied_field_not_resolved
    (hm.read (⟨39⟩, .memberName (Sample.fieldOfVault ⟨36⟩)) (by simp [Sample.loot])) rfl hcount
    hm.get_vault (hget 1) hthief hm.get_thief hcountDenied
  rw [if_neg (hreference _), if_neg (by simp [hgoldStatic])] at hgoldError
  rw [if_neg (hreference _), if_pos hcountStatic] at hcountError
  exact ⟨m, vault, thief, gold, count, hm.reachable, hm.get_vault, hm.get_thief, hget 0,
    hgoldStatic, hgoldDenied, hget 1, hcountStatic, hcountDenied, hgoldError, hcountError⟩

end Linkage
