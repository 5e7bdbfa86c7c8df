import Linkage.Proofs.Search
import Linkage.Proofs.Startup

/-! # References find declared members

    A reference to a class by the name and descriptor of a member that the class
    declares itself finds that member, if it is the first one with that name and
    descriptor and the reference kind is its own (`Method.referenceKind`).

    The methods of method handles that are called with any signature are searched
    for by name alone. They are found all the same: the class of method handles is a
    core class, and its methods have different names. -/

namespace Linkage

variable {t : ClassTable} {c : Class} {i : Nat}

/-! ## Places -/

theorem findIdx?_of_first {α : Type} {as : Array α} {p : α → Bool} {a : α}
    (found : as[i]? = some a) (ha : p a = true)
    (first : ∀ j < i, ∀ b, as[j]? = some b → p b = false) : as.findIdx? p = some i := by
  obtain ⟨hi, rfl⟩ := Array.getElem?_eq_some_iff.mp found
  refine Array.findIdx?_eq_some_iff_getElem.mpr ⟨hi, ha, ?_⟩
  intro j hj
  simp [first j hj _ (Array.getElem?_eq_getElem (Nat.lt_trans hj hi))]

theorem toNat_ofNat_of_found {α : Type} {as : Array α} {a : α} (hsize : as.size ≤ 65536)
    (found : as[i]? = some a) : (UInt16.ofNat i).toNat = i := by
  obtain ⟨hi, _⟩ := Array.getElem?_eq_some_iff.mp found
  exact UInt16.toNat_ofNat_of_lt (Nat.lt_of_lt_of_le hi hsize)

/-- The method is called by its own name and descriptor. -/
theorem Method.isCalled_iff {m : Method} {name descriptor : String} :
    m.isCalled name (some descriptor) = true ↔ m.name = name ∧ m.descriptor.render = descriptor := by
  simp [Method.isCalled]

theorem Field.isCalled_iff {f : Field} {name descriptor : String} :
    f.isCalled name (some descriptor) = true ↔ f.name = name ∧ f.type.render = descriptor := by
  simp [Field.isCalled]

/-- The method at this place is the first one with its name and descriptor. -/
structure Class.FirstMethod (c : Class) (i : Nat) (method : Method) : Prop where
  found : c.methods[i]? = some method
  first : ∀ j < i, ∀ earlier, c.methods[j]? = some earlier →
    ¬ (earlier.name = method.name ∧ earlier.descriptor.render = method.descriptor.render)

/-- The field at this place is the first one with its name and descriptor. -/
structure Class.FirstField (c : Class) (i : Nat) (f : Field) : Prop where
  found : c.fields[i]? = some f
  first : ∀ j < i, ∀ earlier, c.fields[j]? = some earlier →
    ¬ (earlier.name = f.name ∧ earlier.type.render = f.type.render)

/-- Places of members are 16 bits wide. -/
theorem Class.FirstMethod.method? {method : Method} (h : c.FirstMethod i method)
    (hsize : c.methods.size ≤ 65536) : c.method? (UInt16.ofNat i) = some method := by
  unfold Class.method?
  rw [toNat_ofNat_of_found hsize h.found, h.found]

theorem Class.FirstField.field? {f : Field} (h : c.FirstField i f)
    (hsize : c.fields.size ≤ 65536) : c.field? (UInt16.ofNat i) = some f := by
  unfold Class.field?
  rw [toNat_ofNat_of_found hsize h.found, h.found]

/-! ## The class of method handles -/

/-- Methods are laid out in the order of their declarations. -/
theorem MethodLayout.names_foldlM {table : ClassTable} {className : String} {isInterface : Bool}
    {ds : List MethodDeclaration} {l l' : MethodLayout}
    (h : ds.foldlM (MethodLayout.add table className isInterface) l = .ok l') :
    l'.methods.toList.map Method.name =
      l.methods.toList.map Method.name ++ ds.map MethodDeclaration.name := by
  induction ds generalizing l with
  | nil =>
    cases h
    simp
  | cons d ds ih =>
    obtain ⟨l₁, hd, hds⟩ := foldlM_cons_eq_ok h
    obtain ⟨m, hmethods, hname, _⟩ := add_eq_ok hd
    rw [ih hds, hmethods]
    simp [hname]

theorem Class.MadeFrom.method_names {d : ClassDeclaration} (h : c.MadeFrom d t) :
    c.methods.toList.map Method.name = d.methods.map MethodDeclaration.name := by
  obtain ⟨layout, classObject, hlaid, _, _, rfl⟩ := h
  obtain ⟨_, _, _, _, hmethods⟩ := Layout.ofDeclaration_eq_ok hlaid
  exact MethodLayout.names_foldlM hmethods

theorem ClassTable.Started.nodup_methodHandle (h : t.Started) (hget : t.get? c.id = some c)
    (hname : c.name = CoreClasses.methodHandleClass) :
    (c.methods.toList.map Method.name).Nodup := by
  obtain ⟨t₀, c', _, hmade, hfind⟩ :=
    h.declared CoreClasses.methodHandle (by simp [CoreClasses.declarations])
  have hc : t.find? CoreClasses.methodHandle.name = some c :=
    h.find?_eq_some_iff.mpr ⟨hget, hname⟩
  rw [hfind, Option.some.injEq] at hc
  subst hc
  rw [hmade.method_names]
  decide

/-! ## Methods -/

/-- What the reference kind of a method asks for is what the method is. -/
theorem Method.Dispatched.options {method : Method} (h : method.Dispatched c.isInterface)
    (speculative : Bool) {options : LookupOptions}
    (ho : options = LookupOptions.ofReference c method.referenceKind speculative) :
    options.partialSignature = false ∧ options.static = method.isStatic ∧
      (options.virtual && c.isInterface && !options.allowForwarding) = false ∧
      (options.interface && !c.isInterface) = false := by
  subst ho
  unfold Method.Dispatched Method.isDirect at h
  unfold Method.referenceKind
  cases hdispatch : method.dispatch with
  | direct => cases hs : method.isStatic <;> simp [LookupOptions.ofReference]
  | virtual index =>
    simp only [hdispatch, Bool.or_eq_false_iff] at h
    obtain ⟨⟨⟨hs, _⟩, _⟩, hi⟩ := h
    cases hf : method.isFinal <;> simp [LookupOptions.ofReference, hs, hi]
  | interface index =>
    simp only [hdispatch, Bool.or_eq_false_iff] at h
    obtain ⟨⟨⟨hs, _⟩, _⟩, hi⟩ := h
    simp [LookupOptions.ofReference, hs, hi]

/-- Constructors are called directly. -/
theorem Method.Dispatched.referenceKind_constructor {method : Method} {inInterface : Bool}
    (h : method.Dispatched inInterface) (hname : method.name = Method.constructorName)
    (hstatic : method.isStatic = false) : method.referenceKind = .invokeSpecial := by
  have hdirect : method.isDirect = true := by
    unfold Method.isDirect Method.isInitializer
    rw [hname]
    simp [Method.isInitializerName, Method.constructorName]
  unfold Method.Dispatched at h
  unfold Method.referenceKind
  cases hdispatch : method.dispatch with
  | direct => simp [hstatic]
  | _ => simp [hdispatch, hdirect] at h

/-- A method that the class declares is found in the class, and passes the check if
    it is static or not, as asked for. -/
theorem ClassTable.lookupMethod_declared {name : String} {signature : Option String}
    {options : LookupOptions} {r : MethodRef} {method : Method}
    (hvirtual : (options.virtual && c.isInterface && !options.allowForwarding) = false)
    (hinterface : (options.interface && !c.isInterface) = false)
    (hdeclared : declaredMethod? c name (if options.partialSignature then none else signature) =
      some r)
    (hget : t.get? r.owner = some c) (hmethod : c.method? r.index = some method)
    (hstatic : options.static = method.isStatic) :
    t.lookupMethod c name signature none options = .ok (some r) := by
  have hsearch : t.searchMethod c name signature options = .ok (some r) := by
    unfold ClassTable.searchMethod
    dsimp only
    rw [hdeclared]
  have hcheck : t.checkMethod name none options r = .ok (some r) := by
    unfold ClassTable.checkMethod ClassTable.method?
    simp [hget, hmethod, hstatic]
  unfold ClassTable.lookupMethod
  simp only [hvirtual, hinterface, hsearch, hcheck, Bool.false_eq_true, if_false]

/-- A reference of the method's own kind finds the method. -/
theorem ClassTable.linkMethod_declared (h : t.Started) (hget : t.get? c.id = some c)
    (hlaid : c.Laid) {method : Method} (hfirst : c.FirstMethod i method)
    (hsize : c.methods.size ≤ 65536) (speculative : Bool) :
    t.linkMethod c method.name method.descriptor.render method.referenceKind none speculative =
      .ok (some { owner := c.id, index := UInt16.ofNat i }) := by
  have hmethod := hfirst.method? hsize
  obtain ⟨found, first⟩ := hfirst
  have hdispatched := hlaid.methods method (Array.mem_of_getElem? found)
  obtain ⟨hpartial, hstatic, hvirtual, hinterface⟩ := hdispatched.options speculative rfl
  have hdeclared : ∀ descriptor, method.isCalled method.name descriptor = true →
      (∀ j < i, ∀ earlier, c.methods[j]? = some earlier →
        earlier.isCalled method.name descriptor = false) →
      declaredMethod? c method.name descriptor =
        some { owner := c.id, index := UInt16.ofNat i } := by
    intro descriptor hcalled hothers
    unfold ClassTable.declaredMethod? Class.findMethod?
    rw [findIdx?_of_first found hcalled hothers]
    rfl
  unfold ClassTable.linkMethod
  dsimp only
  split
  · rename_i hpolymorphic
    simp only [Class.isPolymorphic, Bool.and_eq_true, beq_iff_eq] at hpolymorphic
    refine lookupMethod_declared hvirtual hinterface ?_ hget hmethod hstatic
    refine hdeclared none (by simp [Method.isCalled]) ?_
    -- No other method of the class has the name at all.
    intro j hj earlier hearlier
    have hnodup := h.nodup_methodHandle hget hpolymorphic.1
    simp only [Method.isCalled, Bool.and_true, beq_eq_false_iff_ne]
    intro hname
    obtain ⟨hlt, _⟩ := Array.getElem?_eq_some_iff.mp hearlier
    refine Nat.ne_of_lt hj ((List.getElem?_inj (by simpa using hlt) hnodup).mp ?_)
    simp [hearlier, found, hname]
  · refine lookupMethod_declared hvirtual hinterface ?_ hget hmethod hstatic
    rw [hpartial, if_neg Bool.false_ne_true]
    refine hdeclared _ (Method.isCalled_iff.mpr ⟨rfl, rfl⟩) ?_
    intro j hj earlier hearlier
    rw [← Bool.not_eq_true, Method.isCalled_iff]
    exact first j hj earlier hearlier

/-! ## Fields -/

theorem ClassTable.lookupField_declared {name : String} {signature : Option String}
    {options : LookupOptions} {r : FieldRef} {f : Field}
    (hsearch : t.searchField c name signature = some r) (hget : t.get? r.owner = some c)
    (hfield : c.field? r.index = some f) (wantStatic : Bool) :
    t.lookupField c name signature none options wantStatic =
      if f.isStatic = wantStatic then .ok (some r)
      else options.missing (.staticMismatch c.name name f.isStatic) := by
  unfold ClassTable.lookupField
  rw [hsearch]
  unfold ClassTable.checkField ClassTable.field?
  simp only [hget, hfield, Option.bind_some]
  by_cases hs : f.isStatic = wantStatic <;> simp [hs]

/-- A reference finds the field, and its kind becomes that of the field. -/
theorem ClassTable.linkField_declared (hget : t.get? c.id = some c) {f : Field}
    (hfirst : c.FirstField i f) (hsize : c.fields.size ≤ 65536) (kind : ReferenceKind)
    (speculative : Bool) :
    t.linkField c f.name f.type.render kind none speculative =
      .ok (some ({ owner := c.id, index := UInt16.ofNat i }, kind.forField f.isStatic)) := by
  have hfield := hfirst.field? hsize
  obtain ⟨found, first⟩ := hfirst
  have hfind : c.findField? f.name (some f.type.render) = some (UInt16.ofNat i) := by
    unfold Class.findField?
    rw [findIdx?_of_first found (Field.isCalled_iff.mpr ⟨rfl, rfl⟩)]
    · rfl
    · intro j hj earlier hearlier
      rw [← Bool.not_eq_true, Field.isCalled_iff]
      exact first j hj earlier hearlier
  have hsearch : t.searchField c f.name (some f.type.render) =
      some { owner := c.id, index := UInt16.ofNat i } := by
    obtain ⟨limit, hlimit⟩ := Nat.exists_eq_add_one_of_ne_zero
      (Nat.ne_of_gt (Nat.lt_of_le_of_lt (Nat.zero_le _) (ClassTable.lt_size_of_get? hget)))
    unfold ClassTable.searchField
    rw [hlimit]
    unfold ClassTable.searchFieldWithin
    rw [hfind]
  unfold ClassTable.linkField
  simp only [lookupField_declared hsearch hget hfield]
  cases hs : f.isStatic with
  | false => simp
  | true =>
    -- The search for an instance field fails, whether it says so or not.
    cases speculative <;> simp [LookupOptions.missing]

end Linkage
