import Linkage.Proofs.Agreement
import Linkage.Proofs.Descriptors
import Linkage.Proofs.FieldOffsets
import Linkage.Proofs.Interning
import Linkage.Proofs.LoadedNames

/-! # Signatures of classes

    A class stands for a type (`ClassTable.StandsFor`): its signature is the descriptor
    of that type, and its name is the name under which the type is registered. But two
    types may be registered under one name: the object type `int` under that of the
    primitive type, the object type `[I` under that of the array type. And a class may
    be declared under the name of an array type. So the class that is loaded for a type
    need not stand for it.

    * `ClassTable.Registers`: the type, and each component in it, has a class of its own
      kind under its name.
    * `descriptor_names_class`: the signature of the class that a descriptor names is the
      descriptor exactly if its type is registered, and a method type that is made from a
      descriptor of such types describes itself by it. -/

namespace Linkage

open Link

variable {rule : Discipline} {m m' : Machine} {t t' : ClassTable} {c d : Class} {i : ClassId}
  {ty ty' : TypeDescriptor}

/-! ## Types of classes -/

/-- The class stands for the type. -/
inductive ClassTable.StandsFor (t : ClassTable) : Class → TypeDescriptor → Prop where
  | primitive {c : Class} {p : Primitive} (kind : c.kind = .primitive p) :
      t.StandsFor c (.primitive p)
  | object {c : Class} (kind : c.kind = .object) : t.StandsFor c (.object c.name)
  | array {c component : Class} {k : ClassId} {ty : TypeDescriptor} (kind : c.kind = .array k)
      (found : t.get? k = some component) (stands : t.StandsFor component ty) :
      t.StandsFor c (.array ty)

namespace ClassTable.StandsFor

/-- A class stands for one type only. -/
theorem unique (h : t.StandsFor c ty) (h' : t.StandsFor c ty') : ty = ty' := by
  induction h generalizing ty' with
  -- The kind of the class tells which rule applies.
  | primitive kind =>
    cases h' with
    | primitive kind' =>
      rw [kind] at kind'
      cases kind'
      rfl
    | object kind' => rw [kind] at kind'; cases kind'
    | array kind' _ _ => rw [kind] at kind'; cases kind'
  | object kind =>
    cases h' with
    | primitive kind' => rw [kind] at kind'; cases kind'
    | object => rfl
    | array kind' _ _ => rw [kind] at kind'; cases kind'
  | array kind found _ ih =>
    cases h' with
    | primitive kind' => rw [kind] at kind'; cases kind'
    | object kind' => rw [kind] at kind'; cases kind'
    | array kind' found' stands' =>
      rw [kind] at kind'
      cases kind'
      -- Both rules look the component up by the same number.
      rw [found] at found'
      cases found'
      rw [ih stands']

/-- More classes change nothing about the type. -/
theorem mono (h : t.StandsFor c ty) (hget : ∀ {i d}, t.get? i = some d → t'.get? i = some d) :
    t'.StandsFor c ty := by
  induction h with
  | primitive kind => exact .primitive kind
  | object kind => exact .object kind
  | array kind found _ ih => exact .array kind (hget found) ih

theorem isArray_iff (h : t.StandsFor c ty) :
    c.isArray = true ↔ ∃ component, ty = .array component := by
  unfold Class.isArray
  cases h with
  | primitive kind => simp [kind]
  | object kind => simp [kind]
  | array kind _ _ => simp [kind]

end ClassTable.StandsFor

/-- The descriptor of a class that is no array class. -/
def Class.word (c : Class) : List Char :=
  match c.kind with
  | .primitive p => [p.letter]
  | _ => 'L' :: c.name.toList ++ [';']

/-- Counting dimensions and writing the element gives the descriptor of the type. -/
theorem ClassTable.StandsFor.element (h : t.StandsFor c ty) {limit : Nat}
    (hlimit : ty.dimensions ≤ limit) :
    List.replicate (t.element limit c).1 '[' ++ (t.element limit c).2.word = ty.chars := by
  induction h generalizing limit with
  | primitive kind =>
    cases limit <;> simp [ClassTable.element, kind, Class.word, TypeDescriptor.chars]
  | object kind =>
    cases limit <;> simp [ClassTable.element, kind, Class.word, TypeDescriptor.chars]
  | array kind found _ ih =>
    cases limit with
    | zero => cases hlimit
    | succ limit =>
      have hcomponent := ih (Nat.le_of_succ_le_succ hlimit)
      simp only [ClassTable.element, kind, found, TypeDescriptor.chars, List.replicate_succ,
        List.cons_append, hcomponent]

/-- Classes are named as their types demand, and components stand before their arrays. -/
structure ClassTable.Named (t : ClassTable) : Prop where
  component : ∀ {i c k}, t.get? i = some c → c.kind = .array k → k < i
  name : ∀ {i c ty}, t.get? i = some c → t.StandsFor c ty → c.name = ty.className

/-- Every class stands for a type. -/
theorem ClassTable.Named.exists_standsFor (h : t.Named) (hc : t.get? i = some c) :
    ∃ ty, t.StandsFor c ty ∧ ty.dimensions ≤ i := by
  -- The component of an array class stands before it.
  induction i using Nat.strongRecOn generalizing c with
  | ind i ih =>
    cases hkind : c.kind with
    | primitive p => exact ⟨_, .primitive hkind, Nat.zero_le _⟩
    | object => exact ⟨_, .object hkind, Nat.zero_le _⟩
    | array k =>
      have hlt := h.component hc hkind
      have hsize : i < t.size := ClassTable.lt_size_of_get? hc
      obtain ⟨component, hcomponent⟩ : ∃ component, t.get? k = some component :=
        ⟨_, Array.getElem?_eq_getElem (Nat.lt_trans hlt hsize)⟩
      obtain ⟨ty, hty, hdimensions⟩ := ih k hlt hcomponent
      exact ⟨.array ty, .array hkind hcomponent hty,
        Nat.succ_le_of_lt (Nat.lt_of_le_of_lt hdimensions hlt)⟩

/-- The signature of a class is the descriptor of its type. -/
theorem ClassTable.Named.signature_eq (h : t.Named) (hc : t.get? i = some c)
    (hty : t.StandsFor c ty) : t.signature c = ty.render := by
  obtain ⟨ty', hty', hdimensions⟩ := h.exists_standsFor hc
  have hsame := hty.unique hty'
  subst hsame
  have hsize : i < t.size := ClassTable.lt_size_of_get? hc
  rw [TypeDescriptor.render, ← hty.element (Nat.le_of_lt (Nat.lt_of_le_of_lt hdimensions hsize))]
  rfl

/-! ## Names along changes -/

theorem TypeDescriptor.className_array (component : TypeDescriptor) :
    (TypeDescriptor.array component).className = "[" ++ component.render := by
  apply String.toList_injective
  simp [TypeDescriptor.className, TypeDescriptor.render, TypeDescriptor.chars]

/-- A class that the table admits is named as its type demands. -/
theorem ClassTable.Named.push (h : t.Named) (hids : ∀ {i c}, t.get? i = some c → c.id = i)
    (hadmits : t.Admits d) : (t.push d).Named := by
  have hgrows : ∀ {i c}, t.get? i = some c → (t.push d).get? i = some c :=
    fun hget => ClassTable.get?_push_of_get? hget d
  -- A class of the smaller table stands for the same type in the larger one.
  have hback : ∀ {i c ty}, t.get? i = some c → (t.push d).StandsFor c ty → t.StandsFor c ty := by
    intro i c ty hc hty
    obtain ⟨ty', hty', _⟩ := h.exists_standsFor hc
    rw [hty.unique (hty'.mono hgrows)]
    exact hty'
  refine ⟨?_, ?_⟩
  · intro i c k hc hkind
    rcases ClassTable.get?_push hc with hold | ⟨rfl, rfl⟩
    · exact h.component hold hkind
    · cases hadmits with
      | declared => cases hkind
      | primitive => cases hkind
      | @array _ component _ _ _ _ component_mem =>
        cases hkind
        exact ClassTable.lt_size_of_get? (ClassTable.get?_id hids component_mem)
  · intro i c ty hc hty
    rcases ClassTable.get?_push hc with hold | ⟨rfl, rfl⟩
    · exact h.name hold (hback hold hty)
    · cases hadmits with
      | declared =>
        cases hty with
        | primitive kind => cases kind
        | object => rfl
        | array kind _ _ => cases kind
      | primitive =>
        cases hty with
        | primitive kind =>
          cases kind
          rfl
        | object kind => cases kind
        | array kind _ _ => cases kind
      | @array name component _ _ _ _ component_mem named =>
        cases hty with
        | primitive kind => cases kind
        | object kind => cases kind
        | array kind found stands =>
          cases kind
          have hcomponent := ClassTable.get?_id hids component_mem
          rw [hgrows hcomponent] at found
          cases found
          have hsignature := h.signature_eq hcomponent (hback hcomponent stands)
          rw [TypeDescriptor.className_array, ← hsignature]
          exact named

theorem Change.named (h : Change rule m m') (hsound : m.Sound) (hm : m.classes.Named) :
    m'.classes.Named := by
  rcases h.classes_cases with he | ⟨d, hadmits, he⟩
  · rw [he]
    exact hm
  · rw [he]
    exact hm.push hsound.ids hadmits

theorem ClassTable.named_empty : ClassTable.empty.Named where
  component := by intro i c k hc; simp [ClassTable.empty, ClassTable.get?] at hc
  name := by intro i c ty hc; simp [ClassTable.empty, ClassTable.get?] at hc

/-! ## Primitive classes -/

/-- The primitive classes are registered under the names of their types. -/
def ClassTable.HasPrimitives (t : ClassTable) : Prop :=
  ∀ p : Primitive, ∃ c, t.find? p.name = some c ∧ c.kind = .primitive p

theorem Primitive.name_injective {p q : Primitive} (h : p.name = q.name) : p = q := by
  cases p <;> cases q <;> first | rfl | simp [Primitive.name] at h

/-- Whatever is registered under the name of a primitive type is its class. -/
def ClassTable.PrimitivesOnly (t : ClassTable) : Prop :=
  ∀ (p : Primitive) (c : Class), t.find? p.name = some c → c.kind = .primitive p

theorem definePrimitiveClass_eq_ok {p : Primitive} (hm : m.classes.PrimitivesOnly)
    (h : definePrimitiveClass p m = (.ok c, m')) :
    m'.classes.PrimitivesOnly ∧ m'.classes.find? p.name = some c ∧
      ∀ {name d}, m.classes.find? name = some d → m'.classes.find? name = some d := by
  cases hfind : m.classes.find? p.name with
  | some d =>
    unfold definePrimitiveClass addClass at h
    rw [bind_of_ok (findClass_run p.name m), hfind] at h
    cases h
    exact ⟨hm, hfind, fun h => h⟩
  | none =>
    obtain ⟨classObject, heap, _, rfl, rfl⟩ := addClass_eq_ok hfind h
    have hgrows : ∀ {name d}, m.classes.find? name = some d →
        (m.classes.push (Class.ofPrimitive p m.classes.size classObject)).find? name = some d :=
      fun h => ClassTable.find?_push_of_find? h hfind
    have hnew : (m.classes.push (Class.ofPrimitive p m.classes.size classObject)).find? p.name =
        some (Class.ofPrimitive p m.classes.size classObject) := by
      rw [ClassTable.find?_push]
      simp [Class.ofPrimitive]
    refine ⟨?_, hnew, hgrows⟩
    intro q d hd
    rw [ClassTable.find?_push] at hd
    split at hd
    · -- It is the new class, and no other primitive type has its name.
      rename_i hname
      cases hd
      rw [Primitive.name_injective (eq_of_beq hname)]
      rfl
    · exact hm q d hd

theorem forEach_definePrimitiveClass {ps : List Primitive} {cs : List Class}
    (hm : m.classes.PrimitivesOnly) (h : forEach definePrimitiveClass ps m = (.ok cs, m')) :
    m'.classes.PrimitivesOnly ∧ (∀ p ∈ ps, (m'.classes.find? p.name).isSome = true) ∧
      ∀ {name d}, m.classes.find? name = some d → m'.classes.find? name = some d := by
  induction ps generalizing m cs with
  | nil =>
    cases h
    exact ⟨hm, by simp, fun h => h⟩
  | cons p ps ih =>
    obtain ⟨c, m₁, hfirst, h⟩ := bind_eq_ok_iff.mp h
    obtain ⟨cs', m₂, hrest, hlast⟩ := bind_eq_ok_iff.mp h
    cases hlast
    obtain ⟨honly, hfound, hgrows⟩ := definePrimitiveClass_eq_ok hm hfirst
    obtain ⟨honly', hall, hgrows'⟩ := ih honly hrest
    refine ⟨honly', ?_, fun h => hgrows' (hgrows h)⟩
    intro q hq
    rcases List.mem_cons.mp hq with rfl | hq
    · rw [hgrows' hfound]
      rfl
    · exact hall q hq

theorem ClassTable.HasPrimitives.changes (hm : m.classes.HasPrimitives) (h : Changes rule m m') :
    m'.classes.HasPrimitives := by
  intro p
  obtain ⟨c, hfind, hkind⟩ := hm p
  exact ⟨c, h.find?_classes hfind, hkind⟩

theorem not_declared_primitive (p : Primitive) :
    p.name ∉ CoreClasses.declarations.map (·.name) := by
  revert p
  have hall : ∀ p ∈ Primitive.all, p.name ∉ CoreClasses.declarations.map (·.name) := by
    decide +kernel
  intro p
  exact hall p (by cases p <;> decide)

/-- No core class takes the name of a primitive type, so startup defines them all. -/
theorem start_primitives {env : Environment} {config : HeapConfig}
    (h : Machine.start env config = .ok m) : m.classes.HasPrimitives := by
  have hcore := Machine.start_eq_ok_iff.mp h
  obtain ⟨cs, m₁, hdeclared, hothers⟩ := bind_eq_ok_iff.mp hcore
  obtain ⟨_, _, _, hnames⟩ := forEach_defineClass definable_declarations
    ClassTable.linked_empty (fun name => rfl) hdeclared
  -- A primitive type could only have been taken by a core class of its name, and there is none.
  have honly : m₁.classes.PrimitivesOnly := by
    intro p c hfind
    rcases hnames p.name (by rw [hfind]; rfl) with hnone | hname
    · cases hnone
    · exact absurd hname (not_declared_primitive p)
  obtain ⟨_, m₂, hprimitives, hothers⟩ := bind_eq_ok_iff.mp hothers
  obtain ⟨honly', hall, _⟩ := forEach_definePrimitiveClass honly hprimitives
  have hsecond : m₂.classes.HasPrimitives := by
    intro p
    obtain ⟨c, hc⟩ := Option.isSome_iff_exists.mp (hall p (by cases p <;> decide))
    exact ⟨c, hc, honly' p c hc⟩
  obtain ⟨_, m₃, harray, hlast⟩ := bind_eq_ok_iff.mp hothers
  cases hlast
  -- The last step loads an array class, which leaves the primitive classes as they are.
  have hloads : Loads (fun _ {_} _ => True) (loadClass env "[Ljava/lang/Object;") :=
    loads_loadClass env _
  exact hsecond.changes ((changing_of_goes hloads).of_run harray)

/-! ## Machines -/

/-- What is known of the classes of a reachable machine and their types. -/
structure Machine.Typed (m : Machine) : Prop where
  sound : m.Sound
  started : m.classes.Started
  named : m.classes.Named
  primitives : m.classes.HasPrimitives

theorem Changes.typed (h : Changes rule m m') (hm : m.Typed) : m'.Typed := by
  have hboth := h.keeps (P := fun m => m.Sound ∧ m.classes.Started ∧ m.classes.Named)
    (fun hchange hm => ⟨hchange.sound hm.1, hchange.started hm.2.1, hchange.named hm.1 hm.2.2⟩)
    ⟨hm.sound, hm.started, hm.named⟩
  exact ⟨hboth.1, hboth.2.1, hboth.2.2, hm.primitives.changes h⟩

theorem Machine.Reachable.typed (h : m.Reachable rule) : m.Typed := by
  refine ⟨h.sound, h.started, ?_, ?_⟩
  · exact h.of_changes (P := fun m => m.classes.Named) (fun _ => ClassTable.named_empty)
      Change.named
  · obtain ⟨_, _, _, hstart, hrun⟩ := h
    exact (start_primitives hstart).changes hrun.changes

/-! ## Classes of types -/

/-- The type, and each component in it, has a class of its own kind under its name. -/
def ClassTable.Registers (t : ClassTable) : TypeDescriptor → Prop
  | .primitive _ => True
  | .object name => ∃ c, t.find? name = some c ∧ c.kind = .object
  | .array component =>
      (∃ c, t.find? (TypeDescriptor.array component).className = some c ∧ c.isArray = true) ∧
        t.Registers component

namespace Machine.Typed

/-- A class is found under the name of the type it stands for. -/
theorem find?_className (h : m.Typed) (hc : m.classes.get? i = some c)
    (hty : m.classes.StandsFor c ty) : m.classes.find? ty.className = some c :=
  h.started.toLinked.find?_eq_some_iff.mpr
    ⟨by rw [h.started.ids hc]; exact hc, h.named.name hc hty⟩

/-- A class that stands for a type registers it. -/
theorem registers (h : m.Typed) (hc : m.classes.get? i = some c)
    (hty : m.classes.StandsFor c ty) : m.classes.Registers ty := by
  induction hty generalizing i with
  | primitive _ => trivial
  | @object c kind => exact ⟨c, h.find?_className hc (.object kind), kind⟩
  | @array c component k ty kind found stands ih =>
    exact ⟨⟨c, h.find?_className hc (.array kind found stands), by simp [Class.isArray, kind]⟩,
      ih found⟩

/-- The class under the name of a type stands for it, if that is registered later. -/
theorem standsFor {m₂ : Machine} (h : m.Typed) (hlater : Changes rule m m₂)
    (hregisters : m₂.classes.Registers ty) (hfind : m.classes.find? ty.className = some c) :
    m.classes.StandsFor c ty := by
  have hget := (h.started.toLinked.find?_eq_some_iff.mp hfind).1
  have hfind₂ := hlater.find?_classes hfind
  cases ty with
  | primitive p =>
    obtain ⟨d, hd, hkind⟩ := h.primitives p
    rw [show m.classes.find? p.name = some c from hfind, Option.some.injEq] at hd
    exact .primitive (hd ▸ hkind)
  | object name =>
    obtain ⟨d, hd, hkind⟩ := hregisters
    rw [show m₂.classes.find? name = some c from hfind₂, Option.some.injEq] at hd
    have hname : c.name = name := ClassTable.name_of_find? hfind
    rw [← hname]
    exact .object (hd ▸ hkind)
  | array component =>
    obtain ⟨d, hd, harray⟩ := hregisters.1
    rw [hfind₂, Option.some.injEq] at hd
    -- Array classes of one name are classes of one type.
    obtain ⟨ty', hty', _⟩ := h.named.exists_standsFor hget
    obtain ⟨component', rfl⟩ := hty'.isArray_iff.mp (hd ▸ harray)
    have hname := (h.named.name hget hty').symm.trans (ClassTable.name_of_find? hfind)
    have hsame : TypeDescriptor.array component' = .array component :=
      TypeDescriptor.render_injective hname
    rw [← hsame]
    exact hty'

end Machine.Typed

theorem coreClass_machine {name : String} (h : coreClass name m = (.ok c, m')) : m' = m := by
  have hgoes : Goes (fun _ {_} _ => True) (coreClass name) m _ := goes_coreClass name
  exact (hgoes.2 c m' h).1

/-- The array class is found under its name, or it is a new one. -/
theorem defineArrayClass_eq_ok (h : defineArrayClass d m = (.ok c, m')) :
    (m.classes.find? ("[" ++ m.classes.signature d) = some c ∧ m' = m) ∨
      (c.kind = .array d.id ∧ m'.classes = m.classes.push c) := by
  unfold defineArrayClass at h
  split at h
  · cases h
  · rw [bind_of_ok (classes_run m), bind_of_ok (findClass_run _ m)] at h
    cases hfind : m.classes.find? ("[" ++ m.classes.signature d) with
    | some e =>
      rw [hfind] at h
      cases h
      exact Or.inl ⟨rfl, rfl⟩
    | none =>
      rw [hfind] at h
      -- The three supertypes are looked up, and then the class is added.
      obtain ⟨object, m₁, hobject, h⟩ := bind_eq_ok_iff.mp h
      cases coreClass_machine hobject
      obtain ⟨cloneable, m₁, hcloneable, h⟩ := bind_eq_ok_iff.mp h
      cases coreClass_machine hcloneable
      obtain ⟨serializable, m₁, hserializable, h⟩ := bind_eq_ok_iff.mp h
      cases coreClass_machine hserializable
      obtain ⟨classObject, heap, _, rfl, rfl⟩ := addClass_eq_ok hfind h
      exact Or.inr ⟨rfl, rfl⟩

theorem loads_classOfType (env : Environment) (ty : TypeDescriptor) :
    Loads rule (classOfType env ty) :=
  loads_loadClass env ty.className

/-- Changes that declare no class under the name of an array class. -/
structure LoadsOnly (rule : Discipline) (m m' : Machine) : Prop where
  changes : Changes rule m m'
  spares : m.classes.SparesArrayNames m'.classes

theorem LoadsOnly.trans {m'' : Machine} (h : LoadsOnly rule m m') (h' : LoadsOnly rule m' m'') :
    LoadsOnly rule m m'' :=
  ⟨h.changes.trans h'.changes, h.spares.trans h'.spares⟩

theorem loadsOnly_of_run {α : Type} {x : Link α} {a : α} (hx : Changing rule x) (hmodest : Modest x)
    (h : x m = (.ok a, m')) : LoadsOnly rule m m' :=
  ⟨hx.of_run h, hmodest h⟩

/-- The load of a name as an array class is the load of the type it describes. -/
theorem loadClassWithin_of_parse? {env : Environment} {bound : Nat} {name : String}
    (hparse : TypeDescriptor.parse? name = some (.array ty)) (m : Machine) :
    loadClassWithin env (bound + 1) name m =
      classOfTypeWith (loadClassWithin env bound) (.array ty) m := by
  have hname : (TypeDescriptor.array ty).className = name :=
    (TypeDescriptor.parse?_eq_some_iff.mp hparse).1
  have harray : name.toList.head? = some '[' := by
    rw [← hname, TypeDescriptor.className_array]
    simp
  rw [loadClassWithin, classOfTypeWith, hname, bind_of_ok (findClass_run _ m),
    bind_of_ok (findClass_run _ m)]
  cases m.classes.find? name with
  | some e => rfl
  | none => simp only [if_pos harray, hparse]

section

variable {m₂ : Machine} {env : Environment} (hlater : LoadsOnly rule m' m₂)

include hlater

/-- A load for a type that is no array type. -/
theorem standsFor_of_loadClassWithin {bound : Nat} (hm : m.Typed)
    (hregisters : m₂.classes.Registers ty) (hty : ∀ component, ty ≠ .array component)
    (h : loadClassWithin env bound ty.className m = (.ok c, m')) : m'.classes.StandsFor c ty := by
  have hstep : LoadsOnly rule m m' :=
    loadsOnly_of_run (changing_of_goes (loads_loadClassWithin env bound ty.className))
      (modest_loadClassWithin env bound ty.className) h
  have hm' := hstep.changes.typed hm
  refine hm'.standsFor hlater.changes hregisters ?_
  refine find?_of_loadClassWithin hm'.started.toLinked (fun harray => ?_) h
  cases ty with
  | primitive p => exact absurd harray (not_isArrayName_primitive p)
  | array component => exact absurd rfl (hty component)
  | object name =>
    -- The class that is declared under this name has been there from the start.
    obtain ⟨d, hd, hkind⟩ := hregisters
    have hname := ClassTable.name_of_find? hd
    have hmem := (hstep.trans hlater).spares d (ClassTable.mem_of_find? hd) hkind (hname ▸ harray)
    exact hname ▸ ClassTable.exists_find? hmem

theorem standsFor_of_defineArrayClass (hm : m.Typed)
    (hregisters : m₂.classes.Registers (.array ty)) (hd : d ∈ m.classes.classes)
    (hty : m.classes.StandsFor d ty) (h : defineArrayClass d m = (.ok c, m')) :
    m'.classes.StandsFor c (.array ty) := by
  have hget := ClassTable.get?_id hm.started.ids hd
  have hname : "[" ++ m.classes.signature d = (TypeDescriptor.array ty).className := by
    rw [TypeDescriptor.className_array, hm.named.signature_eq hget hty]
  rcases defineArrayClass_eq_ok h with ⟨hfind, rfl⟩ | ⟨hkind, hpush⟩
  · rw [hname] at hfind
    exact hm.standsFor hlater.changes hregisters hfind
  · rw [hpush]
    have hgrows : ∀ {i e}, m.classes.get? i = some e → (m.classes.push c).get? i = some e :=
      fun hget => ClassTable.get?_push_of_get? hget c
    exact .array hkind (hgrows hget) (hty.mono hgrows)

/-- The class of a type stands for it, if the type turns out to be registered. -/
theorem standsFor_of_classOfTypeWith {bound : Nat} (hm : m.Typed)
    (hregisters : m₂.classes.Registers ty)
    (h : classOfTypeWith (loadClassWithin env bound) ty m = (.ok c, m')) :
    m'.classes.StandsFor c ty := by
  have hloads : ∀ ty, Loads rule (classOfTypeWith (loadClassWithin env bound) ty) :=
    loads_classOfTypeWith (loads_loadClassWithin env bound)
  have hmodest := modest_classOfTypeWith (modest_loadClassWithin env bound)
  induction ty generalizing m m' c with
  | primitive p =>
    exact standsFor_of_loadClassWithin hlater hm hregisters (fun _ he => by cases he) h
  | object name =>
    exact standsFor_of_loadClassWithin hlater hm hregisters (fun _ he => by cases he) h
  | array component ih =>
    unfold classOfTypeWith at h
    rw [bind_of_ok (findClass_run _ m)] at h
    cases hfind : m.classes.find? (TypeDescriptor.array component).className with
    | some e =>
      rw [hfind] at h
      cases h
      exact hm.standsFor hlater.changes hregisters hfind
    | none =>
      rw [hfind] at h
      -- First the component is loaded, and what follows declares no class in its way.
      obtain ⟨d, m₁, hcomponent, harray⟩ := bind_eq_ok_iff.mp h
      have hstep := loadsOnly_of_run (changing_of_goes (hloads component)) (hmodest _) hcomponent
      have hd := (hloads component m).2 d m₁ hcomponent
      have hafter : LoadsOnly rule m₁ m' := by
        have hgoes : Goes rule (defineArrayClass d) m₁ (fun c m' => c ∈ m'.classes.classes) :=
          goes_defineArrayClass hd
        have hmachine := hgoes.1
        rw [harray] at hmachine
        exact ⟨hmachine, modest_defineArrayClass d harray⟩
      have hstands := ih (hafter.trans hlater) hm hregisters.2 hcomponent
      exact standsFor_of_defineArrayClass hlater (hstep.changes.typed hm) hregisters hd hstands
        harray

/-- Loading the class of a type asks for the array classes in it by its own descriptor. -/
theorem standsFor_of_classOfType (hm : m.Typed) (hreadable : ty.Readable true 0)
    (hregisters : m₂.classes.Registers ty) (h : classOfType env ty m = (.ok c, m')) :
    m'.classes.StandsFor c ty := by
  cases ty with
  | primitive p =>
    exact standsFor_of_loadClassWithin hlater hm hregisters (fun _ he => by cases he) h
  | object name =>
    exact standsFor_of_loadClassWithin hlater hm hregisters (fun _ he => by cases he) h
  | array component =>
    -- The name is read as a descriptor again, and gives the type back.
    obtain ⟨bound, hbound⟩ := env.loadBound_eq_succ
    have hparse : TypeDescriptor.parse? (TypeDescriptor.array component).className =
        some (.array component) := TypeDescriptor.parse?_eq_some_iff.mpr ⟨rfl, hreadable⟩
    rw [classOfType, loadClass, hbound, loadClassWithin_of_parse? hparse] at h
    exact standsFor_of_classOfTypeWith hlater hm hregisters h

end

/-! ## Descriptors of class objects -/

/-- The class objects describe the types that their classes stand for. -/
theorem signatureOr_run (hm : m.Steady) (hnamed : m.classes.Named) (hc : c ∈ m.classes.classes)
    (hty : m.classes.StandsFor c ty) (e : LinkError) :
    signatureOr e c.classObject m = (.ok ty.render, m) := by
  have hget := ClassTable.get?_id hm.started.ids hc
  unfold signatureOr
  rw [bind_of_ok (classOfObject_of_read (hm.read_classObject hget) hget), orFail_some,
    bind_of_ok (pure_run c m), bind_of_ok (classes_run m), hnamed.signature_eq hget hty]
  rfl

/-- The classes stand for the types, one for one. -/
def Machine.StandFor (m : Machine) (cs : List Class) (tys : List TypeDescriptor) : Prop :=
  List.Forall₂ (fun c ty => c ∈ m.classes.classes ∧ m.classes.StandsFor c ty) cs tys

theorem Machine.StandFor.changes {cs : List Class} {tys : List TypeDescriptor}
    (h : m.StandFor cs tys) (hchanges : Changes rule m m') : m'.StandFor cs tys := by
  refine List.Forall₂.imp ?_ h
  intro c ty hc
  exact ⟨hchanges.mem_classes hc.1, hc.2.mono (fun hget => hchanges.get?_classes hget)⟩

theorem forEach_signatureOr_run (hm : m.Steady) (hnamed : m.classes.Named) {cs : List Class}
    {tys : List TypeDescriptor} (h : m.StandFor cs tys) (e : LinkError) :
    forEach (signatureOr e) (cs.map Class.classObject) m =
      (.ok (tys.map TypeDescriptor.render), m) := by
  induction h with
  | nil => rfl
  | cons hfirst _ ih =>
    rw [List.map_cons, forEach, bind_of_ok (signatureOr_run hm hnamed hfirst.1 hfirst.2 e),
      bind_of_ok ih]
    rfl

theorem MethodDescriptor.render_eq (d : MethodDescriptor) :
    "(" ++ String.join (d.parameters.map TypeDescriptor.render) ++ ")" ++ d.result.render =
      d.render := by
  apply String.toList_injective
  simp [MethodDescriptor.render, MethodDescriptor.chars, TypeDescriptor.render, List.flatMap_map]

theorem methodDescriptor_run (hm : m.Steady) (hnamed : m.classes.Named) {cs : List Class}
    {d : MethodDescriptor} (hparameters : m.StandFor cs d.parameters)
    (hc : c ∈ m.classes.classes) (hresult : m.classes.StandsFor c d.result) :
    methodDescriptor c.classObject (cs.map Class.classObject) m = (.ok d.render, m) := by
  unfold methodDescriptor
  rw [bind_of_ok (forEach_signatureOr_run hm hnamed hparameters _),
    bind_of_ok (signatureOr_run hm hnamed hc hresult _), d.render_eq]
  rfl

theorem modest_intern (text : String) : Modest (intern text) := by
  refine modest_of_keeps (fun m => ?_)
  rcases intern_run_cases text m with ⟨_, _, hrun⟩ | ⟨_, _, _, hrun⟩ | ⟨_, _, _, _, hrun⟩
  all_goals rw [hrun]

theorem loadsOnly_classOfType {env : Environment} (h : classOfType env ty m = (.ok c, m')) :
    LoadsOnly rule m m' :=
  loadsOnly_of_run (changing_of_goes (loads_classOfType env ty))
    (modest_loadClassWithin env env.loadBound ty.className) h

/-- The classes of types stand for them, if these turn out to be registered. -/
theorem standFor_of_forEach {env : Environment} {m₂ : Machine} {tys : List TypeDescriptor}
    {cs : List Class} (hlater : LoadsOnly rule m' m₂) (hm : m.Typed)
    (htys : ∀ ty ∈ tys, ty.Readable true 0 ∧ m₂.classes.Registers ty)
    (h : forEach (classOfType env) tys m = (.ok cs, m')) :
    LoadsOnly rule m m' ∧ m'.StandFor cs tys := by
  induction tys generalizing m cs with
  | nil =>
    cases h
    exact ⟨⟨.refl _, .refl _⟩, .nil⟩
  | cons ty tys ih =>
    obtain ⟨c, m₁, hfirst, h⟩ := bind_eq_ok_iff.mp h
    obtain ⟨cs', m₃, hrest, hlast⟩ := bind_eq_ok_iff.mp h
    cases hlast
    have hbefore : LoadsOnly rule m m₁ := loadsOnly_classOfType hfirst
    obtain ⟨hafter, hothers⟩ := ih (hbefore.changes.typed hm)
      (fun ty hty => htys ty (List.mem_cons_of_mem _ hty)) hrest
    obtain ⟨hreadable, hregisters⟩ := htys ty List.mem_cons_self
    -- The type is registered at the end of the run; its class is the same from here on.
    have hstands := standsFor_of_classOfType (hafter.trans hlater) hm hreadable hregisters hfirst
    have hloads : Goes rule (classOfType env ty) m (fun c m' => c ∈ m'.classes.classes) :=
      loads_classOfType env ty m
    refine ⟨hbefore.trans hafter, .cons ⟨?_, ?_⟩ hothers⟩
    · exact hafter.changes.mem_classes (hloads.2 c m₁ hfirst)
    · exact hstands.mono (fun hget => hafter.changes.get?_classes hget)

/-! ## Descriptors through classes -/

theorem Run.mono {rule rule' : Discipline}
    (hrule : ∀ (m : Machine) {α : Type} (op : Operation α), rule m op → rule' m op)
    (h : Run rule m m') : Run rule' m m' := by
  induction h with
  | refl m => exact .refl m
  | step env op _ follows _ hinvoke ih => exact .step env op hinvoke (hrule _ op follows) ih

theorem Machine.Reachable.mono {rule rule' : Discipline}
    (hrule : ∀ (m : Machine) {α : Type} (op : Operation α), rule m op → rule' m op)
    (h : m.Reachable rule) : m.Reachable rule' := by
  obtain ⟨env, config, m₀, hstart, hrun⟩ := h
  exact ⟨env, config, m₀, hstart, hrun.mono hrule⟩

/-- Outside code leaves class objects and interned strings alone. -/
def SharedKept : Discipline := fun m {_} op =>
  ClassObjectsKept m op ∧ InternedKept m op

/-- The class objects of the method type spell the descriptor, now and later. -/
def Machine.SelfDescribing (m : Machine) (type : MethodType) (descriptor : String) : Prop :=
  ∀ m', Run SharedKept m m' →
    methodDescriptor type.result type.parameters m' = (.ok descriptor, m')

/-- Making a method type: the classes of its types are loaded one after the other, then the
    descriptor is interned, and then the object is stored. -/
theorem newMethodType_eq_ok {env : Environment} {descriptor : String} {handle : Handle}
    (h : newMethodType env descriptor m = (.ok handle, m')) :
    ∃ d parameters result text m₁ m₂ m₃, MethodDescriptor.parse? descriptor = some d ∧
      forEach (classOfType env) d.parameters m = (.ok parameters, m₁) ∧
      classOfType env d.result m₁ = (.ok result, m₂) ∧
      intern descriptor m₂ = (.ok text, m₃) ∧
      allocate (.methodType
        { result := result.classObject
          parameters := parameters.map Class.classObject
          descriptor := some text }) m₃ = (.ok handle, m') := by
  unfold newMethodType at h
  cases hparse : MethodDescriptor.parse? descriptor with
  | none =>
    rw [hparse] at h
    cases h
  | some d =>
    rw [hparse, orFail_some, bind_of_ok (pure_run d m)] at h
    obtain ⟨parameters, m₁, hparameters, h⟩ := bind_eq_ok_iff.mp h
    obtain ⟨result, m₂, hresult, h⟩ := bind_eq_ok_iff.mp h
    obtain ⟨text, m₃, htext, h⟩ := bind_eq_ok_iff.mp h
    exact ⟨d, parameters, result, text, m₁, m₂, m₃, rfl, hparameters, hresult, htext, h⟩

/-- The signature of the class that a descriptor names. -/
theorem signature_of_classOfType (hm : m.Typed) {env : Environment} {descriptor : String}
    (hparse : TypeDescriptor.parseReturn? descriptor = some ty)
    (h : classOfType env ty m = (.ok c, m')) :
    m'.classes.signature c = descriptor ↔ m'.classes.Registers ty := by
  obtain ⟨hrender, hreadable⟩ := TypeDescriptor.parseReturn?_eq_some_iff.mp hparse
  have hloads : Goes (fun _ {_} _ => True) (classOfType env ty) m
      (fun c m' => c ∈ m'.classes.classes) := loads_classOfType env ty m
  have hstep : LoadsOnly (fun _ {_} _ => True) m m' := loadsOnly_classOfType h
  have hm' : m'.Typed := hstep.changes.typed hm
  have hget := ClassTable.get?_id hm'.started.ids (hloads.2 c m' h)
  constructor
  · intro hsignature
    -- Whatever the class stands for is written like the type, so it is the type.
    obtain ⟨ty', hty', _⟩ := hm'.named.exists_standsFor hget
    have hsame : ty' = ty := by
      apply TypeDescriptor.render_injective
      rw [← hm'.named.signature_eq hget hty', hsignature, hrender]
    exact hm'.registers hget (hsame ▸ hty')
  · intro hregisters
    have hlater : LoadsOnly (fun _ {_} _ => True) m' m' := ⟨.refl _, .refl _⟩
    have hstands := standsFor_of_classOfType hlater hm hreadable hregisters h
    rw [hm'.named.signature_eq hget hstands, hrender]

/-- What making a method type leaves behind, in a machine where class objects and interned
    strings are in place. -/
theorem methodType_of_newMethodType (hm : m.Typed) (hobjects : m.ClassObjectsInPlace)
    (htexts : m.TextsInPlace) {env : Environment} {descriptor : String} {handle : Handle}
    (h : newMethodType env descriptor m = (.ok handle, m')) :
    ∃ d type text, MethodDescriptor.parse? descriptor = some d ∧
      m'.heap.read handle = .ok (.methodType type) ∧ type.descriptor = some text ∧
      m'.heap.read text = .ok (.string descriptor) ∧
      ((∀ ty ∈ d.result :: d.parameters, m'.classes.Registers ty) →
        m'.SelfDescribing type descriptor) := by
  obtain ⟨d, parameters, result, text, m₁, m₂, m₃, hparse, hparameters, hresult, htext, hstore⟩ :=
    newMethodType_eq_ok h
  obtain ⟨hrender, hreadable, hreadable'⟩ := MethodDescriptor.render_of_parse? hparse
  -- Nothing but changes happens, whatever outside code may do at other times.
  have hstep₁ : ∀ rule, Changes rule m m₁ := fun rule =>
    (changing_forEach (loads_classOfType env) d.parameters).of_run hparameters
  have hstep₂ : ∀ rule, LoadsOnly rule m₁ m₂ := fun rule => loadsOnly_classOfType hresult
  have hstep₃ : ∀ rule, Changes rule m₂ m₃ := fun rule => (changing_intern descriptor).of_run htext
  have hbefore : ∀ rule, Changes rule m m₃ := fun rule =>
    ((hstep₁ rule).trans (hstep₂ rule).changes).trans (hstep₃ rule)
  have hm₃ : m₃.Typed := (hbefore ClassObjectsKept).typed hm
  have hgoes : ∀ rule, Goes rule (allocate (.methodType
      { result := result.classObject
        parameters := parameters.map Class.classObject
        descriptor := some text })) m₃ _ := fun rule => goes_allocate hm₃.sound.heap trivial
  have hstep₄ : ∀ rule, Changes rule m₃ m' := by
    intro rule
    have hmachine := (hgoes rule).1
    rw [hstore] at hmachine
    exact hmachine
  have hafter : ∀ rule, Changes rule m m' := fun rule => (hbefore rule).trans (hstep₄ rule)
  have hm' : m'.Typed := (hafter ClassObjectsKept).typed hm
  refine ⟨d, _, text, hparse, (hgoes ClassObjectsKept).2 handle m' hstore, rfl, ?_, ?_⟩
  · have hfind := (hstep₄ InternedKept).find?_strings (find?_of_intern htext)
    have hplaced := (hafter InternedKept).textsInPlace hm.sound.heap htexts
    exact (read_eq_ok_iff hm'.sound.heap).mpr (hplaced _ _ hfind)
  · intro htypes m'' hrun
    have hlater : Changes ClassObjectsKept m' m'' := (hrun.mono (fun _ _ _ hop => hop.1)).changes
    have hsteady : m''.Steady :=
      hlater.steady ((hafter ClassObjectsKept).steady ⟨hm.sound, hm.started, hobjects⟩)
    have hrest : LoadsOnly ClassObjectsKept m₂ m' := by
      refine ⟨(hstep₃ ClassObjectsKept).trans (hstep₄ ClassObjectsKept), ?_⟩
      exact (modest_intern descriptor htext).trans (modest_allocate _ hstore)
    obtain ⟨_, hparameters'⟩ := standFor_of_forEach ((hstep₂ ClassObjectsKept).trans hrest) hm
      (fun ty hty => ⟨(hreadable ty hty).allow_void, htypes ty (List.mem_cons_of_mem _ hty)⟩)
      hparameters
    have hresult' := standsFor_of_classOfType hrest ((hstep₁ ClassObjectsKept).typed hm)
      hreadable' (htypes d.result List.mem_cons_self) hresult
    have hloads : Goes ClassObjectsKept (classOfType env d.result) m₁
        (fun c m' => c ∈ m'.classes.classes) := loads_classOfType env d.result m₁
    have hmem := hloads.2 result m₂ hresult
    have hend := hrest.changes.trans hlater
    have hdescribed := methodDescriptor_run hsteady (hlater.typed hm').named
      (hparameters'.changes ((hstep₂ ClassObjectsKept).changes.trans hend))
      (hend.mem_classes hmem) (hresult'.mono (fun hget => hend.get?_classes hget))
    rw [hdescribed, hrender]

/-- In every reachable machine: The class that a descriptor names has that descriptor as
    its signature exactly if the type, and each component in it, has a class of its own kind
    under its name. A method type that is made from a descriptor carries it, and if its
    types are registered so, then its class objects spell the descriptor at any later time. -/
theorem descriptor_names_class (h : m.Reachable rule) (env : Environment) (descriptor : String) :
    (∀ c m', classOfDescriptor env descriptor m = (.ok c, m') →
      ∃ ty, TypeDescriptor.parseReturn? descriptor = some ty ∧
        (m'.classes.signature c = descriptor ↔ m'.classes.Registers ty)) ∧
    (m.Reachable SharedKept →
      ∀ handle m', newMethodType env descriptor m = (.ok handle, m') →
        ∃ d type text, MethodDescriptor.parse? descriptor = some d ∧
          m'.heap.read handle = .ok (.methodType type) ∧ type.descriptor = some text ∧
          m'.heap.read text = .ok (.string descriptor) ∧
          ((∀ ty ∈ d.result :: d.parameters, m'.classes.Registers ty) →
            m'.SelfDescribing type descriptor)) := by
  constructor
  · intro c m' hrun
    unfold classOfDescriptor at hrun
    cases hparse : TypeDescriptor.parseReturn? descriptor with
    | none =>
      rw [hparse] at hrun
      cases hrun
    | some ty =>
      rw [hparse, orFail_some, bind_of_ok (pure_run ty m)] at hrun
      exact ⟨ty, rfl, signature_of_classOfType h.typed hparse hrun⟩
  · intro hshared handle m' hrun
    have hobjects := (hshared.mono (fun _ _ _ hop => hop.1)).steady.classObjects
    have htexts := (hshared.mono (fun _ _ _ hop => hop.2)).textsInPlace
    exact methodType_of_newMethodType h.typed hobjects htexts hrun

/-- Classes are defined without touching objects that are shared. -/
theorem Sample.reachable_drawing_shared (hstart : Machine.start Sample.bare {} = .ok m) :
    (m.perform Sample.bare Sample.drawing).Reachable SharedKept :=
  Sample.reachable_drawing hstart (fun _ _ => ⟨trivial, trivial⟩)

theorem Sample.named_eq_ok {descriptor text : String}
    (h : Succeeds (Sample.named descriptor m).1 (· = text)) :
    ∃ c m', classOfDescriptor Sample.bare descriptor m = (.ok c, m') ∧
      m'.classes.signature c = text := by
  obtain ⟨m', hrun⟩ : ∃ m', Sample.named descriptor m = (.ok text, m') :=
    ⟨_, Prod.fst_eq_iff.mp h.eq_ok⟩
  obtain ⟨c, m₁, hc, hlast⟩ := bind_eq_ok_iff.mp hrun
  have hsignature : (.ok (m₁.classes.signature c), m₁) = (Except.ok text, m') := hlast
  rw [Prod.mk.injEq, Except.ok.injEq] at hsignature
  exact ⟨c, m₁, hc, hsignature.1⟩

theorem pixel_descriptor_names_class :
    ∃ m : Machine, m.Reachable SharedKept ∧
      (∃ c m' ty, classOfDescriptor Sample.bare "[LPixel;" m = (.ok c, m') ∧
        TypeDescriptor.parseReturn? "[LPixel;" = some ty ∧
        m'.classes.signature c = "[LPixel;" ∧ m'.classes.Registers ty) ∧
      ∃ handle m' type, newMethodType Sample.bare "(I[[LPixel;)V" m = (.ok handle, m') ∧
        m'.heap.read handle = .ok (.methodType type) ∧
        m'.SelfDescribing type "(I[[LPixel;)V" := by
  obtain ⟨m, hstart, _, hnamed, _, _, ⟨handle, hmade, _⟩, hkinds⟩ := Sample.drawing_succeeds
  have hreachable := Sample.reachable_drawing_shared hstart
  refine ⟨_, hreachable, ?_, ?_⟩
  · obtain ⟨c, m', hc, hsignature⟩ := Sample.named_eq_ok (hnamed ("[LPixel;", "[LPixel;") (by simp))
    obtain ⟨ty, hparse, hiff⟩ :=
      (descriptor_names_class hreachable Sample.bare "[LPixel;").1 c m' hc
    exact ⟨c, m', ty, hc, hparse, hsignature, hiff.mp hsignature⟩
  · have hrun := Prod.fst_eq_iff.mp hmade
    generalize (Sample.madeType m).2 = made at hrun hkinds
    unfold Sample.madeType at hrun
    obtain ⟨d, type, text, hparse, hread, _, _, hdescribes⟩ :=
      (descriptor_names_class hreachable Sample.bare "(I[[LPixel;)V").2 hreachable handle _ hrun
    -- The three types are read off, and each has a class of its own kind.
    have hd : MethodDescriptor.parse? "(I[[LPixel;)V" = some
        { parameters := [.primitive .int, .array (.array (.object "Pixel"))]
          result := .primitive .void } := by decide +kernel
    rw [hparse, Option.some.injEq] at hd
    subst hd
    have hfound : ∀ name array, (name, array) ∈ [("Pixel", false), ("[LPixel;", true),
        ("[[LPixel;", true)] → ∃ c, made.classes.find? name = some c ∧
          decide (c.kind = .object) = !array ∧ c.isArray = array := by
      intro name array hpair
      obtain ⟨c, hc, hkind⟩ := Option.map_eq_some_iff.mp (hkinds (name, array) hpair)
      rw [Prod.mk.injEq] at hkind
      exact ⟨c, hc, hkind⟩
    obtain ⟨pixel, hpixel, hobject, _⟩ := hfound "Pixel" false (by simp)
    obtain ⟨row, hrow, _, hrowArray⟩ := hfound "[LPixel;" true (by simp)
    obtain ⟨grid, hgrid, _, hgridArray⟩ := hfound "[[LPixel;" true (by simp)
    refine ⟨handle, made, type, hrun, hread, hdescribes ?_⟩
    intro ty hty
    simp only [List.mem_cons, List.not_mem_nil, or_false] at hty
    rcases hty with rfl | rfl | rfl
    · exact trivial
    · exact trivial
    · exact ⟨⟨grid, hgrid, hgridArray⟩, ⟨row, hrow, hrowArray⟩, pixel, hpixel,
        of_decide_eq_true hobject⟩

theorem descriptor_names_other_class :
    ∃ m : Machine, m.Reachable SharedKept ∧
      (∀ descriptor ∈ ["L[I;", "Lint;", "[LColour;"], ∃ c m',
        classOfDescriptor Sample.bare descriptor m = (.ok c, m') ∧
          m'.classes.signature c ≠ descriptor) ∧
      (Sample.spelled "(L[I;)V" (pure ()) m).1 = .ok "([I)V" ∧
      ∀ text, (Sample.spelled "(I)V" (Sample.forget "int") m).1 ≠ .ok text := by
  obtain ⟨m, hstart, _, hnamed, hspelled, hforgotten, _⟩ := Sample.drawing_succeeds
  have hreachable := Sample.reachable_drawing_shared hstart
  have hspelled := hspelled.eq_ok
  refine ⟨_, hreachable, ?_, hspelled, ?_⟩
  · -- Each descriptor names a class whose signature is another one.
    have hother : ∀ pair ∈ [("L[I;", "[I"), ("Lint;", "I"), ("[LColour;", "L[LColour;;")],
        ∃ c m', classOfDescriptor Sample.bare pair.1 (m.perform Sample.bare Sample.drawing) =
          (.ok c, m') ∧ m'.classes.signature c ≠ pair.1 := by
      intro pair hpair
      obtain ⟨c, m', hc, hsignature⟩ :=
        Sample.named_eq_ok (hnamed pair (List.mem_cons_of_mem _ hpair))
      refine ⟨c, m', hc, ?_⟩
      rw [hsignature]
      simp only [List.mem_cons, List.not_mem_nil, or_false] at hpair
      rcases hpair with rfl | rfl | rfl <;> decide
    intro descriptor hdescriptor
    simp only [List.mem_cons, List.not_mem_nil, or_false] at hdescriptor
    rcases hdescriptor with rfl | rfl | rfl
    · exact hother ("L[I;", "[I") (by simp)
    · exact hother ("Lint;", "I") (by simp)
    · exact hother ("[LColour;", "L[LColour;;") (by simp)
  · exact fun text htext => hforgotten ⟨text, htext, trivial⟩

end Linkage
