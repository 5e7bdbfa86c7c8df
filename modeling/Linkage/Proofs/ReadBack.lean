import Linkage.Proofs.Signatures

/-! # Classes from their signatures

    The signature of a class is found by going from an array class to its component until
    a class comes that is no array class. In every reachable machine this ends, and if the
    signature is one that descriptors can express then it leads back to the class.

    * `ClassTable.ArrayOver`: the class is an array class with so many dimensions over
      another class.
    * `signature_reads_back`: the signature of every class is written down after finitely
      many steps, the name of an array class is its signature, and the class of a signature
      is the class it was taken from, without a change to the machine. -/

namespace Linkage

open Link

variable {rule : Discipline} {m : Machine} {t : ClassTable} {base c : Class} {i : ClassId}
  {ty : TypeDescriptor} {dimensions : Nat}

/-! ## Dimensions and elements -/

/-- The class is an array class with so many dimensions over `base`. -/
inductive ClassTable.ArrayOver (t : ClassTable) (base : Class) : Nat → Class → Prop where
  | base : t.ArrayOver base 0 base
  | array {c component : Class} {k : ClassId} {dimensions : Nat} (kind : c.kind = .array k)
      (found : t.get? k = some component) (inner : t.ArrayOver base dimensions component) :
      t.ArrayOver base (dimensions + 1) c

/-- The dimensions of a class that stands for a type are those of the type. -/
theorem ClassTable.StandsFor.exists_arrayOver (h : t.StandsFor c ty) :
    ∃ base, t.ArrayOver base ty.dimensions c ∧ base.isArray = false := by
  induction h with
  | @primitive c p kind => exact ⟨c, .base, by simp [Class.isArray, kind]⟩
  | @object c kind => exact ⟨c, .base, by simp [Class.isArray, kind]⟩
  | array kind found _ ih =>
    obtain ⟨base, hover, hbase⟩ := ih
    exact ⟨base, .array kind found hover, hbase⟩

/-- Counting dimensions stops at the class that is no array class, with any limit that
    admits so many steps. -/
theorem ClassTable.ArrayOver.element (h : t.ArrayOver base dimensions c)
    (hbase : base.isArray = false) {limit : Nat} (hlimit : dimensions ≤ limit) :
    t.element limit c = (dimensions, base) := by
  induction h generalizing limit with
  | base =>
    unfold Class.isArray at hbase
    cases limit with
    | zero => rfl
    | succ limit => cases hkind : base.kind <;> simp_all [ClassTable.element]
  | array kind found _ ih =>
    cases limit with
    | zero => cases hlimit
    | succ limit =>
      simp only [ClassTable.element, kind, found, ih (Nat.le_of_succ_le_succ hlimit)]

theorem ClassTable.ArrayOver.signature (h : t.ArrayOver base dimensions c)
    (hbase : base.isArray = false) (hsize : dimensions ≤ t.size) :
    t.signature c = String.ofList (List.replicate dimensions '[' ++ base.word) := by
  simp only [ClassTable.signature, h.element hbase hsize]
  rfl

/-! ## Descriptors that can be read -/

/-- A descriptor can be written for the class: it is primitive, or declared under a name
    that holds no character at which the name would end. -/
def Class.Describable (c : Class) : Prop :=
  match c.kind with
  | .primitive _ => True
  | .object => c.name ≠ "" ∧ ∀ x ∈ c.name.toList, x ≠ ';' ∧ x ≠ ')'
  | .array _ => False

/-- The type of an array class over a describable class is one that descriptors express,
    if it has dimensions left and is no array of `void`. -/
theorem ClassTable.ArrayOver.readable (h : t.ArrayOver base dimensions c)
    (hbase : base.Describable) (hty : t.StandsFor c ty) {depth : Nat} {allowVoid : Bool}
    (hdepth : depth + dimensions ≤ TypeDescriptor.maxDimensions)
    (hvoid : base.kind = .primitive .void → dimensions = 0 ∧ allowVoid = true) :
    ty.Readable allowVoid depth := by
  induction h generalizing ty depth allowVoid with
  | base =>
    unfold Class.Describable at hbase
    -- A class that is no array stands for a primitive type or for an object type.
    cases hty with
    | primitive kind =>
      rintro rfl
      exact (hvoid kind).2
    | object kind =>
      rw [kind] at hbase
      refine ⟨fun hempty => hbase.1 (String.toList_injective hempty), fun x hx => ?_⟩
      simp [TypeDescriptor.endsName, hbase.2 x hx]
    | array kind _ _ =>
      rw [kind] at hbase
      cases hbase
  | array kind found _ ih =>
    cases hty with
    | primitive kind' => rw [kind] at kind'; cases kind'
    | object kind' => rw [kind] at kind'; cases kind'
    | array kind' found' stands =>
      rw [kind] at kind'
      cases kind'
      rw [found] at found'
      cases found'
      -- One dimension less is left, and `void` is not allowed any more.
      refine ⟨by omega, ih stands (by omega) (fun hkind => ?_)⟩
      cases (hvoid hkind).1

/-! ## The class of a signature -/

theorem Machine.Typed.classOfDescriptor_signature (h : m.Typed) (env : Environment)
    (hc : m.classes.get? i = some c) (hty : m.classes.StandsFor c ty)
    (hreadable : ty.Readable true 0) :
    classOfDescriptor env (m.classes.signature c) m = (.ok c, m) := by
  have hparse : TypeDescriptor.parseReturn? (m.classes.signature c) = some ty :=
    TypeDescriptor.parseReturn?_eq_some_iff.mpr ⟨(h.named.signature_eq hc hty).symm, hreadable⟩
  unfold classOfDescriptor
  rw [hparse, orFail_some, bind_of_ok (pure_run ty m)]
  exact loadClass_of_find? env (h.find?_className hc hty)

/-- In every reachable machine, for every class: Its signature is written down after going
    through as many components as it has dimensions, and no bound on the steps is felt. If
    it is an array class, then this is its name. And if it has at most 255 dimensions over
    a class that can be described, and is no array of `void`, then the class that its
    signature names is the class itself, and asking for it changes nothing. -/
theorem signature_reads_back (h : m.Reachable rule) (env : Environment)
    (hc : m.classes.get? i = some c) :
    (∃ dimensions base, m.classes.ArrayOver base dimensions c ∧ base.isArray = false ∧
      dimensions < m.classes.size ∧
      (∀ limit, dimensions ≤ limit → m.classes.element limit c = (dimensions, base)) ∧
      m.classes.signature c = String.ofList (List.replicate dimensions '[' ++ base.word)) ∧
    (c.isArray = true → c.name = m.classes.signature c) ∧
    ∀ dimensions base, m.classes.ArrayOver base dimensions c → base.Describable →
      dimensions ≤ 255 → (base.kind = .primitive .void → dimensions = 0) →
      classOfDescriptor env (m.classes.signature c) m = (.ok c, m) := by
  have htyped := h.typed
  -- Every class stands for a type, which its signature spells.
  obtain ⟨ty, hty, hdimensions⟩ := htyped.named.exists_standsFor hc
  refine ⟨?_, ?_, ?_⟩
  · obtain ⟨base, hover, hbase⟩ := hty.exists_arrayOver
    have hsize := Nat.lt_of_le_of_lt hdimensions (ClassTable.lt_size_of_get? hc)
    exact ⟨ty.dimensions, base, hover, hbase, hsize, fun _ hlimit => hover.element hbase hlimit,
      hover.signature hbase (Nat.le_of_lt hsize)⟩
  · intro harray
    obtain ⟨component, rfl⟩ := hty.isArray_iff.mp harray
    rw [htyped.named.name hc hty, htyped.named.signature_eq hc hty]
    rfl
  · intro dimensions base hover hbase hbound hvoid
    refine htyped.classOfDescriptor_signature env hc hty ?_
    exact hover.readable hbase hty (by rw [Nat.zero_add]; exact hbound)
      (fun hkind => ⟨hvoid hkind, rfl⟩)

namespace Sample

/-- Making the method type leaves a class of grids of pixels. -/
theorem exists_grid :
    ∃ (m : Machine) (grid pixel : Class) (i : ClassId), m.Reachable (fun _ {_} _ => True) ∧
      m.classes.get? i = some grid ∧ grid.isArray = true ∧
      m.classes.ArrayOver pixel 2 grid ∧ pixel.kind = .object ∧ pixel.name = "Pixel" := by
  obtain ⟨m, hstart, _, _, _, _, _, hkinds⟩ := drawing_succeeds
  have hreachable : (madeType m).2.Reachable (fun _ {_} _ => True) := by
    have hrun : Run (fun _ {_} _ => True) m (m.perform bare drawing) :=
      Run.perform (fun _ h => by cases h) (fun _ _ _ => trivial) m
    exact ⟨bare, {}, m, hstart,
      .step bare (.newMethodType "(I[[LPixel;)V") (fun _ h => by cases h) trivial hrun⟩
  generalize (madeType m).2 = made at hreachable hkinds
  have hfound := fun pair hpair => Option.map_eq_some_iff.mp (hkinds pair hpair)
  obtain ⟨pixel, hpixel, hobject⟩ := hfound ("Pixel", false) (by simp)
  obtain ⟨row, hrow, hrowKind⟩ := hfound ("[LPixel;", true) (by simp)
  obtain ⟨grid, hgrid, hgridKind⟩ := hfound ("[[LPixel;", true) (by simp)
  have hregisters : made.classes.Registers (.array (.array (.object "Pixel"))) :=
    ⟨⟨grid, hgrid, congrArg Prod.snd hgridKind⟩, ⟨row, hrow, congrArg Prod.snd hrowKind⟩, pixel,
      hpixel, of_decide_eq_true (congrArg Prod.fst hobject)⟩
  have hsame : Changes (fun _ {_} _ => True) made made := .refl made
  have hstands := hreachable.typed.standsFor hsame hregisters hgrid
  have hget := (hreachable.typed.started.toLinked.find?_eq_some_iff.mp hgrid).1
  -- The components are those that the type of the class demands.
  obtain ⟨name, hname⟩ : ∃ name, name = "Pixel" := ⟨_, rfl⟩
  rw [← hname] at hstands
  cases hstands with
  | array kind found stands =>
    cases stands with
    | array kind' found' stands' =>
      cases stands' with
      | object kind'' =>
        exact ⟨made, grid, _, _, hreachable, hget, congrArg Prod.snd hgridKind,
          .array kind found (.array kind' found' .base), kind'', hname⟩

end Sample

theorem grid_signature_reads_back :
    ∃ (m : Machine) (grid pixel : Class) (i : ClassId), m.Reachable (fun _ {_} _ => True) ∧
      m.classes.get? i = some grid ∧ m.classes.ArrayOver pixel 2 grid ∧
      m.classes.signature grid = "[[LPixel;" ∧ grid.name = "[[LPixel;" ∧
      classOfDescriptor Sample.bare "[[LPixel;" m = (.ok grid, m) := by
  obtain ⟨m, grid, pixel, i, hm, hget, harray, hover, hkind, hname⟩ := Sample.exists_grid
  obtain ⟨⟨dimensions, base, _, _, _, helement, hsignature⟩, hnamed, hback⟩ :=
    signature_reads_back hm Sample.bare hget
  have hpixel : pixel.Describable := by simp [Class.Describable, hkind, hname]
  have hnotArray : pixel.isArray = false := by simp [Class.isArray, hkind]
  -- The two ways of counting dimensions agree, so that the signature can be computed.
  have hsame := helement (dimensions + 2) (Nat.le_add_right _ _)
  rw [hover.element hnotArray (Nat.le_add_left _ _), Prod.mk.injEq] at hsame
  rw [← hsame.1, ← hsame.2] at hsignature
  have htext : m.classes.signature grid = "[[LPixel;" := by
    rw [hsignature, Class.word, hkind, hname]
    decide
  have hrun := hback 2 pixel hover hpixel (by decide) (by simp [hkind])
  rw [htext] at hnamed hrun
  exact ⟨m, grid, pixel, i, hm, hget, hover, htext, hnamed harray, hrun⟩

end Linkage
