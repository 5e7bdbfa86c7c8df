import Linkage.Proofs.Effects
import Linkage.Proofs.Runs

/-! # Layouts of classes

    What the layout of a declared class gives to its members:

    * instance fields lie behind the header, at multiples of the slot size,
    * a method is dispatched directly, virtually or through its interface according
      to its access flags, its name and its class.

    Both are kept by each field and method that is laid out, and so hold of every
    class that the class table admits (`ClassTable.Admits.laid`). In every machine
    that a run reaches, the classes are laid out so, each class knows its place, and
    the heap is well formed (`Machine.Sound`). -/

namespace Linkage

/-! ## Folding with failures -/

/-- A fold that succeeds has succeeded at its first element. -/
theorem foldlM_cons_eq_ok {σ δ ε : Type} {f : σ → δ → Except ε σ} {d : δ} {ds : List δ} {s s' : σ}
    (h : (d :: ds).foldlM f s = .ok s') :
    ∃ s₁, f s d = .ok s₁ ∧ ds.foldlM f s₁ = .ok s' := by
  rw [List.foldlM_cons] at h
  cases hd : f s d with
  | error e => simp [hd, bind, Except.bind] at h
  | ok s₁ => exact ⟨s₁, rfl, by simpa [hd, bind, Except.bind] using h⟩

/-- A property that each successful step keeps holds after a successful fold. -/
theorem foldlM_keeps {σ δ ε : Type} {f : σ → δ → Except ε σ} {P : σ → Prop}
    (step : ∀ {s d s'}, f s d = .ok s' → P s → P s') {ds : List δ} {s s' : σ}
    (h : ds.foldlM f s = .ok s') (hs : P s) : P s' := by
  induction ds generalizing s with
  | nil =>
    cases h
    exact hs
  | cons d ds ih =>
    obtain ⟨s₁, hd, hds⟩ := foldlM_cons_eq_ok h
    exact ih hds (step hd hs)

/-! ## Fields -/

/-- A place for an instance field: behind the header, at a multiple of the slot
    size. -/
def Field.IsOffset (slot : Nat) : Prop :=
  Field.headerSize ≤ slot ∧ Field.slotSize ∣ slot

theorem Field.isOffset_headerSize : Field.IsOffset Field.headerSize :=
  ⟨Nat.le_refl _, by decide⟩

/-- Instance fields are at places for instance fields. -/
def Field.Placed (f : Field) : Prop :=
  f.isStatic = false → Field.IsOffset f.slot

/-- The fields laid out so far are placed, and the next one will be. -/
structure FieldLayout.Placed (l : FieldLayout) : Prop where
  fields : ∀ f ∈ l.fields, f.Placed
  next : Field.IsOffset l.instanceSize

theorem FieldLayout.placed_start {superclass : Option Class}
    (h : ∀ s, superclass = some s → Field.IsOffset s.instanceSize) :
    (FieldLayout.start superclass).Placed := by
  refine ⟨by simp [FieldLayout.start], ?_⟩
  cases superclass with
  | none => exact Field.isOffset_headerSize
  | some s => exact h s rfl

theorem FieldLayout.placed_add {l l' : FieldLayout} {d : FieldDeclaration}
    (h : l.add d = .ok l') (hl : l.Placed) : l'.Placed := by
  obtain ⟨hfields, hlo, hdvd⟩ := hl
  unfold FieldLayout.add at h
  split at h
  · cases h
  · split at h
    · -- A static field is not placed, and the next offset stays.
      rename_i hstatic
      cases h
      refine ⟨?_, hlo, hdvd⟩
      intro f hf
      rcases Array.mem_push.mp hf with hf | rfl
      · exact hfields f hf
      · intro hinstance
        simp [Field.isStatic, hstatic] at hinstance
    · cases h
      refine ⟨?_, Nat.le_add_right_of_le hlo, (Nat.dvd_add_right hdvd).mpr (Nat.dvd_refl _)⟩
      intro f hf
      rcases Array.mem_push.mp hf with hf | rfl
      · exact hfields f hf
      · exact fun _ => ⟨hlo, hdvd⟩

/-! ## Methods -/

/-- The method is dispatched as its flags, its name and its class ask for. -/
def Method.Dispatched (m : Method) (inInterface : Bool) : Prop :=
  match m.dispatch with
  | .direct => m.isDirect = true
  | .virtual _ => m.isDirect = false ∧ inInterface = false
  | .interface _ => m.isDirect = false ∧ inInterface = true

/-- A method that is laid out is added behind the others, under the name it is
    declared with. -/
theorem MethodLayout.add_eq_ok {table : ClassTable} {className : String} {inInterface : Bool}
    {l l' : MethodLayout} {d : MethodDeclaration}
    (h : MethodLayout.add table className inInterface l d = .ok l') :
    ∃ m, l'.methods = l.methods.push m ∧ m.name = d.name ∧ m.Dispatched inInterface := by
  unfold MethodLayout.add at h
  split at h
  · cases h
  · dsimp only at h
    -- Direct methods have no index, those of an interface have one in it, all others have one in
    -- the vtable.
    split at h
    · rename_i hdirect
      cases h
      exact ⟨_, rfl, rfl, hdirect⟩
    · rename_i hdirect
      rw [Bool.not_eq_true] at hdirect
      split at h
      · rename_i hinterface
        cases h
        exact ⟨_, rfl, rfl, hdirect, hinterface⟩
      · rename_i hclass
        rw [Bool.not_eq_true] at hclass
        cases h
        exact ⟨_, rfl, rfl, hdirect, hclass⟩

theorem MethodLayout.dispatched_add {table : ClassTable} {className : String}
    {inInterface : Bool} {l l' : MethodLayout} {d : MethodDeclaration}
    (h : MethodLayout.add table className inInterface l d = .ok l')
    (hl : ∀ m ∈ l.methods, m.Dispatched inInterface) :
    ∀ m ∈ l'.methods, m.Dispatched inInterface := by
  obtain ⟨added, hmethods, _, hadded⟩ := add_eq_ok h
  rw [hmethods]
  intro m hm
  rcases Array.mem_push.mp hm with hm | rfl
  · exact hl m hm
  · exact hadded

/-! ## Classes -/

/-- The members of the class are laid out as above, and so is room for fields of
    subclasses. -/
structure Class.Laid (c : Class) : Prop where
  fields : ∀ f ∈ c.fields, f.Placed
  methods : ∀ m ∈ c.methods, m.Dispatched c.isInterface
  size : c.isPrimitive = false → Field.IsOffset c.instanceSize

theorem Class.isPrimitive_of_isSealed {c : Class} (h : c.isSealed = false) :
    c.isPrimitive = false := by
  simp only [Class.isSealed, Bool.or_eq_false_iff] at h
  exact h.1.2

/-- A class that a table of such classes admits is laid out in the same way. -/
theorem ClassTable.Admits.laid {t : ClassTable} {c : Class} (h : t.Admits c)
    (ht : ∀ c ∈ t.classes, c.Laid) : c.Laid := by
  cases h with
  | @declared d superclass interfaces layout _ hsuper _ hlaid classObject =>
    obtain ⟨hd, _, _, hfields, hmethods⟩ := Layout.ofDeclaration_eq_ok hlaid
    -- The fields start behind those of the superclass, which is laid out in the same way.
    have hstart : (FieldLayout.start superclass).Placed := by
      refine FieldLayout.placed_start (fun s hs => ?_)
      obtain ⟨hmem, hsealed⟩ := hsuper s hs
      exact (ht s hmem).size (Class.isPrimitive_of_isSealed hsealed)
    have hplaced := foldlM_keeps (P := FieldLayout.Placed) FieldLayout.placed_add hfields hstart
    refine ⟨hplaced.fields, ?_, fun _ => hplaced.next⟩
    have hinterface : (layout.toClass t.size classObject).isInterface =
        d.access.has Access.interfaceFlag := by
      simp [Layout.toClass, Class.isInterface, hd]
    rw [hinterface]
    exact foldlM_keeps
      (P := fun l => ∀ m ∈ l.methods, m.Dispatched (d.access.has Access.interfaceFlag))
      MethodLayout.dispatched_add hmethods (by simp [MethodLayout.start])
  | primitive p _ classObject =>
    exact ⟨by simp [Class.ofPrimitive], by simp [Class.ofPrimitive], by
      simp [Class.ofPrimitive, Class.isPrimitive]⟩
  | array _ _ _ _ _ _ classObject =>
    exact ⟨by simp [Class.ofArray], by simp [Class.ofArray], fun _ => Field.isOffset_headerSize⟩

/-! ## Machines -/

theorem ClassTable.Admits.id_eq {t : ClassTable} {c : Class} (h : t.Admits c) : c.id = t.size := by
  cases h <;> rfl

theorem ClassTable.get?_push_of_get? {t : ClassTable} {i : ClassId} {c : Class}
    (h : t.get? i = some c) (d : Class) : (t.push d).get? i = some c := by
  obtain ⟨hi, hc⟩ := Array.getElem?_eq_some_iff.mp h
  show (t.classes.push d)[i]? = some c
  rw [Array.getElem?_push_lt hi, hc]

theorem ClassTable.get?_push {t : ClassTable} {i : ClassId} {c d : Class}
    (h : (t.push d).get? i = some c) : t.get? i = some c ∨ i = t.size ∧ c = d := by
  unfold ClassTable.get? at h
  rw [ClassTable.classes_push, Array.getElem?_push] at h
  split at h
  · rename_i hi
    exact Or.inr ⟨hi, (Option.some.inj h).symm⟩
  · exact Or.inl h

/-- The heap is well formed, and classes know their places and are laid out. -/
structure Machine.Sound (m : Machine) : Prop where
  heap : m.heap.WellFormed
  ids : ∀ {i c}, m.classes.get? i = some c → c.id = i
  laid : ∀ {c}, c ∈ m.classes.classes → c.Laid

variable {rule : Discipline} {m m' : Machine}

theorem Machine.sound_bare (config : HeapConfig) : (Machine.bare config).Sound where
  heap := Heap.wellFormed_empty config
  ids := by intro i c h; simp [Machine.bare, ClassTable.empty, ClassTable.get?] at h
  laid := by intro c h; simp [Machine.bare, ClassTable.empty] at h

theorem Change.sound (h : Change rule m m') (hm : m.Sound) : m'.Sound := by
  have hheap := h.wellFormed hm.heap
  rcases h.classes_cases with he | ⟨d, hadmits, he⟩
  · exact ⟨hheap, he ▸ hm.ids, he ▸ hm.laid⟩
  · refine ⟨hheap, ?_, ?_⟩
    · intro i c hc
      rw [he] at hc
      rcases ClassTable.get?_push hc with hold | ⟨rfl, rfl⟩
      · exact hm.ids hold
      · exact hadmits.id_eq
    · intro c hc
      rw [he] at hc
      rcases Array.mem_push.mp hc with hold | rfl
      · exact hm.laid hold
      · exact hadmits.laid (fun c hc => hm.laid hc)

theorem Changes.sound (h : Changes rule m m') (hm : m.Sound) : m'.Sound :=
  h.keeps Change.sound hm

theorem Changes.get?_classes (h : Changes rule m m') {i : ClassId} {c : Class}
    (hc : m.classes.get? i = some c) : m'.classes.get? i = some c := by
  refine h.keeps (P := fun m => m.classes.get? i = some c) ?_ hc
  intro m₁ m₂ hchange hget
  rcases hchange.classes_cases with he | ⟨d, _, he⟩
  · rw [he]; exact hget
  · rw [he]; exact ClassTable.get?_push_of_get? hget d

end Linkage
