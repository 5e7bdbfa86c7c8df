import Linkage.Proofs.ConstantCycles
import Linkage.Proofs.Interning
import Linkage.Proofs.Startup

/-! # Copying bootstrap arguments

    While arguments of a dynamic constant are copied, each of them may load classes,
    resolve other constants and call bootstrap methods. None of that touches the array that
    they are copied to, as long as the bootstrap methods do not.

    * `carries_constantObjectWithin`: resolving a constant leaves an object alone that
      bootstrap methods leave alone.
    * `LengthKept`: outside code leaves an array as long as it is, and then it is.
    * `copyArguments_split`: a copy can be made in two parts.
    * `ArgumentCopy.Yields`: what the argument with a number is.
    * `ArgumentCopy.Copied`: the values that have been copied so far, one after the other.
    * `copyArguments_exact`: the array ends up with these values in their places, also when
      the next one fails. -/

namespace Linkage

open Link

variable {env : Environment} {c : Class} {r : ArgumentCopy} {d : DynamicConstant} {m m' : Machine}
  {constant : Class → UInt16 → Bool → Link (Option Handle)}

/-! ## Arguments and what they need -/

section Framed

variable {P : Machine → Prop}

theorem keeps_memberReferenceAt (c : Class) (reference : UInt16) :
    Keeps P (memberReferenceAt c reference) := by
  refine keeps_bind (keeps_orFail _ _) (fun entry => ?_)
  cases entry <;> first | exact keeps_pure _ | exact keeps_fail _

theorem keeps_dynamicConstant (r : ArgumentCopy) (c : Class) : Keeps P (r.dynamicConstant c) := by
  unfold ArgumentCopy.dynamicConstant
  grind

theorem keeps_argumentValue (hP : Framed P)
    (hconstant : ∀ k resolve, Keeps P (constant c k resolve))
    (number : Int) : Keeps P (argumentValue env constant r c d number) := by
  have htype : Keeps P (dynamicType env d) := by
    unfold dynamicType
    grind
  unfold argumentValue
  grind

theorem copyArgument_eq (env : Environment)
    (constant : Class → UInt16 → Bool → Link (Option Handle)) (r : ArgumentCopy) (c : Class)
    (d : DynamicConstant) (distance : Nat) :
    copyArgument env constant r c d distance =
      argumentValue env constant r c d (r.start.toInt + distance) >>= fun value =>
        update r.buffer (Object.setElement (r.position.toInt.toNat + distance) value) := by
  unfold copyArgument
  simp only [resolve_updateAt]

theorem keeps_copyArgumentsWith_of
    (hcopy : ∀ d distance, Keeps P (copyArgument env constant r c d distance)) :
    Keeps P (copyArgumentsWith env constant c r) := by
  have hdynamic := keeps_dynamicConstant (P := P) r c
  unfold copyArgumentsWith
  grind

theorem keeps_copyArgumentsWith
    (hvalue : ∀ d number, Keeps P (argumentValue env constant r c d number))
    (hstore : ∀ index value, Keeps P (update r.buffer (Object.setElement index value))) :
    Keeps P (copyArgumentsWith env constant c r) := by
  refine keeps_copyArgumentsWith_of (fun d distance => ?_)
  rw [copyArgument_eq]
  exact keeps_bind (hvalue d _) (fun value => hstore _ value)

end Framed

/-! ## An object that is left alone -/

section Carries

variable {handle : Handle} {S : Object → Prop}

theorem carries_resolveClassConstant (env : Environment) (c : Class) (index : UInt16) :
    Keeps (Machine.Carries handle S) (resolveClassConstant env c index) := by
  refine keeps_bind (keeps_orFail _ _) (fun entry => ?_)
  cases entry with
  | classRef name =>
    have hload := keeps_loadClass (framed_carries handle S) env name
    exact carries_memoize _ (keeps_bind hload (fun _ => keeps_pure _))
  | _ => exact keeps_fail _

/-- A method handle fills a member name, which is a new one. -/
theorem carries_newMethodHandle
    (hS : ∀ text object, S object → S (Object.setDescriptor text object)) (env : Environment)
    (c : Class) (kind : ReferenceKind) (reference : UInt16) :
    Keeps (Machine.Carries handle S) (newMethodHandle env c kind reference) := by
  have hframed := framed_carries handle S
  refine keeps_bind (keeps_memberReferenceAt c reference) (fun described => ?_)
  refine keeps_bind (carries_resolveClassConstant env c _) (fun clazz => ?_)
  refine keeps_bind (keeps_intern hframed _) (fun name => ?_)
  refine keeps_bind (keeps_intern hframed _) (fun type => ?_)
  refine carries_allocate_bind (fun mn hmn => ?_)
  refine keeps_bind (keeps_resolveMemberName hframed (carries_updateMemberName hmn)
    (fun type text => carries_update (Or.inr (hS text))) _ _) (fun resolved => ?_)
  cases resolved with
  | some member => exact keeps_allocate hframed _
  | none => exact keeps_fail _

variable (hinvoke : ∀ invoke, env.invoker = some invoke → ∀ c buffer, buffer ≠ handle →
  Keeps (Machine.Carries handle S) (invoke c buffer))

include hinvoke

/-- The arguments of a bootstrap method are copied to a new array. -/
theorem carries_callBootstrap
    (hconstant : ∀ k resolve, Keeps (Machine.Carries handle S) (constant c k resolve))
    (index number : UInt16) :
    Keeps (Machine.Carries handle S) (callBootstrap env constant c index number) := by
  have hframed := framed_carries handle S
  refine keeps_bind_orFail (fun invoke hinvoker => ?_)
  refine keeps_bind (keeps_orFail _ _) (fun bootstrap => ?_)
  refine keeps_bind (keeps_coreClass _) (fun object => ?_)
  refine carries_allocate_bind (fun buffer hbuffer => ?_)
  refine keeps_bind (keeps_copyArgumentsWith (fun d => keeps_argumentValue hframed hconstant)
    (fun _ _ => carries_update (Or.inl hbuffer))) (fun _ => ?_)
  refine keeps_bind (keeps_elements buffer) (fun arguments => ?_)
  refine keeps_bind (keeps_recordCall hframed _) (fun _ => ?_)
  exact keeps_bind (hinvoke invoke hinvoker c buffer hbuffer) (fun answer => keeps_orFail _ _)

variable (hS : ∀ text object, S object → S (Object.setDescriptor text object))

include hS

theorem carries_constantObjectWith
    (hconstant : ∀ k resolve, Keeps (Machine.Carries handle S) (constant c k resolve))
    (index : UInt16) (resolve : Bool) :
    Keeps (Machine.Carries handle S) (constantObjectWith env constant c index resolve) := by
  have hframed := framed_carries handle S
  -- The four kinds that are remembered all compute first and fill their slot then.
  have hlazy : ∀ entry,
      Keeps (Machine.Carries handle S) (resolveLazyWith env constant c index entry) := by
    intro entry
    cases entry with
    | classRef name => exact keeps_map _ (carries_resolveClassConstant env c index)
    | stringRef text =>
      refine keeps_map _ (keeps_bind (keeps_orFail _ _) (fun entry => ?_))
      cases entry with
      | stringRef text => exact carries_memoize _ (keeps_intern hframed text)
      | _ => exact keeps_fail _
    | methodType descriptor =>
      refine keeps_map _ (keeps_bind (keeps_orFail _ _) (fun entry => ?_))
      cases entry with
      | methodType descriptor =>
        exact carries_memoize _ (keeps_newMethodType hframed env descriptor)
      | _ => exact keeps_fail _
    | methodHandle kind reference =>
      refine keeps_map _ (keeps_bind (keeps_orFail _ _) (fun entry => ?_))
      cases entry with
      | methodHandle kind reference =>
        exact carries_memoize _ (carries_newMethodHandle hS env c kind reference)
      | _ => exact keeps_fail _
    | dynamic number name descriptor =>
      refine keeps_map _ (keeps_bind (keeps_orFail _ _) (fun entry => ?_))
      cases entry with
      | dynamic number name descriptor =>
        exact carries_memoize _ (carries_callBootstrap hinvoke hconstant index number)
      | _ => exact keeps_fail _
    | _ => exact keeps_pure none
  unfold constantObjectWith
  grind

theorem carries_constantObjectWithin (bound : Nat) (index : UInt16) (resolve : Bool) :
    Keeps (Machine.Carries handle S) (constantObjectWithin env bound c index resolve) := by
  induction bound generalizing index resolve with
  | zero => exact keeps_failWith _
  | succ bound ih => exact carries_constantObjectWith hinvoke hS ih index resolve

end Carries

/-! ## The constant that is meant -/

theorem ArgumentCopy.slot?_eq_some_iff {index : UInt16} :
    r.slot? = some index ↔ r.index.toInt = index.toNat := by
  have hzero : 0 ≤ r.index ↔ 0 ≤ r.index.toInt := by
    rw [Int32.le_iff_toInt_le, Int32.toInt_zero]
  have hlt : index.toNat < 65536 := index.toNat_lt
  unfold ArgumentCopy.slot?
  split
  · -- A number in range is its own remainder modulo 65536.
    rename_i hindex
    rw [hzero] at hindex
    have hsmall : r.index.toInt.toNat < UInt16.size := show _ < 65536 by omega
    rw [Option.some.injEq, ← UInt16.toNat_inj, UInt16.toNat_ofNat_of_lt' hsmall]
    omega
  · rename_i hindex
    rw [hzero] at hindex
    constructor
    · intro h
      cases h
    · intro h
      exact absurd ⟨by omega, by omega⟩ hindex

/-- The request is about the dynamic constant, and its count is that of the arguments. -/
def ArgumentCopy.Names (r : ArgumentCopy) (c : Class) (d : DynamicConstant) : Prop :=
  ∃ index number, r.index.toInt = UInt16.toNat index ∧
    c.pool.get? index = some (.dynamic number d.name d.descriptor) ∧
    c.bootstrapMethod? number = some d.bootstrap ∧
    (d.bootstrap.arguments.length : Int) = r.count.toInt

theorem ArgumentCopy.Names.run (h : r.Names c d) (m : Machine) :
    r.dynamicConstant c m = (.ok d, m) := by
  obtain ⟨index, number, hindex, hentry, hbootstrap, hcount⟩ := h
  unfold ArgumentCopy.dynamicConstant
  rw [ArgumentCopy.slot?_eq_some_iff.mpr hindex, orFail_some, bind_of_ok (pure_run index m), hentry]
  dsimp only
  rw [hbootstrap, orFail_some, bind_of_ok (pure_run d.bootstrap m), if_neg (by simp [hcount])]
  rfl

/-- Whether a constant is meant is found out without touching the machine. -/
theorem dynamicConstant_cases (r : ArgumentCopy) (c : Class) (m : Machine) :
    (∃ d, r.Names c d) ∨ ∃ e, r.dynamicConstant c m = (.error (.thrown e), m) := by
  unfold ArgumentCopy.dynamicConstant ArgumentCopy.Names
  -- As long as a part is missing, the request fails on the machine as it is.
  cases hslot : r.slot? with
  | none => exact Or.inr ⟨_, rfl⟩
  | some index =>
    rw [orFail_some, bind_of_ok (pure_run index m)]
    cases hentry : c.pool.get? index with
    | none => exact Or.inr ⟨_, rfl⟩
    | some entry =>
      cases entry with
      | dynamic number name descriptor =>
        dsimp only
        cases hbootstrap : c.bootstrapMethod? number with
        | none => exact Or.inr ⟨_, rfl⟩
        | some b =>
          rw [orFail_some, bind_of_ok (pure_run b m)]
          split
          · exact Or.inr ⟨_, rfl⟩
          · rename_i hcount
            exact Or.inl ⟨⟨name, descriptor, b⟩, index, number,
              ArgumentCopy.slot?_eq_some_iff.mp hslot, hentry, hbootstrap,
              Decidable.not_not.mp hcount⟩
      | _ => exact Or.inr ⟨_, rfl⟩

/-! ## Running a request -/

/-- The range of arguments makes sense and fits into an array of the given length. -/
structure ArgumentCopy.InRange (r : ArgumentCopy) (length : Nat) : Prop where
  first : -4 ≤ r.start.toInt
  ordered : r.start.toInt ≤ r.stop.toInt
  position : 0 ≤ r.position.toInt
  room : r.position.toInt + (r.stop.toInt - r.start.toInt) ≤ length

/-- The check is made without overflow. -/
theorem ArgumentCopy.fits_iff {length : Nat} : r.fits length = true ↔ r.InRange length := by
  have hfits : r.fits length = true ↔ -4 ≤ r.start.toInt ∧ r.start.toInt ≤ r.stop.toInt ∧
      0 ≤ r.position.toInt ∧ r.position.toInt + (r.stop.toInt - r.start.toInt) ≤ length := by
    simp only [ArgumentCopy.fits, Bool.and_eq_true, decide_eq_true_eq, Int32.le_iff_toInt_le,
      Int32.toInt_zero, and_assoc]
    rfl
  rw [hfits]
  exact ⟨fun ⟨hfirst, hordered, hposition, hroom⟩ => ⟨hfirst, hordered, hposition, hroom⟩,
    fun h => ⟨h.first, h.ordered, h.position, h.room⟩⟩

variable {a : ObjectArray}

theorem callBound_run (m : Machine) : callBound m = (.ok (m.heap.config.capacity + 2), m) := rfl

theorem copyArguments_of_read (hread : m.heap.read r.buffer = .ok (.array a)) (env : Environment)
    (c : Class) :
    copyArguments env c r m =
      if r.fits a.elements.size then (do
        let d ← r.dynamicConstant c
        let _ ← forEach
          (copyArgument env (constantObjectWithin env (m.heap.config.capacity + 2)) r c d)
          (List.range (r.stop.toInt - r.start.toInt).toNat)) m
      else (.error (.thrown
        (.badArgumentRange r.start r.stop r.position a.elements.size)), m) := by
  unfold copyArguments copyArgumentsWith
  rw [bind_of_ok (callBound_run m), resolve_readAt, bind_of_ok (read_of_ok hread)]
  show (if (!r.fits a.elements.size) = true then _ else _ : Link Unit) m = _
  cases r.fits a.elements.size <;> rfl

/-! ## Cutting a request in two -/

instance : LawfulMonad Link :=
  LawfulMonad.mk' Link
    (fun x => by
      funext m
      rw [map_run]
      cases x m with
      | mk result m' => cases result <;> rfl)
    (fun a f => rfl)
    (fun x f g => by
      funext m
      rcases bind_cases x f m with ⟨e, m', hx, hb⟩ | ⟨b, m', hx, hb⟩
      · rw [bind_of_error hb, bind_of_error hx]
      · rw [bind_of_ok hx, bind_run, hb]
        rfl)

theorem forEach_append {α β : Type} (f : α → Link β) (as bs : List α) :
    forEach f (as ++ bs) = (do
      let first ← forEach f as
      let rest ← forEach f bs
      pure (first ++ rest)) := by
  induction as with
  | nil => simp [forEach]
  | cons b as ih => simp [forEach, ih]

/-- What is left of a request that is in range is in range. -/
theorem ArgumentCopy.InRange.rest {length : Nat} (h : r.InRange length) {mid position : Int32}
    (hstart : r.start ≤ mid) (hstop : mid ≤ r.stop)
    (hposition : position.toInt = r.position.toInt + (mid.toInt - r.start.toInt)) :
    ({ r with start := mid, position } : ArgumentCopy).InRange length := by
  rw [Int32.le_iff_toInt_le] at hstart hstop
  have hfirst := h.first
  have hnonneg := h.position
  have hroom := h.room
  constructor
  · show -4 ≤ mid.toInt
    omega
  · exact hstop
  · show 0 ≤ position.toInt
    omega
  · show position.toInt + (r.stop.toInt - mid.toInt) ≤ length
    omega

/-- Bootstrap methods do not write to the object, unless it is the array of their
    arguments. -/
def Environment.Spares (env : Environment) (handle : Handle) : Prop :=
  ∀ invoke, env.invoker = some invoke → ∀ c buffer m object, buffer ≠ handle →
    m.heap.WellFormed → m.heap.read handle = .ok object →
      (invoke c buffer m).2.heap.read handle = .ok object

/-! ## The length of an array -/

namespace Sample

/-- A heap with little room that often moves its objects. -/
def cramped : HeapConfig := { capacity := 80, relocateEvery := 4 }

/-- A class with dynamic constants: one that needs another one, two that need each other,
    and one that needs a class that is missing. -/
def portrait : ClassDeclaration :=
  { ClassDeclaration.plain "Portrait" with
    superclass := some "Picture"
    interfaces := ["Frame"]
    methods :=
      [{ access := Access.publicFlag ||| Access.staticFlag, name := "paint",
         descriptor := "(I)LPortrait;" },
       { access := Access.publicFlag, name := "hang", descriptor := "()V" },
       { access := Access.publicFlag, name := "hang", descriptor := "(I)V" }]
    constants :=
      [.stringRef "oil", .classRef "Portrait",
       .methodref { owner := 2, name := "paint", descriptor := "(I)LPortrait;" },
       .methodHandle .invokeStatic 3, .classRef "Easel",
       .dynamic 0 "size" "I", .dynamic 1 "tone" "I", .dynamic 2 "left" "I", .dynamic 3 "right" "I",
       .dynamic 4 "stand" "I"]
    bootstrap :=
      [{ method := 4, arguments := [1, 7] }, { method := 4, arguments := [1] },
       { method := 4, arguments := [9] }, { method := 4, arguments := [1, 8] },
       { method := 4, arguments := [1, 5] }] }

/-- The class and its supertypes, a name, two member names in an array, and an array for
    arguments. -/
def exhibits : List ((α : Type) × Operation α) :=
  [⟨_, .defineClass
      { ClassDeclaration.interface "Frame" with
        methods :=
          [{ access := Access.publicFlag ||| Access.abstractFlag, name := "hang",
             descriptor := "()V" }] }⟩,
   ⟨_, .defineClass
      { ClassDeclaration.plain "Picture" with
        methods := [{ access := Access.publicFlag, name := "hang", descriptor := "()V" }] }⟩,
   ⟨_, .defineClass portrait⟩,
   ⟨_, .intern "hang"⟩,
   ⟨_, .allocate (.memberName {})⟩,
   ⟨_, .allocate (.memberName {})⟩,
   ⟨_, .allocate (.array { component := 0, elements := #[some ⟨38⟩, some ⟨37⟩] })⟩,
   ⟨_, .allocate (.array { component := 0, elements := Array.replicate 8 none })⟩]

/-- The machine with these objects. -/
def gallery (m : Machine) : Machine :=
  m.perform Sample.env exhibits

/-- All arguments of the first dynamic constant are copied, … -/
def whole : ArgumentCopy :=
  { count := 2, index := 6, start := -4, stop := 2, buffer := ⟨40⟩, position := 1,
    resolve := true, fallback := none }

/-- … or the last ones of the constant that needs the missing class. -/
def broken : ArgumentCopy :=
  { count := 2, index := 10, start := -1, stop := 2, buffer := ⟨40⟩, position := 3,
    resolve := true, fallback := none }

/-- Methods that are called like the name are asked for, of the supertypes too. The first one
    is skipped. -/
def hanging : EnumerationRequest :=
  { clazz := some ⟨35⟩
    name := some ⟨36⟩
    signature := none
    flags := { methods := true, superclasses := true, interfaces := true }
    caller := some ⟨35⟩
    skip := 1
    results := some ⟨39⟩ }

/-- What there is in the gallery, and what the requests come to. -/
abbrev GalleryFacts (m : Machine) : Prop :=
  ((m.classes.get? 35).map (fun c => (c.isInterface,
      [6, 8, 9, 10].map c.pool.get?, [0, 2, 3, 4].map c.bootstrapMethod?)) =
    some (false,
      [some (.dynamic 0 "size" "I"), some (.dynamic 2 "left" "I"), some (.dynamic 3 "right" "I"),
        some (.dynamic 4 "stand" "I")],
      [some { method := 4, arguments := [1, 7] }, some { method := 4, arguments := [9] },
        some { method := 4, arguments := [1, 8] }, some { method := 4, arguments := [1, 5] }]) ∧
    ∀ k ∈ m.classes.classes, k.fields.size ≤ 65536 ∧ k.methods.size ≤ 65536) ∧
  (m.memos.lookup ⟨35, 8⟩ = none ∧ m.memos.lookup ⟨35, 9⟩ = none) ∧
  (Succeeds (m.heap.read ⟨35⟩) (· = .classObject 35) ∧
    Succeeds (m.heap.read ⟨36⟩) (· = .string "hang") ∧
    Succeeds (m.heap.read ⟨37⟩) (· = .memberName {}) ∧
    Succeeds (m.heap.read ⟨38⟩) (· = .memberName {}) ∧
    Succeeds (m.heap.read ⟨39⟩)
      (· = .array { component := 0, elements := #[some ⟨38⟩, some ⟨37⟩] }) ∧
    Succeeds (m.heap.read ⟨40⟩)
      (· = .array { component := 0, elements := Array.replicate 8 none })) ∧
  (Succeeds ((Operation.copyArguments 35 whole).run Sample.env m).1 (· = ()) ∧
    ¬ Succeeds ((Operation.copyArguments 35 broken).run Sample.env m).1 (· = ())) ∧
  Succeeds (enumerateMembers Sample.env hanging m).1 (· = .found 4)

set_option maxRecDepth 100000 in
set_option synthInstance.maxSize 1000 in
theorem gallery_succeeds : Succeeds (Machine.start Sample.env cramped)
    (fun m => GalleryFacts (gallery m)) := by
  decide +kernel

theorem exists_gallery {rule : Discipline} (hgarbage : ∀ m, rule m .collectGarbage)
    (hexhibits : ∀ op ∈ exhibits, ∀ m, rule m op.2) :
    ∃ m c, m.Reachable rule ∧ m.classes.get? 35 = some c ∧ c.id = 35 ∧ GalleryFacts m := by
  obtain ⟨m₀, hstart, hfacts⟩ := gallery_succeeds
  obtain ⟨c, hc, _⟩ := Option.map_eq_some_iff.mp hfacts.1.1
  have hm : (gallery m₀).Reachable rule :=
    ⟨Sample.env, cramped, m₀, hstart, Run.perform (invoker_runs hgarbage) hexhibits m₀⟩
  exact ⟨gallery m₀, c, hm, hc, hm.sound.ids hc, hfacts⟩

/-- The bootstrap methods only move objects. -/
theorem spares (handle : Handle) : Sample.env.Spares handle := by
  intro invoke hinvoke c buffer m object _ hw hread
  cases hinvoke
  have hkept : Heap.view (collectGarbage m).2.heap = m.heap.view := Heap.view_relocate m.heap
  refine (read_eq_ok_iff (m := (collectGarbage m).2) (Heap.wellFormed_relocate hw)).mpr ?_
  unfold Machine.object?
  rw [hkept]
  exact (read_eq_ok_iff hw).mp hread

end Sample

section Runs

variable {rule : Discipline}
  (hruns : ∀ invoke, env.invoker = some invoke → ∀ c buffer m, Run rule m (invoke c buffer m).2)

include hruns

/-- Linking goes through changes if the bootstrap methods make runs. -/
theorem changing_links_of_runs {α : Type} {x : Link α} (h : Links env x) : Changing rule x :=
  h.changing
    (Linking.changing (fun invoke hinvoke c buffer m => (hruns invoke hinvoke c buffer m).changes))

/-- Resolving an argument leaves an object alone that bootstrap methods leave alone, and the
    heap has as much room as before. -/
theorem keeps_argumentValue_of_runs {handle : Handle} {S : Object → Prop} {capacity : Nat}
    (hinvoke : ∀ invoke, env.invoker = some invoke → ∀ c buffer, buffer ≠ handle →
      Keeps (Machine.Carries handle S) (invoke c buffer))
    (hS : ∀ text object, S object → S (Object.setDescriptor text object)) (bound : Nat)
    (number : Int) :
    Keeps (fun m => m.Carries handle S ∧ m.heap.config.capacity = capacity)
      (argumentValue env (constantObjectWithin env bound) r c d number) := by
  intro m hm
  have hcarries : Keeps (Machine.Carries handle S)
      (argumentValue env (constantObjectWithin env bound) r c d number) :=
    keeps_argumentValue (framed_carries handle S) (carries_constantObjectWithin hinvoke hS bound)
      number
  have hlinks := links_argumentValue (links_constantObjectWithin env bound) r c d number
  have hcapacity := (changing_links_of_runs hruns hlinks m).capacity hm.1.heap
  exact ⟨hcarries m hm.1, hcapacity.trans hm.2⟩

section Split

variable {before : Discipline} (hm : m.Reachable before)
  (hread : m.heap.read r.buffer = .ok (.array a)) (hrange : r.InRange a.elements.size)
  {mid position : Int32} (hstart : r.start ≤ mid) (hstop : mid ≤ r.stop)
  (hposition : position.toInt = r.position.toInt + (mid.toInt - r.start.toInt))

include hm hread hrange hstart hstop hposition

end Split

end Runs

/-- Resolved on `m`, the argument with the given number of the dynamic constant is `value`,
    which leaves `m'`. -/
inductive ArgumentCopy.Yields (env : Environment) (r : ArgumentCopy) (c : Class)
    (d : DynamicConstant) (m : Machine) : Int → Option Handle → Machine → Prop where
  /-- The object of the bootstrap method. -/
  | method {value : Option Handle} {m' : Machine}
      (run : constantObject env c d.bootstrap.method true m = (.ok value, m')) :
      r.Yields env c d m (-4) value m'
  /-- The interned name. -/
  | name {text : Handle} {m' : Machine} (run : intern d.name m = (.ok text, m'))
      (pooled : m'.strings.find? d.name = some text) : r.Yields env c d m (-3) (some text) m'
  | methodType {type : Handle} {m' : Machine} (ofMethod : d.descriptor.toList.head? = some '(')
      (run : newMethodType env d.descriptor m = (.ok type, m')) :
      r.Yields env c d m (-2) (some type) m'
  | fieldType {k : Class} {m' : Machine} (ofField : d.descriptor.toList.head? ≠ some '(')
      (run : classOfDescriptor env d.descriptor m = (.ok k, m')) :
      r.Yields env c d m (-2) (some k.classObject) m'
  /-- The number of static arguments, in a new object. -/
  | count {boxed : Handle} {m' : Machine} (free : m.object? boxed = none)
      (stored : m'.heap.read boxed = .ok (.integer r.count)) :
      r.Yields env c d m (-1) (some boxed) m'
  | argument {k : Nat} {index : UInt16} {value : Handle} {m' : Machine}
      (listed : d.bootstrap.arguments[k]? = some index)
      (run : constantObject env c index r.resolve m = (.ok (some value), m')) :
      r.Yields env c d m k (some value) m'
  /-- A static argument without an object. -/
  | unavailable {k : Nat} {index : UInt16} {m' : Machine}
      (listed : d.bootstrap.arguments[k]? = some index)
      (run : constantObject env c index r.resolve m = (.ok none, m')) :
      r.Yields env c d m k (if r.resolve then none else r.fallback) m'

/-- The values of the first arguments have been copied in turn. Each of them is resolved on
    the machine that the one before has left, and then goes to its place, which the array
    has. -/
inductive ArgumentCopy.Copied (env : Environment) (r : ArgumentCopy) (c : Class)
    (d : DynamicConstant) (m : Machine) : List (Option Handle) → Machine → Prop where
  | nil : r.Copied env c d m [] m
  | snoc {values : List (Option Handle)} {value : Option Handle} {b : ObjectArray}
      {m₁ m₂ m₃ : Machine} (before : r.Copied env c d m values m₁)
      (yields : r.Yields env c d m₁ (r.start.toInt + values.length) value m₂)
      (array : m₂.heap.read r.buffer = .ok (.array b))
      (inside : r.position.toInt.toNat + values.length < b.elements.size)
      (stored : update r.buffer
        (Object.setElement (r.position.toInt.toNat + values.length) value) m₂ = (.ok (), m₃)) :
      r.Copied env c d m (values ++ [value]) m₃

/-- The second array is the first one with the values in their places, and nothing else
    changed. -/
structure ArgumentCopy.Overwrites (r : ArgumentCopy) (a : ObjectArray)
    (values : List (Option Handle)) (b : ObjectArray) : Prop where
  component : b.component = a.component
  size : b.elements.size = a.elements.size
  copied : ∀ j value, values[j]? = some value →
    b.elements[r.position.toInt.toNat + j]? = some value
  others : ∀ i, (i < r.position.toInt.toNat ∨ r.position.toInt.toNat + values.length ≤ i) →
    b.elements[i]? = a.elements[i]?

theorem ArgumentCopy.overwrites_nil (r : ArgumentCopy) (a : ObjectArray) : r.Overwrites a [] a where
  component := rfl
  size := rfl
  copied := fun j value h => by cases h
  others := fun i _ => rfl

theorem ArgumentCopy.Overwrites.snoc {values : List (Option Handle)} {b : ObjectArray}
    (h : r.Overwrites a values b) {value : Option Handle}
    (hinside : r.position.toInt.toNat + values.length < b.elements.size) :
    r.Overwrites a (values ++ [value])
      { b with elements :=
        b.elements.setIfInBounds (r.position.toInt.toNat + values.length) value } where
  component := h.component
  size := by rw [Array.size_setIfInBounds, h.size]
  copied := by
    intro j v hv
    dsimp only
    rw [Array.getElem?_setIfInBounds]
    -- The value is the one that is added, or one of those before it.
    by_cases hj : j = values.length
    · subst hj
      rw [List.getElem?_concat_length, Option.some.injEq] at hv
      rw [if_pos rfl, if_pos hinside, hv]
    · have hlt : j < values.length := by
        have hlength := (List.getElem?_eq_some_iff.mp hv).1
        rw [List.length_append, List.length_singleton] at hlength
        omega
      rw [if_neg (by omega), h.copied j v (by rwa [List.getElem?_append_left hlt] at hv)]
  others := by
    intro i hi
    rw [List.length_append, List.length_singleton] at hi
    dsimp only
    rw [Array.getElem?_setIfInBounds, if_neg (by omega), h.others i (by omega)]

theorem map_eq_ok_iff {α β : Type} {g : α → β} {x : Link α} {b : β} :
    (g <$> x) m = (.ok b, m') ↔ ∃ a, x m = (.ok a, m') ∧ g a = b := by
  rw [map_run]
  cases hx : x m with
  | mk result m₁ => cases result <;> simp [Except.map, and_comm]

/-- The value of an argument is what its number stands for. -/
theorem yields_of_argumentValue (hw : m.heap.WellFormed) {number : Int} (hnumber : -4 ≤ number)
    {value : Option Handle}
    (h : argumentValue env (constantObject env) r c d number m = (.ok value, m')) :
    r.Yields env c d m number value m' := by
  -- The numbers below zero stand for method, name, type and count, in this order.
  unfold argumentValue at h
  by_cases hmethod : number = -4
  · rw [if_pos hmethod] at h
    exact hmethod ▸ .method h
  rw [if_neg hmethod] at h
  by_cases hname : number = -3
  · rw [if_pos hname] at h
    obtain ⟨text, hrun, rfl⟩ := map_eq_ok_iff.mp h
    exact hname ▸ .name hrun (find?_of_intern hrun)
  rw [if_neg hname] at h
  by_cases htype : number = -2
  · rw [if_pos htype] at h
    obtain ⟨type, hrun, rfl⟩ := map_eq_ok_iff.mp h
    unfold dynamicType at hrun
    split at hrun
    · rename_i hhead
      exact htype ▸ .methodType hhead hrun
    · rename_i hhead
      obtain ⟨k, m₁, hrun, hpure⟩ := bind_eq_ok_iff.mp hrun
      cases hpure
      exact htype ▸ .fieldType hhead hrun
  rw [if_neg htype] at h
  by_cases hcount : number = -1
  · rw [if_pos hcount] at h
    obtain ⟨boxed, hrun, rfl⟩ := map_eq_ok_iff.mp h
    have hfree := object?_of_allocate hw hrun
    rcases allocate_outcome hw (.integer r.count) with
      ⟨_, _, hfull⟩ | ⟨_, heap, hstored, _, _, _, hread⟩
    · rw [hrun] at hfull
      cases hfull
    · rw [hrun] at hstored
      cases hstored
      exact hcount ▸ .count hfree hread
  rw [if_neg hcount] at h
  -- From zero on, the number is the place of an argument.
  obtain ⟨k, rfl⟩ : ∃ k : Nat, number = k := ⟨number.toNat, by omega⟩
  rw [Int.toNat_natCast] at h
  obtain ⟨index, m₁, hfound, hobject⟩ := bind_eq_ok_iff.mp h
  obtain ⟨hlisted, rfl⟩ := orFail_eq_ok_iff.mp hfound
  obtain ⟨found, m₂, hrun, hvalue⟩ := bind_eq_ok_iff.mp hobject
  cases found with
  | some value => cases hvalue; exact .argument hlisted hrun
  | none => cases hvalue; exact .unavailable hlisted hrun

/-- An argument needs the constant as it is on the machine where it is asked for. -/
theorem argumentValue_congr {constant' : Class → UInt16 → Bool → Link (Option Handle)}
    (h : ∀ k resolve, constant c k resolve m = constant' c k resolve m) (number : Int) :
    argumentValue env constant r c d number m = argumentValue env constant' r c d number m := by
  unfold argumentValue
  -- Only the method and the arguments proper are resolved by `constant`.
  by_cases hmethod : number = -4
  · rw [if_pos hmethod, if_pos hmethod]
    exact h _ _
  rw [if_neg hmethod, if_neg hmethod]
  split
  · rfl
  split
  · rfl
  split
  · rfl
  cases d.bootstrap.arguments[number.toNat]? with
  | none => rfl
  | some index =>
    rw [orFail_some, bind_of_ok (pure_run index m), bind_of_ok (pure_run index m), bind_run, h,
      ← bind_run]

theorem forEach_range_succ {β : Type} (f : Nat → Link β) (n : Nat) :
    forEach f (List.range (n + 1)) = (do
      let first ← forEach f (List.range n)
      let last ← f n
      pure (first ++ [last])) := by
  rw [List.range_succ, forEach_append]
  simp [forEach]

/-- A value is stored in an array. -/
theorem exists_setElement {handle : Handle} {b : ObjectArray} {capacity : Nat}
    (h : m.Carries handle (· = .array b) ∧ m.heap.config.capacity = capacity) (index : Nat)
    (value : Option Handle) :
    ∃ m', update handle (Object.setElement index value) m = (.ok (), m') ∧
      m'.Carries handle (· = .array { b with elements := b.elements.setIfInBounds index value }) ∧
      m'.heap.config.capacity = capacity := by
  obtain ⟨⟨_, hread, rfl⟩, hcapacity⟩ := And.imp_left Machine.Carries.read h
  obtain ⟨heap, hrun, hread', _⟩ := update_of_read h.1.heap hread (Object.setElement index value)
  have hmachine := update_machine handle (Object.setElement index value) m
  rw [hrun] at hmachine
  have hheap : heap = (m.heap.update handle (Object.setElement index value)).2 :=
    congrArg Machine.heap hmachine
  subst hheap
  refine ⟨_, hrun, Machine.carries_of_read (Heap.wellFormed_update h.1.heap _ _) hread' rfl, ?_⟩
  exact (Heap.fuller_update h.1.heap _ _).capacity.trans hcapacity

section Exact

variable {rule : Discipline}
  (hruns : ∀ invoke, env.invoker = some invoke → ∀ c buffer m, Run rule m (invoke c buffer m).2)
  (hspares : env.Spares r.buffer)

include hruns hspares

/-- One argument is copied, or its value fails and the array stays as it is. -/
theorem copyArgument_cases {b : ObjectArray} {capacity k : Nat}
    (hm : m.Carries r.buffer (· = .array b) ∧ m.heap.config.capacity = capacity)
    (hnumber : -4 ≤ r.start.toInt + k) :
    (∃ value m₁ m₂, r.Yields env c d m (r.start.toInt + k) value m₁ ∧
      m₁.heap.read r.buffer = .ok (.array b) ∧
      update r.buffer (Object.setElement (r.position.toInt.toNat + k) value) m₁ = (.ok (), m₂) ∧
      copyArgument env (constantObjectWithin env (capacity + 2)) r c d k m = (.ok (), m₂) ∧
      m₂.Carries r.buffer (· = .array
        { b with elements := b.elements.setIfInBounds (r.position.toInt.toNat + k) value }) ∧
      m₂.heap.config.capacity = capacity) ∨
    ∃ e m₁, argumentValue env (constantObject env) r c d (r.start.toInt + k) m = (.error e, m₁) ∧
      copyArgument env (constantObjectWithin env (capacity + 2)) r c d k m = (.error e, m₁) ∧
      m₁.heap.read r.buffer = .ok (.array b) := by
  have hinvoke : ∀ invoke, env.invoker = some invoke → ∀ c buffer,
      buffer ≠ r.buffer → Keeps (Machine.Carries r.buffer (· = .array b)) (invoke c buffer) := by
    intro invoke hinvoke c buffer hne m hm
    obtain ⟨_, hread, rfl⟩ := hm.read
    have hw := (hruns invoke hinvoke c buffer m).changes.wellFormed hm.heap
    exact Machine.carries_of_read hw (hspares invoke hinvoke c buffer m _ hne hm.heap hread) rfl
  have hkept := keeps_argumentValue_of_runs (c := c) (r := r) (d := d) hruns hinvoke
    (fun text object hobject => by subst hobject; rfl) (capacity + 2) (r.start.toInt + k) m hm
  -- The bound on calls is that of the machine itself, since the room does not change.
  have hclosed : argumentValue env (constantObjectWithin env (capacity + 2)) r c d
      (r.start.toInt + k) m =
      argumentValue env (constantObject env) r c d (r.start.toInt + k) m := by
    refine argumentValue_congr (fun k resolve => ?_) _
    rw [← hm.2]
    rfl
  rw [hclosed] at hkept
  rw [copyArgument_eq]
  cases hvalue : argumentValue env (constantObject env) r c d (r.start.toInt + k) m with
  | mk result m₁ =>
    rw [hvalue] at hclosed hkept
    obtain ⟨_, hread, rfl⟩ := hkept.1.read
    cases result with
    | error e => exact Or.inr ⟨e, m₁, rfl, bind_of_error hclosed _, hread⟩
    | ok value =>
      obtain ⟨m₂, hstored, hkept₂⟩ := exists_setElement hkept (r.position.toInt.toNat + k) value
      refine Or.inl ⟨value, m₁, m₂, yields_of_argumentValue hm.1.heap hnumber hvalue, hread,
        hstored, ?_, hkept₂⟩
      rw [bind_of_ok hclosed, hstored]

/-- How far copying the first `n` arguments has come when it ends. -/
theorem forEach_copyArgument_cases (hw : m.heap.WellFormed) (hfirst : -4 ≤ r.start.toInt)
    (hread : m.heap.read r.buffer = .ok (.array a)) (n : Nat)
    (hroom : r.position.toInt.toNat + n ≤ a.elements.size) :
    ∃ values m₁ b, r.Copied env c d m values m₁ ∧ r.Overwrites a values b ∧
      (m₁.Carries r.buffer (· = .array b) ∧
        m₁.heap.config.capacity = m.heap.config.capacity) ∧
      ((values.length = n ∧ ∃ units, forEach (copyArgument env
          (constantObjectWithin env (m.heap.config.capacity + 2)) r c d) (List.range n) m =
            (.ok units, m₁)) ∨
        values.length < n ∧ ∃ e m₂,
          argumentValue env (constantObject env) r c d (r.start.toInt + values.length) m₁ =
            (.error e, m₂) ∧
          forEach (copyArgument env (constantObjectWithin env (m.heap.config.capacity + 2)) r c d)
            (List.range n) m = (.error e, m₂) ∧
          m₂.heap.read r.buffer = .ok (.array b)) := by
  induction n with
  | zero =>
    exact ⟨[], m, a, .nil, r.overwrites_nil a, ⟨Machine.carries_of_read hw hread rfl, rfl⟩,
      Or.inl ⟨rfl, [], rfl⟩⟩
  | succ n ih =>
    obtain ⟨values, m₁, b, hcopied, hoverwrites, hkept, hrun⟩ := ih (by omega)
    rcases hrun with ⟨rfl, units, hrun⟩ | ⟨hlength, e, m₂, hvalue, hrun, hread₂⟩
    · -- All before it have been copied, so this one is tried.
      rcases copyArgument_cases (c := c) (d := d) (k := values.length) hruns hspares hkept
          (by omega) with
        ⟨value, m₂, m₃, hyields, hread₂, hstored, hcopy, hkept₃⟩ |
        ⟨e, m₂, hvalue, hcopy, hread₂⟩
      · have hinside : r.position.toInt.toNat + values.length < b.elements.size := by
          rw [hoverwrites.size]
          omega
        refine ⟨values ++ [value], m₃, _, hcopied.snoc hyields hread₂ hinside hstored,
          hoverwrites.snoc hinside, hkept₃, Or.inl ⟨by simp, units ++ [()], ?_⟩⟩
        rw [forEach_range_succ, bind_of_ok hrun, bind_of_ok hcopy]
        rfl
      · refine ⟨values, m₁, b, hcopied, hoverwrites, hkept,
          Or.inr ⟨Nat.lt_succ_self _, e, m₂, hvalue, ?_, hread₂⟩⟩
        rw [forEach_range_succ, bind_of_ok hrun, bind_of_error hcopy]
    · -- One before it has failed.
      refine ⟨values, m₁, b, hcopied, hoverwrites, hkept,
        Or.inr ⟨by omega, e, m₂, hvalue, ?_, hread₂⟩⟩
      rw [forEach_range_succ, bind_of_error hrun]

/-- A request that makes no sense changes nothing at all. Any other request copies the
    values of its arguments in turn, each to its place in the array, until all are there or
    the value of the next one fails; the rest of the array stays as it was. -/
theorem copyArguments_exact (hm : m.Reachable rule)
    (hread : m.heap.read r.buffer = .ok (.array a)) :
    (¬ r.InRange a.elements.size → copyArguments env c r m = (.error (.thrown
        (.badArgumentRange r.start r.stop r.position a.elements.size)), m)) ∧
    (r.InRange a.elements.size → (∀ d, ¬ r.Names c d) →
      ∃ e, copyArguments env c r m = (.error (.thrown e), m)) ∧
    ∀ d, r.InRange a.elements.size → r.Names c d →
      ∃ values m₁ b, r.Copied env c d m values m₁ ∧ r.Overwrites a values b ∧
        m₁.heap.read r.buffer = .ok (.array b) ∧
        ((values.length = r.stop.toInt - r.start.toInt ∧
            copyArguments env c r m = (.ok (), m₁)) ∨
          values.length < r.stop.toInt - r.start.toInt ∧ ∃ e m₂,
            argumentValue env (constantObject env) r c d (r.start.toInt + values.length) m₁ =
              (.error e, m₂) ∧
            copyArguments env c r m = (.error e, m₂) ∧
            m₂.heap.read r.buffer = .ok (.array b)) := by
  have hrun := copyArguments_of_read hread env c
  refine ⟨fun hrange => ?_, fun hrange hnone => ?_, fun d hrange hd => ?_⟩
  · rw [hrun, if_neg (fun hfits => hrange (ArgumentCopy.fits_iff.mp hfits))]
  · rw [if_pos (ArgumentCopy.fits_iff.mpr hrange)] at hrun
    rcases dynamicConstant_cases r c m with ⟨d, hd⟩ | ⟨e, he⟩
    · exact absurd hd (hnone d)
    · exact ⟨e, hrun.trans (bind_of_error he _)⟩
  · rw [if_pos (ArgumentCopy.fits_iff.mpr hrange), bind_of_ok (hd.run m)] at hrun
    obtain ⟨hfirst, hle, hnonneg, hroom⟩ := hrange
    -- What happens is the loop over the arguments; its end decides about the result.
    obtain ⟨values, m₁, b, hcopied, hoverwrites, hkept, hend⟩ :=
      forEach_copyArgument_cases (c := c) (d := d) hruns hspares hm.sound.heap hfirst hread
        (r.stop.toInt - r.start.toInt).toNat (by omega)
    obtain ⟨_, hread₁, rfl⟩ := hkept.1.read
    refine ⟨values, m₁, b, hcopied, hoverwrites, hread₁, ?_⟩
    rcases hend with ⟨hlength, units, hall⟩ | ⟨hlength, e, m₂, hvalue, hfails, hread₂⟩
    · exact Or.inl ⟨by omega, hrun.trans (bind_of_ok hall _)⟩
    · exact Or.inr ⟨by omega, e, m₂, hvalue, hrun.trans (bind_of_error hfails _), hread₂⟩

end Exact

/-- One request copies all six values, and the other one fails before its last one. -/
theorem portrait_arguments_exact :
    ∃ m c a, m.Reachable (fun _ {_} _ => True) ∧ m.classes.get? 35 = some c ∧
      m.heap.read ⟨40⟩ = .ok (.array a) ∧
      (∃ d values m₁ b, Sample.whole.Copied Sample.env c d m values m₁ ∧
        Sample.whole.Overwrites a values b ∧ m₁.heap.read ⟨40⟩ = .ok (.array b) ∧
        values.length = 6 ∧ copyArguments Sample.env c Sample.whole m = (.ok (), m₁)) ∧
      ∃ d values m₁ b e m₂, Sample.broken.Copied Sample.env c d m values m₁ ∧
        Sample.broken.Overwrites a values b ∧ values.length < 3 ∧
        argumentValue Sample.env (constantObject Sample.env) Sample.broken c d
          (-1 + values.length) m₁ = (.error e, m₂) ∧
        copyArguments Sample.env c Sample.broken m = (.error e, m₂) ∧
        m₂.heap.read ⟨40⟩ = .ok (.array b) := by
  -- The sample has run both requests, and tells which one was answered.
  obtain ⟨m, c, hm, hc, _, ⟨hclass, _⟩, _, ⟨_, _, _, _, _, hbuffer⟩, ⟨hwhole, hbroken⟩, _⟩ :=
    @Sample.exists_gallery (fun _ {_} _ => True) (fun _ => trivial) (fun _ _ _ => trivial)
  rw [hc] at hclass
  simp only [Option.map_some, Option.some.injEq, Prod.mk.injEq, List.map_cons, List.map_nil,
    List.cons.injEq] at hclass
  obtain ⟨_, ⟨hsize, _, _, hstand, _⟩, hmethod, _, _, hmethod', _⟩ := hclass
  have hruns := @Sample.invoker_runs (fun _ {_} _ => True) (fun _ => trivial)
  refine ⟨m, c, _, hm, hc, hbuffer.eq_ok, ?_, ?_⟩
  · have hnames : Sample.whole.Names c ⟨_, _, _⟩ := ⟨6, 0, rfl, hsize, hmethod, by decide⟩
    obtain ⟨values, m₁, b, hcopied, hoverwrites, hread, hend⟩ :=
      (copyArguments_exact hruns (Sample.spares _) hm hbuffer.eq_ok).2.2 _
        ⟨by decide, by decide, by decide, by decide⟩ hnames
    have hrun := hwhole.eq_ok
    rw [Operation.run, bind_of_ok (classAt_of_get? hc)] at hrun
    rcases hend with ⟨hlength, hall⟩ | ⟨_, e, m₂, _, hfails, _⟩
    · exact ⟨_, values, m₁, b, hcopied, hoverwrites, hread, Int.ofNat.inj hlength, hall⟩
    · rw [hfails] at hrun
      cases hrun
  · have hnames : Sample.broken.Names c ⟨_, _, _⟩ := ⟨10, 4, rfl, hstand, hmethod', by decide⟩
    obtain ⟨values, m₁, b, hcopied, hoverwrites, _, hend⟩ :=
      (copyArguments_exact hruns (Sample.spares _) hm hbuffer.eq_ok).2.2 _
        ⟨by decide, by decide, by decide, by decide⟩ hnames
    rcases hend with ⟨_, hall⟩ | ⟨hlength, e, m₂, hvalue, hfails, hread₂⟩
    · refine absurd ⟨(), ?_, rfl⟩ hbroken
      rw [Operation.run, bind_of_ok (classAt_of_get? hc), hall]
    · exact ⟨_, values, m₁, b, e, m₂, hcopied, hoverwrites, Int.ofNat_lt.mp hlength, hvalue, hfails,
        hread₂⟩

end Linkage
