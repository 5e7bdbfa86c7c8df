import Linkage.Proofs.SealedActions

/-! # Constants stay outside

    Resolving a constant calls bootstrap methods, which are outside code. If what they answer
    is outside of everything that was out of their reach, then so is every constant, and the
    arguments that are copied into an array do not lead back to it.

    * `Environment.Confined known`: the bootstrap methods know the objects in `known` and what
      these lead to, and nothing else that is hidden from them.
    * `confines_constantObjectWithin`: by induction on the number of calls inside each other.
    * `walled_copyArguments`: arguments are copied into an array that is out of reach.
    * `walled_copyArguments_of_mayCopy`: an array is out of reach if neither a known object
      nor a remembered constant leads to it. -/

namespace Linkage

open Link

variable {known hidden apart : Set Handle} {m m' : Machine} {h : Handle} {env : Environment}
variable {c : Class} {index : UInt16}

/-- The value is null or an object outside of `hidden`. -/
def Machine.NullOrOutside (m : Machine) (hidden : Set Handle) (value : Option Handle) : Prop :=
  ∀ h, value = some h → m.Outside hidden h

/-- Bootstrap methods answer objects outside of whatever is hidden from them, and keep it
    hidden. -/
def Environment.Confined (env : Environment) (known : Set Handle) : Prop :=
  ∀ invoke, env.invoker = some invoke → ∀ {hidden m} (c : Class) (buffer : Handle),
    m.Walled known hidden → m.Outside hidden buffer →
      Confines known hidden (invoke c buffer) m (fun value m' => m'.NullOrOutside hidden value)

/-! ## Constants without calls -/

theorem confines_some {x : Link Handle}
    (hx : Confines known hidden x m (fun h m' => m'.Outside hidden h)) :
    Confines known hidden (some <$> x) m (fun value m' => m'.NullOrOutside hidden value) := by
  refine confines_map (hx.mono (fun a m' _ ha h hh => ?_))
  rw [← Option.some.inj hh]
  exact ha

/-- What a constant has been resolved to is outside. -/
theorem confines_resolveOnce {compute : Link Handle} (hm : m.Walled known hidden)
    (hcompute : Confines known hidden compute m (fun h m' => m'.Outside hidden h)) :
    Confines known hidden (resolveOnce c index compute) m (fun h m' => m'.Outside hidden h) := by
  -- What is remembered is outside, by the invariant.
  have hknown : ∀ {m : Machine} {slot : ConstantSlot} {h : Handle}, m.Walled known hidden →
      memo? slot m = (.ok (some h), m) → m.Outside hidden h := by
    intro m slot h hm hmemo
    rw [memo?_run, Prod.mk.injEq, Except.ok.injEq] at hmemo
    exact ⟨hm.memos slot h hmemo.1, hm.constants slot h hmemo.1⟩
  unfold resolveOnce memoize
  refine confines_bind_still hm (keeps_memo? _) (fun found hfound => ?_)
  cases found with
  | some value => exact confines_pure hm (hknown hm hfound)
  | none =>
    refine confines_bind hcompute (fun value m₁ _ hm₁ hvalue => ?_)
    refine confines_bind_still hm₁ (keeps_memo? _) (fun first hfirst => ?_)
    cases first with
    | some first => exact confines_pure hm₁ (hknown hm₁ hfirst)
    | none =>
      exact confines_bind (R := fun _ m' => m'.Outside hidden value)
        ⟨hm₁.remember hvalue _, fun _ _ hrun => by cases hrun; exact hvalue⟩
        (fun _ _ _ hm₂ hvalue₂ => confines_pure hm₂ hvalue₂)

theorem confines_resolveClassConstant (env : Environment) (c : Class) (index : UInt16)
    (hm : m.Walled known hidden) :
    Confines known hidden (resolveClassConstant env c index) m
      (fun h m' => m'.Outside hidden h) := by
  unfold resolveClassConstant constantAt
  refine confines_bind_orFail hm (fun entry _ => ?_)
  cases entry with
  | classRef name =>
    have hloads : Goes idle (loadClass env name) m (fun c m' => c ∈ m'.classes.classes) :=
      loads_loadClass env name m
    refine confines_resolveOnce hm (confines_bind (R := fun c m' => c ∈ m'.classes.classes)
      ⟨loadable_walled.loadClass env name m hm, hloads.2⟩ (fun c m₁ _ hm₁ hc => ?_))
    exact confines_pure hm₁ (hm₁.outside_of_root (Or.inr ⟨c, hc, rfl⟩))
  | _ => exact confines_fail _ hm

theorem confines_resolveStringConstant (c : Class) (index : UInt16) (hm : m.Walled known hidden) :
    Confines known hidden (resolveStringConstant c index) m
      (fun h m' => m'.Outside hidden h) := by
  unfold resolveStringConstant constantAt
  refine confines_bind_orFail hm (fun entry _ => ?_)
  cases entry with
  | stringRef text =>
    exact confines_resolveOnce hm
      ((confines_intern text hm).mono (fun _ _ hm' hroot => hm'.outside_of_root hroot))
  | _ => exact confines_fail _ hm

theorem confines_resolveMethodTypeConstant (env : Environment) (c : Class) (index : UInt16)
    (hm : m.Walled known hidden) :
    Confines known hidden (resolveMethodTypeConstant env c index) m
      (fun h m' => m'.Outside hidden h) := by
  unfold resolveMethodTypeConstant constantAt
  refine confines_bind_orFail hm (fun entry _ => ?_)
  cases entry with
  | methodType descriptor =>
    exact confines_resolveOnce hm (confines_newMethodType env descriptor hm)
  | _ => exact confines_fail _ hm

/-- A new method handle refers to a new member name. -/
theorem confines_newMethodHandle (env : Environment) (c : Class) (kind : ReferenceKind)
    (reference : UInt16) (hm : m.Walled known hidden) :
    Confines known hidden (newMethodHandle env c kind reference) m
      (fun h m' => m'.Outside hidden h) := by
  unfold newMethodHandle
  refine confines_bind_still hm (keeps_memberReferenceAt c reference) (fun described _ => ?_)
  refine confines_bind (confines_resolveClassConstant env c described.2.owner hm) ?_
  intro clazz m₁ _ hm₁ hclazz
  refine confines_bind (confines_intern described.2.name hm₁) (fun name m₂ hrun₂ hm₂ hname => ?_)
  -- Each part stays outside while the next one is made.
  have hclazz₂ := hclazz.of_run hm₁.heap (changing_intern _) hrun₂
  refine confines_bind (confines_intern described.2.descriptor hm₂) ?_
  intro type m₃ hrun₃ hm₃ htype
  have hclazz₃ := hclazz₂.of_run hm₂.heap (changing_intern _) hrun₃
  have hname₃ := hm₃.outside_of_root (hname.of_run (changing_intern _) hrun₃)
  have htype₃ := hm₃.outside_of_root htype
  refine confines_bind (confines_allocate hm₃ ?_ (fun id hid => by cases hid)) ?_
  · intro r hr
    simp only [Object.holds, List.mem_append, Option.mem_toList, Option.some.injEq] at hr
    rcases hr with (rfl | rfl) | rfl
    · exact hclazz₃
    · exact hname₃
    · exact htype₃
  · rintro mn m₄ - hm₄ ⟨-, hmn⟩
    refine confines_bind (R := fun answer m' => m'.NullOrOutside hidden answer)
      ⟨keeps_resolveMemberName_walled mn _ _ m₄ hm₄, fun answer m₅ hrun₅ member hmember => ?_⟩ ?_
    · -- The answer is the member name that was made here.
      subst hmember
      rw [(resolveMemberName_eq_some_iff.mp hrun₅).1]
      exact hmn.of_run hm₄.heap (changing_resolveMemberName _ _ _) hrun₅
    · intro answer m₅ _ hm₅ hanswer
      cases answer with
      | none => exact confines_fail _ hm₅
      | some member =>
        refine (confines_allocate hm₅ ?_ (fun id hid => by cases hid)).mono (fun _ _ _ hh => hh.2)
        intro r hr
        rw [List.mem_singleton.mp hr]
        exact hanswer member rfl

theorem confines_resolveMethodHandleConstant (env : Environment) (c : Class) (index : UInt16)
    (hm : m.Walled known hidden) :
    Confines known hidden (resolveMethodHandleConstant env c index) m
      (fun h m' => m'.Outside hidden h) := by
  unfold resolveMethodHandleConstant constantAt
  refine confines_bind_orFail hm (fun entry _ => ?_)
  cases entry with
  | methodHandle kind reference =>
    exact confines_resolveOnce hm (confines_newMethodHandle env c kind reference hm)
  | _ => exact confines_fail _ hm

/-! ## Arguments -/

theorem confines_dynamicType (env : Environment) (d : DynamicConstant)
    (hm : m.Walled known hidden) :
    Confines known hidden (dynamicType env d) m (fun h m' => m'.Outside hidden h) := by
  unfold dynamicType classOfDescriptor
  split
  · exact confines_newMethodType env d.descriptor hm
  · refine confines_bind (R := fun c m' => m'.Roots c.classObject) ?_
      (fun c _ _ hm' hroot => confines_pure hm' (hm'.outside_of_root hroot))
    exact confines_bind_orFail hm (fun t _ => confines_classOfType env t hm)

section Open

variable {constant : Class → UInt16 → Bool → Link (Option Handle)}
variable (hconstant : ∀ {hidden m} c index resolve, m.Walled known hidden →
  Confines known hidden (constant c index resolve) m
    (fun value m' => m'.NullOrOutside hidden value))
variable {r : ArgumentCopy} (hfallback : ∀ h, r.fallback = some h → h ∈ known)

include hconstant

section Fallback

include hfallback

/-- Every argument is outside: the constants are, and the fallback is known. -/
theorem confines_argumentValue (c : Class) (d : DynamicConstant) (number : Int)
    (hm : m.Walled known hidden) :
    Confines known hidden (argumentValue env constant r c d number) m
      (fun value m' => m'.NullOrOutside hidden value) := by
  unfold argumentValue
  -- In the order of the numbers below zero: method, name, type and count.
  split
  · exact hconstant c d.bootstrap.method true hm
  split
  · exact confines_some ((confines_intern d.name hm).mono
      (fun _ _ hm' hroot => hm'.outside_of_root hroot))
  split
  · exact confines_some (confines_dynamicType env d hm)
  split
  · exact confines_some ((confines_allocate hm (fun _ hr => by cases hr)
      (fun id hid => by cases hid)).mono (fun _ _ _ hh => hh.2))
  · refine confines_bind_orFail hm (fun argument _ => ?_)
    refine confines_bind (hconstant c argument r.resolve hm) (fun value m₁ _ hm₁ hvalue => ?_)
    cases value with
    | some value => exact confines_pure hm₁ hvalue
    | none =>
      refine confines_pure hm₁ (fun h hh => ?_)
      split at hh
      · cases hh
      · -- The fallback is known, and what is known is not hidden.
        have hmem := hfallback h hh
        exact ⟨hm₁.known_live h hmem, hm₁.apart h hmem⟩

/-- An argument is copied into an array that is out of reach. It does not lead to the array. -/
theorem walled_copyArgument (c : Class) (d : DynamicConstant) (distance : Nat)
    (hbuffer : r.buffer ∈ apart) (hm : m.Walled known hidden) (hsealed : m.Walled known apart) :
    (copyArgument env constant r c d distance m).2.Walled known hidden := by
  rw [copyArgument_eq]
  have hvalue : Confines known apart
      (argumentValue env constant r c d (r.start.toInt + distance)) m
      (fun value m' => m'.NullOrOutside apart value) :=
    confines_argumentValue hconstant hfallback c d _ hsealed
  refine (confines_bind (Q := fun _ _ => True)
    (confines_argumentValue hconstant hfallback c d _ hm) ?_).walled
  intro value m₁ hrun₁ hm₁ hvalue₁
  -- The value is outside of the array and of all that leads to it, so it does not lead back.
  have hsealed₁ := hvalue.walled
  rw [hrun₁] at hsealed₁
  refine confines_of_walled (walled_update hm₁ (fun old hobject =>
    ⟨fun hroot => ?_, fun id hid => ?_, fun part hpart => ?_⟩))
  · exact absurd hbuffer (hsealed₁.outside_of_root hroot).2
  · cases old <;> cases hid
    exact hm₁.classed r.buffer id hobject
  · rcases Object.mem_holds_setElement hpart with hpart | hpart
    · exact Or.inl hpart
    · obtain ⟨hlive, houtside⟩ := hvalue₁ part hpart
      have hout := (hvalue.value value m₁ hrun₁ part hpart).2
      exact Or.inr ⟨hlive, hsealed₁.not_leads hout hbuffer, fun _ => houtside⟩

theorem walled_copyArgumentsWith (c : Class) (hbuffer : r.buffer ∈ apart)
    (hm : m.Walled known hidden) (hsealed : m.Walled known apart) :
    (copyArgumentsWith env constant c r m).2.Walled known hidden ∧
      (copyArgumentsWith env constant c r m).2.Walled known apart := by
  refine keeps_copyArgumentsWith_of (P := fun m => m.Walled known hidden ∧ m.Walled known apart)
    ?_ m ⟨hm, hsealed⟩
  rintro d distance m ⟨hm, hsealed⟩
  exact ⟨walled_copyArgument hconstant hfallback c d distance hbuffer hm hsealed,
    walled_copyArgument hconstant hfallback c d distance hbuffer hsealed hsealed⟩

end Fallback

/-! ## Dynamic constants -/

variable (henv : env.Confined known)

include henv

/-- The array of the arguments is new, so nothing leads to it while it is filled. -/
theorem confines_callBootstrap (c : Class) (index number : UInt16) (hm : m.Walled known hidden) :
    Confines known hidden (callBootstrap env constant c index number) m
      (fun h m' => m'.Outside hidden h) := by
  unfold callBootstrap
  refine confines_bind_orFail hm (fun invoke hinvoke => ?_)
  refine confines_bind_orFail hm (fun bootstrap _ => ?_)
  refine confines_bind_still hm (keeps_coreClass _) (fun object _ => ?_)
  refine confines_bind (confines_allocate hm (by simp [Object.holds_newArray])
    (fun id hid => by cases hid)) ?_
  rintro buffer m₁ hrun₁ hm₁ ⟨-, hbuffer⟩
  have hsealed₁ := hm.hide hrun₁ hm₁
  -- Two walls stand while it is filled: the one of before, and one that also hides the array.
  have hcopied : ∀ r : ArgumentCopy, r.buffer = buffer → r.fallback = none →
      Confines known hidden (copyArgumentsWith env constant c r) m₁
        (fun _ m' => m'.Outside hidden buffer) := by
    rintro r rfl hnone
    obtain ⟨hm₂, hsealed₂⟩ : (copyArgumentsWith env constant c r m₁).2.Walled known hidden ∧
        (copyArgumentsWith env constant c r m₁).2.Walled known (insert r.buffer hidden) :=
      walled_copyArgumentsWith hconstant (fun h hh => by rw [hnone] at hh; cases hh) c
        (Set.mem_insert r.buffer hidden) hm₁ hsealed₁
    refine ⟨hm₂, fun _ m₂ hrun₂ => ?_⟩
    rw [hrun₂] at hsealed₂
    exact ⟨hsealed₂.live r.buffer (Set.mem_insert r.buffer hidden), hbuffer.2⟩
  refine confines_bind (hcopied _ (by rfl) (by rfl)) (fun _ m₂ _ hm₂ hbuffer₂ => ?_)
  refine confines_bind_still hm₂ (keeps_elements buffer) (fun arguments _ => ?_)
  refine confines_bind (R := fun _ m' => m'.Outside hidden buffer)
    ⟨keeps_recordCall_walled _ m₂ hm₂, fun _ _ hrun₃ => by cases hrun₃; exact hbuffer₂⟩ ?_
  intro _ m₃ _ hm₃ hbuffer₃
  -- From here on the bootstrap method knows the array, and only the wall of before is left.
  refine confines_bind (henv invoke hinvoke c buffer hm₃ hbuffer₃) ?_
  intro answer m₄ _ hm₄ hanswer
  refine ⟨keeps_orFail _ _ m₄ hm₄, fun h m₅ hrun₅ => ?_⟩
  obtain ⟨rfl, rfl⟩ := orFail_eq_ok_iff.mp hrun₅
  exact hanswer h rfl

theorem confines_resolveDynamicConstantWith (c : Class) (index : UInt16)
    (hm : m.Walled known hidden) :
    Confines known hidden (resolveDynamicConstantWith env constant c index) m
      (fun h m' => m'.Outside hidden h) := by
  unfold resolveDynamicConstantWith constantAt
  refine confines_bind_orFail hm (fun entry _ => ?_)
  cases entry with
  | dynamic number name descriptor =>
    exact confines_resolveOnce hm (confines_callBootstrap hconstant henv c index number hm)
  | _ => exact confines_fail _ hm

theorem confines_constantObjectWith (c : Class) (index : UInt16) (resolve : Bool)
    (hm : m.Walled known hidden) :
    Confines known hidden (constantObjectWith env constant c index resolve) m
      (fun value m' => m'.NullOrOutside hidden value) := by
  have hnone : Confines known hidden (pure none : Link (Option Handle)) m
      (fun value m' => m'.NullOrOutside hidden value) :=
    confines_pure hm (fun h hh => by cases hh)
  unfold constantObjectWith
  split
  · exact confines_fail _ hm
  split
  · exact hnone
  rename_i entry _
  refine confines_bind_still hm (keeps_memo? _) (fun found hfound => ?_)
  cases found with
  | some value =>
    rw [memo?_run, Prod.mk.injEq, Except.ok.injEq] at hfound
    refine confines_pure hm (fun h hh => ?_)
    rw [← Option.some.inj hh]
    exact ⟨hm.memos _ value hfound.1, hm.constants _ value hfound.1⟩
  | none =>
    dsimp only
    split
    · split
      · cases entry with
        | classRef name => exact confines_some (confines_resolveClassConstant env c index hm)
        | stringRef text => exact confines_some (confines_resolveStringConstant c index hm)
        | methodType descriptor =>
          exact confines_some (confines_resolveMethodTypeConstant env c index hm)
        | methodHandle kind reference =>
          exact confines_some (confines_resolveMethodHandleConstant env c index hm)
        | dynamic number name descriptor =>
          exact confines_some (confines_resolveDynamicConstantWith hconstant henv c index hm)
        | _ => exact hnone
      · exact hnone
    · -- The object of a number refers to nothing.
      split
      · rename_i object hbox
        refine confines_some ((confines_allocate hm ?_ ?_).mono (fun _ _ _ hh => hh.2))
        · cases entry <;> cases hbox <;> exact fun _ hr => by cases hr
        · cases entry <;> cases hbox <;> exact fun _ hid => by cases hid
      · exact hnone

end Open

/-! ## All constants -/

variable (henv : env.Confined known)

include henv

theorem confines_constantObjectWithin (bound : Nat) (c : Class) (index : UInt16) (resolve : Bool)
    (hm : m.Walled known hidden) :
    Confines known hidden (constantObjectWithin env bound c index resolve) m
      (fun value m' => m'.NullOrOutside hidden value) := by
  -- By induction on the number of calls inside each other, for all that may be hidden.
  induction bound generalizing m hidden c index resolve with
  | zero => exact confines_failWith _ hm
  | succ bound ih => exact confines_constantObjectWith ih henv c index resolve hm

theorem keeps_constantObject_walled (c : Class) (index : UInt16) (resolve : Bool) :
    Keeps (Machine.Walled known hidden) (constantObject env c index resolve) :=
  keeps_bind (keeps_view _)
    (fun bound _ hm => (confines_constantObjectWithin henv bound c index resolve hm).walled)

theorem keeps_resolveDynamicConstant_walled (c : Class) (index : UInt16) :
    Keeps (Machine.Walled known hidden) (resolveDynamicConstant env c index) :=
  keeps_bind (keeps_view _) (fun bound _ hm => (confines_resolveDynamicConstantWith
    (confines_constantObjectWithin henv bound) henv c index hm).walled)

/-! ## Copying arguments on request -/

theorem walled_copyArguments {r : ArgumentCopy} (c : Class) (hbuffer : r.buffer ∈ apart)
    (hfallback : ∀ h, r.fallback = some h → h ∈ known) (hm : m.Walled known hidden)
    (hsealed : m.Walled known apart) :
    (copyArguments env c r m).2.Walled known hidden := by
  unfold copyArguments
  rw [bind_of_ok (callBound_run m)]
  exact (walled_copyArgumentsWith (confines_constantObjectWithin henv _) hfallback c hbuffer hm
    hsealed).1

omit henv

/-- Arguments may be copied into the object: if it is an array at all, then neither a known
    object nor a remembered constant leads to it, and the fallback is known. -/
structure Machine.MayCopy (m : Machine) (known : Set Handle) (buffer : Handle)
    (fallback : Option Handle) : Prop where
  fallback : ∀ h, fallback = some h → h ∈ known
  known : ∀ h ∈ known, ¬ Leads m.object? h buffer
  constants : ∀ slot h, m.memos.lookup slot = some h → ¬ Leads m.object? h buffer

/-- An array that neither known objects nor remembered constants lead to is out of reach,
    together with everything that leads to it. -/
theorem Machine.Walled.seal {buffer : Handle} {a : ObjectArray} {fallback : Option Handle}
    (hm : m.Walled known ∅) (hobject : m.object? buffer = some (.array a))
    (hmay : m.MayCopy known buffer fallback) :
    m.Walled known {h | Leads m.object? h buffer} := by
  -- Roots hold nothing, so they do not lead to an array.
  have hroot : ∀ {x}, m.Roots x → ¬ Leads m.object? x buffer :=
    fun hx => (hm.mayHold_of_root hx (hm.not_roots hobject rfl rfl)).away
  refine { toUntangled := hm.toUntangled, known_live := hm.known_live, apart := hmay.known,
           live := ?_, objects := ?_, strings := ?_, classObjects := ?_,
           constants := hmay.constants }
  · intro x hx hfree
    rcases Relation.ReflTransGen.cases_head hx with rfl | ⟨y, ⟨o, ho, -⟩, -⟩
    · rw [hobject] at hfree
      cases hfree
    · rw [hfree] at ho
      cases ho
  · -- What refers to something that leads to the array leads to it too.
    exact fun x y hxy hx hy => hx (Relation.ReflTransGen.head hxy hy)
  · exact fun text x hx => hroot (Or.inl ⟨text, hx⟩)
  · exact fun c hc => hroot (Or.inr ⟨c, hc, rfl⟩)

theorem walled_copyArguments_of_mayCopy {r : ArgumentCopy} (henv : env.Confined known) (c : Class)
    (hm : m.Walled known ∅) (hmay : ∀ a, m.object? r.buffer = some (.array a) →
      m.MayCopy known r.buffer r.fallback) :
    (copyArguments env c r m).2.Walled known ∅ := by
  by_cases harray : ∃ a, m.object? r.buffer = some (.array a)
  · obtain ⟨a, ha⟩ := harray
    have hbuffer : r.buffer ∈ {h | Leads m.object? h r.buffer} := Relation.ReflTransGen.refl
    exact walled_copyArguments henv c hbuffer (hmay a ha).fallback hm (hm.seal ha (hmay a ha))
  · -- Nothing is copied into an object of another kind.
    unfold copyArguments copyArgumentsWith
    rw [bind_of_ok (callBound_run m), resolve_readAt]
    refine (confines_bind_still (Q := fun _ _ => True) hm (keeps_read r.buffer) ?_).walled
    intro o hread
    have ho : m.object? r.buffer = some o :=
      (read_eq_ok_iff hm.heap).mp (read_run_eq_ok_iff.mp hread).1
    cases o with
    | array a => exact absurd ⟨a, ho⟩ harray
    | _ => exact confines_fail _ hm

end Linkage
