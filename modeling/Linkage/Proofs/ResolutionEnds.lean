import Linkage.Proofs.ArgumentCopies
import Linkage.Proofs.Returning
import Linkage.Proofs.Signatures

/-! # Resolving dynamic constants ends

    Nothing marks a dynamic constant that is being resolved, so constants that need each
    other are resolved inside each other again and again. But each call of a bootstrap
    method stores the array of its arguments before they are resolved, and if nobody gives
    up objects, the heap is full at last. So the bound on calls inside each other is never
    reached, and the failure of the innermost one ends all of them.

    * `Discipline.Retains`: outside code gives up no objects.
    * `Link.Sure P F x`: where `P` holds, the action fails only in the ways of `F`. One rule
      for each combinator, then one lemma for each action that resolves constants.
    * `sure_constantObjectWithin`: a bound that exceeds the room of the heap is enough. -/

namespace Linkage

open Link

variable {α β : Type} {rule kept : Discipline} {env : Environment} {m m' m₀ : Machine} {c : Class}

/-! ## Objects that stay -/

/-- Outside code gives up no objects. -/
def Discipline.Retains (rule : Discipline) : Prop :=
  ∀ m handle, ¬ rule m (.release handle)

/-- Where no object is given up, objects only become more. -/
theorem Changes.live_le (hkept : kept.Retains) (h : Changes kept m m') (hw : m.heap.WellFormed) :
    m.heap.live ≤ m'.heap.live := by
  refine (h.keeps (P := fun m' => m'.heap.WellFormed ∧ m.heap.live ≤ m'.heap.live) ?_
    ⟨hw, Nat.le_refl _⟩).2
  rintro m₁ m₂ hchange ⟨hw₁, hlive⟩
  refine ⟨hchange.wellFormed hw₁, ?_⟩
  rcases hchange.fuller hw₁ with hfuller | ⟨handle, hrule, _⟩
  · exact Nat.le_trans hlive hfuller.live
  · exact absurd hrule (hkept m₁ handle)

theorem Change.object_stays (hkept : kept.Retains) (h : Change kept m m') (hw : m.heap.WellFormed)
    {handle : Handle} (hobject : m.object? handle ≠ none) : m'.object? handle ≠ none := by
  -- Every effect but a release writes an object, so that there is one afterwards.
  have hwritten : ∀ {other : Handle} {object : Object},
      m'.object? = Function.update m.object? other (some object) → m'.object? handle ≠ none := by
    intro other object hobjects
    rw [hobjects]
    by_cases he : handle = other
    · simp [he]
    · rwa [Function.update_of_ne he]
  cases h.effect hw with
  | kept objects _ => rwa [objects]
  | stored _ objects _ _ => exact hwritten objects
  | defined _ _ objects _ => exact hwritten objects
  | filled _ _ objects _ => exact hwritten objects
  | amended _ _ objects _ _ => exact hwritten objects
  | changed _ _ objects _ => exact hwritten objects
  | released allowed _ _ => exact absurd allowed (hkept _ _)

theorem Changes.object_stays (hkept : kept.Retains) (h : Changes kept m m')
    (hw : m.heap.WellFormed) {handle : Handle} (hobject : m.object? handle ≠ none) :
    m'.object? handle ≠ none := by
  refine (h.keeps (P := fun m' => m'.heap.WellFormed ∧ m'.object? handle ≠ none) ?_
    ⟨hw, hobject⟩).2
  rintro m₁ m₂ hchange ⟨hw₁, hobject₁⟩
  exact ⟨hchange.wellFormed hw₁, hchange.object_stays hkept hw₁ hobject₁⟩

/-- A heap never holds more objects than it has room for. -/
theorem Changes.room (h : Changes rule m m') (hw : m.heap.WellFormed)
    (hroom : m.heap.live ≤ m.heap.config.capacity) :
    m'.heap.live ≤ m'.heap.config.capacity := by
  refine (h.keeps (P := fun m' => m'.heap.WellFormed ∧
    m'.heap.live ≤ m'.heap.config.capacity) ?_ ⟨hw, hroom⟩).2
  rintro m₁ m₂ hchange ⟨hw₁, hroom₁⟩
  refine ⟨hchange.wellFormed hw₁, ?_⟩
  rcases hchange.fuller hw₁ with hfuller | ⟨handle, _, rfl⟩
  · exact hfuller.room hroom₁
  · -- Giving up an object makes room.
    have hview := (Heap.release_view hw₁ handle).2
    have hstore : (m₁.heap.view.release handle).2.live ≤ m₁.heap.view.live ∧
        (m₁.heap.view.release handle).2.capacity = m₁.heap.view.capacity := by
      unfold Store.release
      split
      · exact ⟨Nat.sub_le _ _, rfl⟩
      · exact ⟨Nat.le_refl _, rfl⟩
    rw [← hview] at hstore
    rw [release_run]
    exact Nat.le_trans hstore.1 (Nat.le_trans hroom₁ (Nat.le_of_eq hstore.2.symm))

theorem Machine.Reachable.room (h : m.Reachable rule) :
    m.heap.live ≤ m.heap.config.capacity := by
  obtain ⟨config, hchanges⟩ := h.changes
  exact hchanges.room (Heap.wellFormed_empty config) (Nat.zero_le _)

/-! ## Actions that fail in known ways -/

/-- The action goes through changes and keeps an origin for each remembered value. Where `P`
    holds it fails only in the ways of `F`. -/
structure Link.Sure (kept : Discipline) (c : Class) (P : Machine → Prop) (F : Failure → Prop)
    (x : Link α) : Prop where
  changing : Changing kept x
  records : Records Discipline.free c x
  fails : ∀ m, P m → ∀ e, (x m).1 = .error e → F e

/-- The property belongs to machines with the class, and such actions keep it. -/
structure Link.Lasting (kept : Discipline) (c : Class) (P : Machine → Prop) : Prop where
  recorded : ∀ {m}, P m → m.Recorded Discipline.free
  member : ∀ {m}, P m → m.classes.get? c.id = some c
  lasts : ∀ {m m'}, P m → Changes kept m m' → m'.Recorded Discipline.free → P m'

namespace Link

section Sure

variable {P : Machine → Prop} {F : Failure → Prop} {x : Link α} {f : α → Link β}

theorem Lasting.of_run (hP : Lasting kept c P) (hx : Sure kept c P F x) (hm : P m)
    {result : Except Failure α} (h : x m = (result, m')) : P m' := by
  have hchanges := hx.changing m
  have hrecorded := (hx.records m (hP.recorded hm) (hP.member hm)).2
  rw [h] at hchanges hrecorded
  exact hP.lasts hm hchanges hrecorded

theorem Sure.mono (hx : Sure kept c P F x) {Q : Machine → Prop} (h : ∀ m, Q m → P m) :
    Sure kept c Q F x :=
  ⟨hx.changing, hx.records, fun m hm => hx.fails m (h m hm)⟩

theorem sure_links (env : Environment) (hlinks : Links env.mute x) (hmemos : ∀ Q, Preserves Q x)
    (hfails : ∀ m, P m → ∀ e, (x m).1 = .error e → F e) : Sure kept c P F x :=
  ⟨changing_of_links hlinks, records_links env hlinks hmemos, hfails⟩

/-- Going on with what is known of the first value. -/
theorem sure_bind_to {J : α → Machine → Prop} (hP : Lasting kept c P) (hx : Sure kept c P F x)
    (hto : ∀ m a m', P m → x m = (.ok a, m') → P m' → J a m')
    (hf : ∀ a, Sure kept c (J a) F (f a)) : Sure kept c P F (x >>= f) where
  changing := changing_bind hx.changing (fun a => (hf a).changing)
  records := records_bind hx.records (fun a => (hf a).records)
  fails := by
    intro m hm e he
    rcases bind_cases x f m with ⟨e', m', hrun, hbind⟩ | ⟨a, m', hrun, hbind⟩
    · rw [hbind] at he
      cases he
      exact hx.fails m hm e (by rw [hrun])
    · rw [hbind] at he
      exact (hf a).fails m' (hto m a m' hm hrun (hP.of_run hx hm hrun)) e he

theorem sure_bind (hP : Lasting kept c P) (hx : Sure kept c P F x)
    (hf : ∀ a, Sure kept c P F (f a)) : Sure kept c P F (x >>= f) :=
  sure_bind_to hP hx (fun _ _ _ _ _ hm' => hm') hf

theorem sure_pure (a : α) : Sure kept c P F (pure a : Link α) :=
  ⟨fun m => Changes.refl m, records_pure a, fun _ _ _ he => by cases he⟩

theorem sure_map (g : α → β) (hx : Sure kept c P F x) : Sure kept c P F (g <$> x) where
  changing := changing_bind hx.changing (fun a m => Changes.refl m)
  records := records_map g hx.records
  fails := by
    intro m hm e he
    refine hx.fails m hm e ?_
    rw [map_run] at he
    cases hx : (x m).1 with
    | ok a => rw [hx] at he; cases he
    | error e' => rw [hx] at he; cases he; rfl

theorem sure_forEach (hP : Lasting kept c P) {as : List α}
    (hf : ∀ a ∈ as, Sure kept c P F (f a)) : Sure kept c P F (forEach f as) := by
  induction as with
  | nil => exact sure_pure []
  | cons a as ih =>
    refine sure_bind hP (hf a List.mem_cons_self) (fun b => ?_)
    refine sure_bind hP (ih (fun a' ha' => hf a' (List.mem_cons_of_mem a ha'))) (fun bs => ?_)
    exact sure_pure _

theorem sure_memoize (env : Environment) (bound : Nat) {index : UInt16} {entry : PoolEntry}
    {compute : Link Handle} (hentry : c.pool.get? index = some entry)
    (hcompute : entry.computation? env bound c index = some compute)
    (hsure : Sure kept c P F compute) : Sure kept c P F (memoize ⟨c.id, index⟩ compute) where
  changing := changing_memoize _ hsure.changing
  records := records_memoize env bound hentry hcompute hsure.records
  fails := fun m hm e he => hsure.fails m hm e (fails_memoize he)

variable (hF : ∀ e, F (.thrown e))

include hF

theorem sure_fail (e : LinkError) : Sure kept c P F (fail e : Link α) :=
  ⟨fun m => Changes.refl m, records_fail e, fun _ _ _ he => by cases he; exact hF e⟩

theorem sure_bind_orFail {o : Option α} {e : LinkError} {f : α → Link β}
    (hf : ∀ a, o = some a → Sure kept c P F (f a)) : Sure kept c P F (orFail o e >>= f) := by
  cases o with
  | none => exact ⟨fun m => Changes.refl m, records_still (fun _ => rfl),
      fun _ _ _ he => by cases he; exact hF e⟩
  | some a => exact hf a rfl

/-- Actions that end whatever is being loaded. -/
theorem sure_ends (env : Environment) (hlinks : Links env.mute x) (hmemos : ∀ Q, Preserves Q x)
    (hends : ∀ names, Ends names x) : Sure kept c P F x := by
  refine sure_links env hlinks hmemos (fun m _ e he => ?_)
  rcases (hends m.loading m rfl).1 with ⟨a, ha⟩ | ⟨t, ht⟩
  · rw [ha] at he
    cases he
  · rw [ht] at he
    cases he
    exact hF t

end Sure

end Link

/-! ## Actions without bootstrap methods -/

section Constants

variable {P : Machine → Prop} {F : Failure → Prop} (hF : ∀ e, F (.thrown e))
  (hP : Lasting kept c P)

include hF

theorem sure_loadClass (env : Environment) (name : String) :
    Sure kept c P F (loadClass env name) := by
  rw [← loadClass_mute]
  exact sure_ends hF env (links_loadClass name) (fun _ => preserves_loadClass _ name)
    (ends_loadClass _ name)

theorem sure_newMethodType (env : Environment) (descriptor : String) :
    Sure kept c P F (newMethodType env descriptor) := by
  rw [← newMethodType_mute]
  exact sure_ends hF env (links_newMethodType descriptor)
    (fun _ => preserves_newMethodType _ descriptor) (fun _ => ends_newMethodType _ descriptor)

theorem sure_intern (env : Environment) (text : String) : Sure kept c P F (intern text) :=
  sure_ends hF env (.intern text) (fun _ => preserves_intern text) (fun _ => ends_intern text)

theorem sure_allocate {object : Object} (h : object.Plain) :
    Sure kept c P F (allocate object) where
  changing := fun _ => Changes.single (.allocate object (Or.inl h))
  records := records_allocate h
  fails := by
    intro m _ e he
    rcases (ends_allocate object m rfl).1 with ⟨handle, hrun⟩ | ⟨t, hrun⟩
    · rw [hrun] at he
      cases he
    · rw [hrun] at he
      cases he
      exact hF t

include hP

theorem sure_resolveClassConstant (env : Environment) (index : UInt16) :
    Sure kept c P F (resolveClassConstant env c index) := by
  refine sure_bind_orFail hF (fun entry hentry => ?_)
  cases entry with
  | classRef name =>
    refine sure_memoize env 0 hentry rfl ?_
    exact sure_bind hP (sure_loadClass hF env name) (fun k => sure_pure _)
  | _ => exact sure_fail hF _

end Constants

/-! ## Calls of bootstrap methods -/

/-- A machine while constants of the class are being resolved, `n` calls deep: at least `n`
    objects are on the heap. -/
structure Machine.Underway (kept : Discipline) (m₀ : Machine) (c : Class) (n : Nat)
    (m : Machine) : Prop where
  changes : Changes kept m₀ m
  recorded : m.Recorded Discipline.free
  member : m.classes.get? c.id = some c
  live : n ≤ m.heap.live

theorem Machine.Underway.le {n k : Nat} (h : m₀.Underway kept c n m) (hk : k ≤ n) :
    m₀.Underway kept c k m :=
  ⟨h.changes, h.recorded, h.member, Nat.le_trans hk h.live⟩

section Bootstrap

variable (hkept : kept.Retains)

include hkept

theorem lasting_underway (n : Nat) : Lasting kept c (m₀.Underway kept c n) where
  recorded := Machine.Underway.recorded
  member := Machine.Underway.member
  lasts := fun hm hchanges hrecorded => {
    changes := hm.changes.trans hchanges
    recorded := hrecorded
    member := hchanges.get?_classes hm.member
    live := Nat.le_trans hm.live (hchanges.live_le hkept hm.recorded.sound.heap) }

/-- The array of the arguments stays on the heap, too. -/
theorem lasting_holding (n : Nat) (buffer : Handle) :
    Lasting kept c (fun m => m₀.Underway kept c n m ∧ m.object? buffer ≠ none) where
  recorded := fun hm => hm.1.recorded
  member := fun hm => hm.1.member
  lasts := fun hm hchanges hrecorded =>
    ⟨(lasting_underway hkept n).lasts hm.1 hchanges hrecorded,
      hchanges.object_stays hkept hm.1.recorded.sound.heap hm.2⟩

variable {F : Failure → Prop} (hF : ∀ e, F (.thrown e))
  {constant : Class → UInt16 → Bool → Link (Option Handle)}

omit hkept

theorem sure_argumentValue {P : Machine → Prop} (hP : Lasting kept c P)
    (hF : ∀ e, F (.thrown e)) (hconstant : ∀ k resolve, Sure kept c P F (constant c k resolve))
    (r : ArgumentCopy) (d : DynamicConstant) (number : Int) :
    Sure kept c P F (argumentValue env constant r c d number) := by
  unfold argumentValue
  -- In the order of the numbers below zero: method, name, type and count.
  split
  · exact hconstant _ _
  split
  · exact sure_map _ (sure_intern hF env _)
  split
  · rw [← dynamicType_mute]
    exact sure_map _ (sure_ends hF env (links_dynamicType _ d)
      (fun _ => preserves_dynamicType _ d) (fun _ => ends_dynamicType _ d))
  split
  · exact sure_map _ (sure_allocate hF trivial)
  · refine sure_bind_orFail hF (fun argument _ => ?_)
    refine sure_bind hP (hconstant _ _) (fun value => ?_)
    cases value <;> exact sure_pure _

/-- Arguments are copied to an array that is on the heap. -/
theorem sure_copyArgumentsWith {P : Machine → Prop} (hP : Lasting kept c P)
    (hF : ∀ e, F (.thrown e)) (hconstant : ∀ k resolve, Sure kept c P F (constant c k resolve))
    {r : ArgumentCopy} (hbuffer : ∀ m, P m → m.object? r.buffer ≠ none) :
    Sure kept c P F (copyArgumentsWith env constant c r) := by
  -- The array outlasts everything that happens in between, so reading it never fails.
  have hread : ∀ m, P m → ∃ object, m.heap.read r.buffer = .ok object := by
    intro m hm
    obtain ⟨object, hobject⟩ := Option.ne_none_iff_exists'.mp (hbuffer m hm)
    exact ⟨object, (read_eq_ok_iff (hP.recorded hm).sound.heap).mpr hobject⟩
  unfold copyArgumentsWith
  rw [resolve_readAt]
  refine sure_bind hP (sure_links env (.read _) (fun _ => preserves_read _) ?_) (fun object => ?_)
  · intro m hm e he
    obtain ⟨object, hobject⟩ := hread m hm
    rw [read_of_ok hobject] at he
    cases he
  refine sure_bind_orFail hF (fun buffer _ => ?_)
  split
  · exact sure_fail hF _
  have hdynamic : ∀ Q, Preserves Q (r.dynamicConstant c) := by
    intro Q
    unfold ArgumentCopy.dynamicConstant
    grind
  refine sure_bind hP (sure_links env (links_dynamicConstant _ r c) hdynamic ?_) (fun d => ?_)
  · intro m _ e he
    rcases dynamicConstant_cases r c m with ⟨d, hd⟩ | ⟨t, ht⟩
    · rw [hd.run] at he
      cases he
    · rw [ht] at he
      cases he
      exact hF t
  refine sure_bind hP (sure_forEach hP (fun distance _ => ?_)) (fun _ => sure_pure _)
  rw [copyArgument_eq]
  refine sure_bind hP (sure_argumentValue hP hF hconstant r d _) (fun value => ?_)
  refine sure_links env (madeOf_setElement _ _ _) (fun _ => preserves_update _ _) ?_
  -- Writing the value does not fail either, as the array is still there.
  intro m hm e he
  obtain ⟨object, hobject⟩ := hread m hm
  obtain ⟨heap, hrun, _⟩ := update_of_read (hP.recorded hm).sound.heap hobject _
  rw [hrun] at he
  cases he

include hkept hF

/-- Whatever the arguments lead to, they are resolved with one more object on the heap. -/
theorem sure_callBootstrap {n : Nat}
    (hconstant : ∀ k resolve, Sure kept c (m₀.Underway kept c (n + 1)) F
      (constant c k resolve))
    (hinvoke : ∀ invoke, env.invoker = some invoke → ∀ buffer, Sure kept c
      (fun m => m₀.Underway kept c 0 m ∧ m.object? buffer ≠ none) F (invoke c buffer))
    (index number : UInt16) :
    Sure kept c (m₀.Underway kept c n) F (callBootstrap env constant c index number) := by
  refine sure_bind_orFail hF (fun invoke hknown => ?_)
  refine sure_bind_orFail hF (fun bootstrap _ => ?_)
  refine sure_bind (lasting_underway hkept n) (sure_ends hF env (madeOf_coreClass _)
    (fun _ => preserves_coreClass _) (fun _ => ends_coreClass _)) (fun object => ?_)
  refine sure_bind_to (J := fun buffer m => m₀.Underway kept c (n + 1) m ∧ m.object? buffer ≠ none)
    (lasting_underway hkept n) (sure_ends hF env (madeOf_newArray _ _)
    (fun _ => preserves_newArray _ _) (fun _ => ends_allocate _)) ?_ (fun buffer => ?_)
  · -- The array is one more object.
    intro m buffer m' hm hrun hm'
    rcases allocate_outcome hm.recorded.sound.heap (.array
      { component := object.id
        elements := Array.replicate (bootstrap.arguments.length + 4) none }) with
      ⟨_, _, hfull⟩ | ⟨_, heap, hstored, hw, _, hlive, hread⟩
    · rw [show newArray _ _ m = _ from hfull] at hrun
      cases hrun
    · rw [show newArray _ _ m = _ from hstored] at hrun
      cases hrun
      refine ⟨{ hm' with live := ?_ }, ?_⟩
      · show n + 1 ≤ heap.live
        have hbefore := hm.live
        omega
      · rw [(read_eq_ok_iff hw).mp hread]
        simp
  have hlasting : Lasting kept c
      (fun m => m₀.Underway kept c (n + 1) m ∧ m.object? buffer ≠ none) :=
    lasting_holding hkept (n + 1) buffer
  refine sure_bind hlasting (sure_copyArgumentsWith hlasting hF
    (fun k resolve => (hconstant k resolve).mono (fun _ hm => hm.1)) (fun _ hm => hm.2))
    (fun _ => ?_)
  refine sure_bind hlasting (sure_links env (madeOf_elements buffer)
    (fun _ => preserves_elements buffer) ?_) (fun arguments => ?_)
  · intro m hm e he
    obtain ⟨object, hobject⟩ := Option.ne_none_iff_exists'.mp hm.2
    have hread := (read_eq_ok_iff hm.1.recorded.sound.heap).mpr hobject
    unfold elements at he
    rw [bind_of_ok (read_of_ok hread)] at he
    revert he
    cases object.array? <;> intro he <;> cases he
  refine sure_bind hlasting (sure_links env (.recordCall _) (fun _ => preserves_recordCall _)
    (fun _ _ _ he => by cases he)) (fun _ => ?_)
  refine sure_bind hlasting ((hinvoke invoke hknown buffer).mono
    (fun _ hm => ⟨hm.1.le (Nat.zero_le _), hm.2⟩)) (fun answer => ?_)
  exact sure_ends hF env (madeOf_orFail _ _) (fun _ => preserves_orFail _ _)
    (fun _ => ends_orFail _ _)

end Bootstrap

/-! ## Enough calls -/

section Within

variable {F : Failure → Prop} (hkept : kept.Retains) (hF : ∀ e, F (.thrown e))
  (hroom : m₀.heap.live ≤ m₀.heap.config.capacity) (hw₀ : m₀.heap.WellFormed)
  (hhandle : ∀ kind reference, Sure kept c (m₀.Underway kept c 0) F
    (newMethodHandle env c kind reference))
  (hinvoke : ∀ invoke, env.invoker = some invoke → ∀ buffer, Sure kept c
    (fun m => m₀.Underway kept c 0 m ∧ m.object? buffer ≠ none) F (invoke c buffer))

include hkept hF hinvoke

theorem sure_resolveDynamicConstantWith {n bound : Nat}
    (hconstant : ∀ k resolve, Sure kept c (m₀.Underway kept c (n + 1)) F
      (constantObjectWithin env bound c k resolve)) (index : UInt16) :
    Sure kept c (m₀.Underway kept c n) F
      (resolveDynamicConstantWith env (constantObjectWithin env bound) c index) := by
  refine sure_bind_orFail hF (fun entry hentry => ?_)
  cases entry with
  | dynamic number name descriptor =>
    exact sure_memoize env bound hentry rfl (sure_callBootstrap hkept hF hconstant hinvoke _ _)
  | _ => exact sure_fail hF _

include hhandle

theorem sure_resolveLazyWith {n bound : Nat}
    (hconstant : ∀ k resolve, Sure kept c (m₀.Underway kept c (n + 1)) F
      (constantObjectWithin env bound c k resolve)) (index : UInt16) (entry : PoolEntry) :
    Sure kept c (m₀.Underway kept c n) F
      (resolveLazyWith env (constantObjectWithin env bound) c index entry) := by
  have hlasting : Lasting kept c (m₀.Underway kept c n) := lasting_underway hkept n
  cases entry with
  | classRef name => exact sure_map _ (sure_resolveClassConstant hF hlasting env index)
  | stringRef text =>
    refine sure_map _ (sure_bind_orFail hF (fun entry hentry => ?_))
    cases entry with
    | stringRef text => exact sure_memoize env 0 hentry rfl (sure_intern hF env text)
    | _ => exact sure_fail hF _
  | methodType descriptor =>
    refine sure_map _ (sure_bind_orFail hF (fun entry hentry => ?_))
    cases entry with
    | methodType descriptor =>
      exact sure_memoize env 0 hentry rfl (sure_newMethodType hF env descriptor)
    | _ => exact sure_fail hF _
  | methodHandle kind reference =>
    refine sure_map _ (sure_bind_orFail hF (fun entry hentry => ?_))
    cases entry with
    | methodHandle kind reference =>
      -- A method handle calls no bootstrap method, so the depth does not matter to it.
      refine sure_memoize env 0 hentry rfl ((hhandle kind reference).mono ?_)
      exact fun m hm => hm.le (Nat.zero_le n)
    | _ => exact sure_fail hF _
  | dynamic number name descriptor =>
    exact sure_map _ (sure_resolveDynamicConstantWith hkept hF hinvoke hconstant index)
  | _ => exact sure_pure none

/-- The object of a constant, if what it needs is resolved with one more object on the heap. -/
theorem sure_constantObjectWith {n bound : Nat}
    (hconstant : ∀ k resolve, Sure kept c (m₀.Underway kept c (n + 1)) F
      (constantObjectWithin env bound c k resolve)) (index : UInt16) (resolve : Bool) :
    Sure kept c (m₀.Underway kept c n) F
      (constantObjectWith env (constantObjectWithin env bound) c index resolve) := by
  have hlasting : Lasting kept c (m₀.Underway kept c n) := lasting_underway hkept n
  unfold constantObjectWith
  split
  · exact sure_fail hF _
  split
  · exact sure_pure none
  rename_i entry _
  refine sure_bind hlasting ⟨fun m => Changes.refl m, records_still (fun _ => rfl),
    fun _ _ _ he => by cases he⟩ (fun found => ?_)
  cases found with
  | some value => exact sure_pure _
  | none =>
    dsimp only
    split
    · split
      · exact sure_resolveLazyWith hkept hF hhandle hinvoke hconstant index entry
      · exact sure_pure none
    · split
      · -- Numbers are boxed.
        rename_i object hobject
        refine sure_map _ (sure_allocate hF ?_)
        cases entry <;> cases hobject <;> trivial
      · exact sure_pure none

include hroom hw₀

/-- Calls of bootstrap methods inside each other end if there may be more of them than there
    is room for objects. -/
theorem sure_constantObjectWithin (bound : Nat) {n : Nat}
    (hbound : m₀.heap.config.capacity < bound + n) (index : UInt16) (resolve : Bool) :
    Sure kept c (m₀.Underway kept c n) F (constantObjectWithin env bound c index resolve) := by
  -- By induction on the bound: each call takes one from it, and adds an object to the heap.
  induction bound generalizing n index resolve with
  | zero =>
    refine ⟨fun m => Changes.refl m, records_still (fun _ => rfl), fun m hm => ?_⟩
    -- As many objects as there have been calls do not fit.
    have hlive := hm.live
    have hfits := hm.changes.room hw₀ hroom
    have hcapacity := hm.changes.capacity hw₀
    omega
  | succ bound ih =>
    exact sure_constantObjectWith hkept hF hhandle hinvoke
      (fun k resolve => ih (by omega) k resolve) index resolve

end Within

/-! ## Larger bounds -/

theorem approx_map {x y : Link α} (h : Approx x y) (g : α → β) : Approx (g <$> x) (g <$> y) :=
  approx_bind h (fun _ => approx_refl _)

theorem approx_memoize {x y : Link Handle} (h : Approx x y) (slot : ConstantSlot) :
    Approx (memoize slot x) (memoize slot y) := by
  refine approx_bind (approx_refl _) (fun found => ?_)
  cases found with
  | some value => exact approx_refl _
  | none => exact approx_bind h (fun value => approx_refl _)

section Approx

variable {constant constant' : Class → UInt16 → Bool → Link (Option Handle)}
  (hconstant : ∀ c k resolve, Approx (constant c k resolve) (constant' c k resolve))

include hconstant

theorem approx_argumentValue (r : ArgumentCopy) (c : Class) (d : DynamicConstant) (number : Int) :
    Approx (argumentValue env constant r c d number)
      (argumentValue env constant' r c d number) := by
  unfold argumentValue
  split
  · exact hconstant _ _ _
  split
  · exact approx_refl _
  split
  · exact approx_refl _
  split
  · exact approx_refl _
  · exact approx_bind (approx_refl _) (fun argument =>
      approx_bind (hconstant _ _ _) (fun value => approx_refl _))

theorem approx_resolveDynamicConstantWith (c : Class) (index : UInt16) :
    Approx (resolveDynamicConstantWith env constant c index)
      (resolveDynamicConstantWith env constant' c index) := by
  refine approx_bind (approx_refl _) (fun entry => ?_)
  cases entry with
  | dynamic number name descriptor =>
    -- Both sides differ only in how the arguments are resolved.
    refine approx_memoize ?_ _
    refine approx_bind (approx_refl _) (fun invoke => ?_)
    refine approx_bind (approx_refl _) (fun bootstrap => ?_)
    refine approx_bind (approx_refl _) (fun object => ?_)
    refine approx_bind (approx_refl _) (fun buffer => ?_)
    refine approx_bind ?_ (fun _ => approx_refl _)
    refine approx_bind (approx_refl _) (fun place => ?_)
    refine approx_bind (approx_refl _) (fun object => ?_)
    refine approx_bind (approx_refl _) (fun array => ?_)
    split
    · exact approx_refl _
    refine approx_bind (approx_refl _) (fun d => ?_)
    refine approx_bind (approx_forEach (fun distance => ?_) _) (fun _ => approx_refl _)
    exact approx_bind (approx_argumentValue hconstant _ c d _) (fun value => approx_refl _)
  | _ => exact approx_refl _

theorem approx_constantObjectWith (c : Class) (index : UInt16) (resolve : Bool) :
    Approx (constantObjectWith env constant c index resolve)
      (constantObjectWith env constant' c index resolve) := by
  unfold constantObjectWith
  split
  · exact approx_refl _
  split
  · exact approx_refl _
  refine approx_bind (approx_refl _) (fun found => ?_)
  cases found with
  | some value => exact approx_refl _
  | none =>
    dsimp only
    -- Only dynamic constants are resolved by `constant`.
    split
    · split
      · rename_i entry _ _ _
        cases entry with
        | dynamic number name descriptor =>
          exact approx_map (approx_resolveDynamicConstantWith hconstant c index) some
        | _ => exact approx_refl _
      · exact approx_refl _
    · exact approx_refl _

end Approx

/-- What is done without reaching the bound is done under any larger one. -/
theorem approx_constantObjectWithin {bound bound' : Nat} (hle : bound ≤ bound') (c : Class)
    (index : UInt16) (resolve : Bool) : Approx (constantObjectWithin env bound c index resolve)
      (constantObjectWithin env bound' c index resolve) := by
  induction bound generalizing bound' c index resolve with
  | zero => exact fun m hm => absurd rfl hm
  | succ bound ih =>
    obtain ⟨more, rfl⟩ : ∃ more, bound' = more + 1 := ⟨bound' - 1, by omega⟩
    exact approx_constantObjectWith (fun c k resolve => ih (by omega) c k resolve) c index resolve

/-! ## Resolution ends -/

/-- Bootstrap methods follow a rule by which no object is given up, and do not reach a
    bound. -/
structure Environment.Modest (env : Environment) (kept : Discipline) : Prop where
  retains : kept.Retains
  runs : ∀ invoke, env.invoker = some invoke → ∀ k buffer m, Run kept m (invoke k buffer m).2
  completes : ∀ invoke, env.invoker = some invoke → ∀ k buffer, Completes (invoke k buffer)

section Modest

variable (hm : m.Reachable rule) (hc : m.classes.get? c.id = some c) (hmodest : env.Modest kept)

include hmodest

theorem sure_invoke {F : Failure → Prop} {invoke : Invoker} (hinvoke : env.invoker = some invoke)
    {buffer : Handle} (hfails : ∀ m', Changes kept m m' → m'.object? buffer ≠ none →
      ∀ e, (invoke c buffer m').1 = .error e → F e) :
    Sure kept c (fun m' => m.Underway kept c 0 m' ∧ m'.object? buffer ≠ none) F
      (invoke c buffer) where
  changing := fun m => (hmodest.runs invoke hinvoke c buffer m).changes
  records := by
    intro m hm _
    have hrun : Run Discipline.free m (invoke c buffer m).2 :=
      (hmodest.runs invoke hinvoke c buffer m).mono (fun _ _ _ _ => trivial)
    exact ⟨hrun.changes, hrun.recorded hm⟩
  fails := fun m' hm' => hfails m' hm'.1.changes hm'.2

include hm hc

/-- The ways in which resolving constants fails, given those of making method handles and of
    bootstrap methods. -/
theorem fails_constants {F : Failure → Prop} (hF : ∀ e, F (.thrown e))
    (hhandle : ∀ m', m.Underway kept c 0 m' → ∀ kind reference e,
      (newMethodHandle env c kind reference m').1 = .error e → F e)
    (hinvoke : ∀ invoke, env.invoker = some invoke → ∀ buffer m', Changes kept m m' →
      m'.object? buffer ≠ none → ∀ e, (invoke c buffer m').1 = .error e → F e)
    {bound : Nat} (hbound : m.heap.config.capacity < bound) (index : UInt16) :
    (∀ resolve e, (constantObjectWithin env bound c index resolve m).1 = .error e → F e) ∧
      ∀ e, (resolveDynamicConstantWith env (constantObjectWithin env bound) c index m).1 =
        .error e → F e := by
  have hfree : m.Reachable Discipline.free := hm.mono (fun _ _ _ _ => trivial)
  -- Resolving starts here, with no constant underway.
  have hstart : m.Underway kept c 0 m := ⟨.refl m, hfree.recorded, hc, Nat.zero_le _⟩
  have hhandle' : ∀ kind reference, Sure kept c (m.Underway kept c 0) F
      (newMethodHandle env c kind reference) := by
    intro kind reference
    have hlinks : Links env.mute (newMethodHandle env c kind reference) := by
      have hmute : newMethodHandle env.mute c kind reference =
          newMethodHandle env c kind reference := by
        simp [newMethodHandle]
      rw [← hmute]
      exact links_newMethodHandle c kind reference
    exact ⟨changing_of_links hlinks, records_newMethodHandle env kind reference,
      fun m' hm' => hhandle m' hm' kind reference⟩
  have hinvoke' : ∀ invoke, env.invoker = some invoke → ∀ buffer, Sure kept c
      (fun m' => m.Underway kept c 0 m' ∧ m'.object? buffer ≠ none) F (invoke c buffer) :=
    fun invoke hknown buffer => sure_invoke hmodest hknown (hinvoke invoke hknown buffer)
  have hconstant : ∀ {n : Nat} k resolve, Sure kept c (m.Underway kept c n) F
      (constantObjectWithin env bound c k resolve) := fun k resolve =>
    sure_constantObjectWithin hmodest.retains hF hm.room hm.sound.heap hhandle' hinvoke' bound
      (by omega) k resolve
  refine ⟨fun resolve => (hconstant index resolve).fails m hstart, ?_⟩
  exact (sure_resolveDynamicConstantWith hmodest.retains hF hinvoke' hconstant index).fails m hstart

/-- Neither the object of a constant nor the resolution of a dynamic constant reaches a bound
    that exceeds the room of the heap, so nothing depends on such a bound. -/
theorem constants_complete {bound : Nat} (hbound : m.heap.config.capacity < bound)
    (index : UInt16) :
    (∀ resolve, constantObjectWithin env bound c index resolve m =
        constantObject env c index resolve m ∧
      (constantObject env c index resolve m).1 ≠ .error .boundReached) ∧
    resolveDynamicConstantWith env (constantObjectWithin env bound) c index m =
        resolveDynamicConstant env c index m ∧
      (resolveDynamicConstant env c index m).1 ≠ .error .boundReached := by
  -- The smallest such bound is not reached, so larger ones give the same.
  have hsmall := fails_constants (F := (· ≠ .boundReached)) hm hc hmodest (fun _ => by simp)
    (fun m' _ kind reference e he hreached =>
      completes_newMethodHandle env c kind reference m' (hreached ▸ he))
    (fun invoke hknown buffer m' _ _ e he hreached =>
      hmodest.completes invoke hknown c buffer m' (hreached ▸ he))
    (Nat.lt_succ_self m.heap.config.capacity) index
  have hobject : ∀ bound resolve, m.heap.config.capacity < bound →
      constantObjectWithin env bound c index resolve m =
        constantObjectWithin env (m.heap.config.capacity + 1) c index resolve m :=
    fun bound resolve hbound => approx_constantObjectWithin hbound c index resolve m
      (fun hreached => hsmall.1 resolve _ hreached rfl)
  have hdynamic : ∀ bound, m.heap.config.capacity < bound →
      resolveDynamicConstantWith env (constantObjectWithin env bound) c index m =
        resolveDynamicConstantWith env
          (constantObjectWithin env (m.heap.config.capacity + 1)) c index m :=
    fun bound hbound => approx_resolveDynamicConstantWith
      (fun c k resolve => approx_constantObjectWithin hbound c k resolve) c index m
      (fun hreached => hsmall.2 _ hreached rfl)
  have hobject' : ∀ resolve, constantObject env c index resolve m =
      constantObjectWithin env (m.heap.config.capacity + 1) c index resolve m :=
    fun resolve => hobject (m.heap.config.capacity + 2) resolve (by omega)
  have hdynamic' : resolveDynamicConstant env c index m = resolveDynamicConstantWith env
      (constantObjectWithin env (m.heap.config.capacity + 1)) c index m :=
    hdynamic (m.heap.config.capacity + 2) (by omega)
  refine ⟨fun resolve => ?_, ?_⟩
  · rw [hobject' resolve]
    exact ⟨hobject bound resolve hbound, fun hreached => hsmall.1 resolve _ hreached rfl⟩
  · rw [hdynamic']
    exact ⟨hdynamic bound hbound, fun hreached => hsmall.2 _ hreached rfl⟩

end Modest

/-- Where class objects and interned strings are left alone, resolving constants gives a
    value or throws, if bootstrap methods do. -/
theorem constants_return (hm : m.Reachable SharedKept) (hc : m.classes.get? c.id = some c)
    (hmodest : env.Modest kept)
    (hshared : ∀ (m : Machine) {α : Type} (op : Operation α), kept m op → SharedKept m op)
    (hinvoke : ∀ invoke, env.invoker = some invoke → ∀ buffer m', Changes kept m m' →
      m'.object? buffer ≠ none → Returns (invoke c buffer) m') (index : UInt16) :
    (∀ resolve, Returns (constantObject env c index resolve) m) ∧
      Returns (resolveDynamicConstant env c index) m := by
  have hhandle : ∀ m', m.Underway kept c 0 m' → ∀ kind reference,
      Returns (newMethodHandle env c kind reference) m' := by
    intro m' hm' kind reference
    have hsteady := (hm.mono (fun _ _ _ hop => hop.1)).steady
    have htexts := (hm.mono (fun _ _ _ hop => hop.2)).textsInPlace
    have hchanges₁ : Changes ClassObjectsKept m m' :=
      hm'.changes.mono (fun m _ op hop => (hshared m op hop).1)
    have hchanges₂ : Changes InternedKept m m' :=
      hm'.changes.mono (fun m _ op hop => (hshared m op hop).2)
    exact returns_newMethodHandle (hchanges₁.steady hsteady)
      (hchanges₂.textsInPlace hsteady.sound.heap htexts) hm'.recorded hm'.member kind reference
  obtain ⟨hobject, hdynamic⟩ := fails_constants (F := fun e => ∃ t, e = .thrown t) hm hc hmodest
    (fun t => ⟨t, rfl⟩)
    (fun m' hm' kind reference => returns_iff.mp (hhandle m' hm' kind reference))
    (fun invoke hknown buffer m' hchanges hlive =>
      returns_iff.mp (hinvoke invoke hknown buffer m' hchanges hlive))
    (show m.heap.config.capacity < m.heap.config.capacity + 2 by omega) index
  exact ⟨fun resolve => returns_iff.mpr (hobject resolve), returns_iff.mpr hdynamic⟩

end Linkage
