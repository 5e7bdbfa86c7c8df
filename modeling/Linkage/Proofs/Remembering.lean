import Linkage.Proofs.Answers
import Linkage.Proofs.Interning
import Linkage.Proofs.LoadedNames

/-! # Remembering constants

    A constant is remembered once it has been computed, at the end of a computation that
    may resolve other constants and call bootstrap methods.

    * `Machine.Justifies`: what is remembered for a constant is what it stands for.
    * `Machine.Evolves`: what happens to the remembered constants while bootstrap methods
      answer for some slots. Steps compose, because a slot is empty before there is an
      answer for it and filled afterwards.
    * `lookup_memoize`: a slot holds what resolving its constant has come to.
    * `Traced.Orderly`: an action is such a step, with the answers that it lists. So are
      constants of each kind, with bootstrap methods inside each other up to any bound
      (`Traced.orderly_constantObjectWithin`). -/

namespace Linkage

open Link

variable {α β : Type} {rule : Discipline} {env : Environment} {m m' m'' : Machine} {c : Class}
  {index : UInt16} {entry : PoolEntry} {slot : ConstantSlot} {value : Handle}
  {answers answers' : List ConstantSlot}

/-! ## Remembered constants -/

/-- A change leaves what is remembered or adds one constant to it. -/
theorem Change.memos_cases (h : Change rule m m') :
    m'.memos = m.memos ∨
      ∃ slot value, m.memos.lookup slot = none ∧ m'.memos = (slot, value) :: m.memos := by
  cases h with
  | remember slot value new => exact Or.inr ⟨slot, value, new, rfl⟩
  | allocate object _ => exact Or.inl (memos_of_preserves (fun _ => preserves_allocate object) m)
  | intern text => exact Or.inl (memos_of_preserves (fun _ => preserves_intern text) m)
  | collectGarbage => exact Or.inl rfl
  | identify member => exact Or.inl rfl
  | recordCall call => exact Or.inl rfl
  | loading names => exact Or.inl rfl
  | define _ _ => exact Or.inl rfl
  | refuse object _ => exact Or.inl rfl
  | _ => exact Or.inl (memos_of_preserves (fun _ => preserves_changeHeap _) m)

/-- What is remembered stays. -/
theorem Changes.lookup_memos (h : Changes rule m m') (hslot : m.memos.lookup slot = some value) :
    m'.memos.lookup slot = some value := by
  refine h.keeps (P := fun m => m.memos.lookup slot = some value) ?_ hslot
  intro m₁ m₂ hchange hm
  rcases hchange.memos_cases with he | ⟨slot', value', hnew, he⟩
  · rw [he]
    exact hm
  · have hother : slot ≠ slot' := by
      rintro rfl
      rw [hm] at hnew
      cases hnew
    rw [he, List.lookup_cons, beq_eq_false_iff_ne.mpr hother]
    exact hm

theorem Changes.lookup_memos_of_none (h : Changes rule m m') (hslot : m'.memos.lookup slot = none) :
    m.memos.lookup slot = none := by
  cases hold : m.memos.lookup slot with
  | none => rfl
  | some value =>
    rw [h.lookup_memos hold] at hslot
    cases hslot

/-- The value is what a constant stands for: the string that is interned with its text, or
    the class object of the class that is found under its name. -/
def Machine.Justifies (m : Machine) (value : Handle) : PoolEntry → Prop
  | .stringRef text => m.strings.find? text = some value
  | .classRef name =>
      ¬ isArrayName name → ∃ k, m.classes.find? name = some k ∧ k.classObject = value
  | _ => True

theorem Machine.Justifies.changes (h : m.Justifies value entry) (hchanges : Changes rule m m') :
    m'.Justifies value entry := by
  cases entry with
  | stringRef text => exact hchanges.find?_strings h
  | classRef name =>
    intro hname
    obtain ⟨k, hk, hobject⟩ := h hname
    exact ⟨k, hchanges.find?_classes hk, hobject⟩
  | _ => exact trivial

/-- Each remembered value is what its constant stands for. -/
def Machine.MemosJustified (m : Machine) : Prop :=
  ∀ slot value, m.memos.lookup slot = some value → ∃ c entry, m.classes.get? slot.owner = some c ∧
    c.pool.get? slot.index = some entry ∧ m.Justifies value entry

/-- More classes and strings do not matter. -/
theorem Machine.MemosJustified.changes (h : m.MemosJustified) (hchanges : Changes rule m m')
    (hmemos : m'.memos = m.memos) : m'.MemosJustified := by
  intro slot value hslot
  rw [hmemos] at hslot
  obtain ⟨c, entry, hc, hentry, hjustifies⟩ := h slot value hslot
  exact ⟨c, entry, hchanges.get?_classes hc, hentry, hjustifies.changes hchanges⟩

/-! ## Steps -/

/-- The machine has got to another one, while bootstrap methods have answered for the slots
    of the list. -/
structure Machine.Evolves (rule : Discipline) (m m' : Machine) (answers : List ConstantSlot) :
    Prop where
  changes : Changes rule m m'
  justified : m'.MemosJustified
  nodup : answers.Nodup
  /-- Slots were empty before there was an answer for them … -/
  fresh : ∀ slot ∈ answers, m.memos.lookup slot = none
  /-- … and are not afterwards. -/
  filled : ∀ slot ∈ answers, m'.memos.lookup slot ≠ none

namespace Machine.Evolves

theorem refl (h : m.MemosJustified) : m.Evolves rule m [] :=
  ⟨Changes.refl m, h, List.nodup_nil, by simp, by simp⟩

theorem trans (h : m.Evolves rule m' answers) (h' : m'.Evolves rule m'' answers') :
    m.Evolves rule m'' (answers ++ answers') where
  changes := h.changes.trans h'.changes
  justified := h'.justified
  nodup := by
    refine List.nodup_append.mpr ⟨h.nodup, h'.nodup, ?_⟩
    -- A slot of the first list is filled before the second part starts.
    rintro slot hslot _ hslot' rfl
    exact h.filled slot hslot (h'.fresh slot hslot')
  fresh := by
    intro slot hslot
    rcases List.mem_append.mp hslot with hslot | hslot
    · exact h.fresh slot hslot
    · exact h.changes.lookup_memos_of_none (h'.fresh slot hslot)
  filled := by
    intro slot hslot
    rcases List.mem_append.mp hslot with hslot | hslot
    · exact fun hnone => h.filled slot hslot (h'.changes.lookup_memos_of_none hnone)
    · exact h'.filled slot hslot

/-- Nothing is remembered in between. -/
theorem of_memos (hchanges : Changes rule m m') (hmemos : m'.memos = m.memos)
    (h : m.MemosJustified) : m.Evolves rule m' [] :=
  ⟨hchanges, h.changes hchanges hmemos, List.nodup_nil, by simp, by simp⟩

/-- A constant is remembered, for which there may have been an answer. -/
theorem remember (h : m.Evolves rule m' answers) (hc : m.classes.get? c.id = some c)
    (hentry : c.pool.get? index = some entry) (hempty : m'.memos.lookup ⟨c.id, index⟩ = none)
    (hjustifies : m'.Justifies value entry) {answer : List ConstantSlot}
    (hanswer : answer = [] ∨ answer = [⟨c.id, index⟩]) :
    m.Evolves rule (Link.remember ⟨c.id, index⟩ value m').2 (answers ++ answer) := by
  have hchange : Changes rule m' (Link.remember ⟨c.id, index⟩ value m').2 :=
    Changes.single (.remember _ value hempty)
  have hself : (Link.remember ⟨c.id, index⟩ value m').2.memos.lookup ⟨c.id, index⟩ =
      some value := by
    simp [Link.remember]
  refine h.trans ⟨hchange, ?_, ?_, ?_, ?_⟩
  · intro slot value' hslot
    by_cases hsame : slot = ⟨c.id, index⟩
    · subst hsame
      rw [hself, Option.some.injEq] at hslot
      subst hslot
      exact ⟨c, entry, hchange.get?_classes (h.changes.get?_classes hc), hentry,
        hjustifies.changes hchange⟩
    · -- Any other slot held its value before.
      have hold : m'.memos.lookup slot = some value' := by
        rw [← hslot]
        show _ = List.lookup slot ((⟨c.id, index⟩, value) :: m'.memos)
        rw [List.lookup_cons, beq_eq_false_iff_ne.mpr hsame]
      obtain ⟨d, entry', hd, hentry', hjustifies'⟩ := h.justified slot value' hold
      exact ⟨d, entry', hchange.get?_classes hd, hentry', hjustifies'.changes hchange⟩
  · rcases hanswer with rfl | rfl <;> simp
  · rcases hanswer with rfl | rfl
    · simp
    · simpa using hempty
  · rcases hanswer with rfl | rfl
    · simp
    · intro slot hslot
      rw [List.mem_singleton.mp hslot, hself]
      simp

end Machine.Evolves

/-! ## Remembering -/

theorem memoize_of_lookup {compute : Link Handle} (h : m.memos.lookup slot = some value) :
    memoize slot compute m = (.ok value, m) := by
  unfold memoize
  rw [bind_of_ok (memo?_run slot m), h]
  rfl

/-- Where the computation leaves the slot empty, its value is remembered. -/
theorem memoize_run {compute : Link Handle} (hempty : m.memos.lookup slot = none)
    (hkept : (compute m).2.memos.lookup slot = none) :
    memoize slot compute m =
      match compute m with
      | (.ok value, m') => (.ok value, (remember slot value m').2)
      | (.error e, m') => (.error e, m') := by
  unfold memoize
  rw [bind_of_ok (memo?_run slot m), hempty]
  dsimp only
  rcases bind_cases compute _ m with ⟨e, m₁, hrun, hbind⟩ | ⟨value, m₁, hrun, hbind⟩
  · rw [hbind, hrun]
  · rw [hrun] at hkept
    rw [hbind, hrun, bind_of_ok (memo?_run slot m₁), hkept]
    rfl

/-- A slot holds what resolving its constant has come to. -/
theorem lookup_memoize {compute : Link Handle} (hkept : m.memos.lookup slot = none →
      (compute m).2.memos.lookup slot = none) :
    (memoize slot compute m).2.memos.lookup slot = (memoize slot compute m).1.toOption := by
  cases hmemo : m.memos.lookup slot with
  | some value =>
    rw [memoize_of_lookup hmemo]
    exact hmemo
  | none =>
    rw [memoize_run hmemo (hkept hmemo)]
    cases hrun : compute m with
    | mk result m₁ =>
      cases result with
      -- A failed computation remembers nothing.
      | error e =>
        have hkept := hkept hmemo
        rw [hrun] at hkept
        exact hkept
      | ok value => simp [remember, Except.toOption]

theorem evolves_memoize {compute : Link Handle} (hc : m.classes.get? c.id = some c)
    (hentry : c.pool.get? index = some entry) (hempty : m.memos.lookup ⟨c.id, index⟩ = none)
    (hkept : (compute m).2.memos.lookup ⟨c.id, index⟩ = none)
    (hstep : m.Evolves rule (compute m).2 answers)
    (hvalue : ∀ value m', compute m = (.ok value, m') → m'.Justifies value entry)
    {answer : List ConstantSlot} (hanswer : answer = [] ∨
      answer = [⟨c.id, index⟩] ∧ ∃ value m', compute m = (.ok value, m')) :
    m.Evolves rule (memoize ⟨c.id, index⟩ compute m).2 (answers ++ answer) := by
  rw [memoize_run hempty hkept]
  -- A failed computation has had no answer, and nothing is remembered then.
  cases hrun : compute m with
  | mk result m₁ =>
    rw [hrun] at hstep hkept
    cases result with
    | ok value =>
      refine hstep.remember hc hentry hkept (hvalue value m₁ hrun) ?_
      exact hanswer.imp_right And.left
    | error e =>
      have hnone : answer = [] := by
        rcases hanswer with hnone | ⟨_, value, m', hok⟩
        · exact hnone
        · rw [hrun] at hok
          cases hok
      rw [hnone, List.append_nil]
      exact hstep

/-! ## Traced actions -/

/-- What the action does to a machine is a step, with the answers that it lists. -/
def Traced.Orderly (rule : Discipline) (x : Traced α) (m : Machine) : Prop :=
  m.Evolves rule (x.action m).2 (x.answers m)

namespace Traced

theorem orderly_silent {x : Link α} (hx : Changing rule x) (hmemos : ∀ Q, Preserves Q x)
    (hm : m.MemosJustified) : Orderly rule (silent x) m :=
  .of_memos (hx m) (memos_of_preserves hmemos m) hm

theorem orderly_still {x : Link α} (hx : (x m).2 = m) (hm : m.MemosJustified) :
    Orderly rule (silent x) m := by
  show m.Evolves rule (x m).2 []
  rw [hx]
  exact .refl hm

theorem orderly_bind {x : Traced α} {f : α → Traced β} (hx : Orderly rule x m)
    (hf : ∀ a m', x.action m = (.ok a, m') → m.Evolves rule m' (x.answers m) →
      Orderly rule (f a) m') : Orderly rule (x >>= f) m := by
  unfold Orderly at *
  rw [action_bind]
  rcases bind_cases x.action (fun a => (f a).action) m with
    ⟨e, m', hrun, hbind⟩ | ⟨a, m', hrun, hbind⟩
  · rw [hbind, answers_bind_of_error hrun]
    rw [hrun] at hx
    exact hx
  · rw [hbind, answers_bind_of_ok hrun]
    rw [hrun] at hx
    exact hx.trans (hf a m' hrun hx)

/-- Silent actions one after the other. -/
theorem orderly_silent_bind {x : Link α} {f : α → Link β} (hx : Orderly rule (silent x) m)
    (hf : ∀ a m', x m = (.ok a, m') → m.Evolves rule m' [] → Orderly rule (silent (f a)) m') :
    Orderly rule (silent (x >>= f)) m := by
  have hstep : m.Evolves rule (x m).2 [] := hx
  show m.Evolves rule ((x >>= f) m).2 []
  rcases bind_cases x f m with ⟨e, m', hrun, hbind⟩ | ⟨a, m', hrun, hbind⟩
  · rw [hrun] at hstep
    rw [hbind]
    exact hstep
  · rw [hrun] at hstep
    rw [hbind]
    exact hstep.trans (hf a m' hrun hstep)

end Traced

/-! ## Constants by kind -/

/-- What resolves a constant, if its kind is resolved on first use. -/
def PoolEntry.resolver? (env : Environment) (c : Class) (index : UInt16) :
    PoolEntry → Option (Link Handle)
  | .classRef _ => some (resolveClassConstant env c index)
  | .stringRef _ => some (resolveStringConstant c index)
  | .methodType _ => some (resolveMethodTypeConstant env c index)
  | .methodHandle _ _ => some (resolveMethodHandleConstant env c index)
  | .dynamic _ _ _ => some (resolveDynamicConstant env c index)
  | _ => none

/-- What a constant is computed by, with a bound on calls of bootstrap methods inside each
    other. -/
def PoolEntry.computation? (env : Environment) (bound : Nat) (c : Class) (index : UInt16) :
    PoolEntry → Option (Link Handle)
  | .classRef name => some (do pure (← loadClass env name).classObject)
  | .stringRef value => some (intern value)
  | .methodType descriptor => some (newMethodType env descriptor)
  | .methodHandle kind reference => some (newMethodHandle env c kind reference)
  | .dynamic number _ _ =>
      some (callBootstrap env (constantObjectWithin env bound) c index number)
  | _ => none

/-- Resolving a constant remembers what it is computed to. -/
theorem resolver_run (hentry : c.pool.get? index = some entry) {resolver : Link Handle}
    (hresolver : entry.resolver? env c index = some resolver) (m : Machine) :
    ∃ compute, entry.computation? env (m.heap.config.capacity + 2) c index = some compute ∧
      resolver m = memoize ⟨c.id, index⟩ compute m := by
  -- The entry is looked up once more by the resolver.
  have hconstant : constantAt c index m = (.ok entry, m) := by
    unfold constantAt
    rw [hentry]
    rfl
  cases entry with
  | classRef name =>
    cases hresolver
    exact ⟨_, rfl, bind_of_ok hconstant _⟩
  | stringRef text =>
    cases hresolver
    exact ⟨_, rfl, bind_of_ok hconstant _⟩
  | methodType descriptor =>
    cases hresolver
    exact ⟨_, rfl, bind_of_ok hconstant _⟩
  | methodHandle kind reference =>
    cases hresolver
    exact ⟨_, rfl, bind_of_ok hconstant _⟩
  | dynamic number name descriptor =>
    cases hresolver
    refine ⟨_, rfl, ?_⟩
    unfold resolveDynamicConstant callBound
    rw [bind_of_ok (view_run _ m)]
    exact bind_of_ok hconstant _
  | _ => cases hresolver

section Computation

variable {bound : Nat} {compute : Link Handle}
  (hcompute : entry.computation? env bound c index = some compute)

include hcompute

/-- Computing a constant leaves its slot empty. -/
theorem lookup_computation (hquiet : env.Quiet) (hentry : c.pool.get? index = some entry)
    (hempty : m.memos.lookup ⟨c.id, index⟩ = none) :
    (compute m).2.memos.lookup ⟨c.id, index⟩ = none := by
  have hpreserved : Preserves (fun memos => memos.lookup ⟨c.id, index⟩ = none) compute →
      (compute m).2.memos.lookup ⟨c.id, index⟩ = none := fun h => h m hempty
  cases entry with
  | classRef name =>
    cases hcompute
    exact hpreserved (preserves_bind (preserves_loadClass env name) (fun k => preserves_pure _))
  | stringRef text =>
    cases hcompute
    exact hpreserved (preserves_intern text)
  | methodType descriptor =>
    cases hcompute
    exact hpreserved (preserves_newMethodType env descriptor)
  | methodHandle kind reference =>
    cases hcompute
    refine hpreserved (preserves_newMethodHandle env ?_ kind reference)
    -- A method handle fills the slots of classes, and this slot is none of a class.
    intro index' name hclass memos value _ hmemos
    refine lookup_cons_eq_none_iff.mpr ⟨?_, hmemos⟩
    intro he
    cases he
    rw [hentry] at hclass
    cases hclass
  | dynamic number name descriptor =>
    cases hcompute
    exact lookup_callBootstrap hquiet hentry bound hempty
  | _ => cases hcompute

/-- What a constant is computed to is what it stands for. -/
theorem justifies_computation (hm : m.classes.Started) (h : compute m = (.ok value, m')) :
    m'.Justifies value entry := by
  cases entry with
  | classRef name =>
    cases hcompute
    intro hname
    obtain ⟨k, m₁, hload, hlast⟩ := bind_eq_ok_iff.mp h
    cases hlast
    -- The table is still sound after the load, so the class is found by its name.
    have hchanges : Changes (fun _ {_} _ => True) m m' :=
      (changing_of_goes (loads_loadClass env name)).of_run hload
    have hstarted := hchanges.keeps (P := fun m => m.classes.Started) Change.started hm
    refine ⟨k, find?_of_loadClassWithin hstarted.toLinked (fun harray => ?_) hload, rfl⟩
    exact absurd harray hname
  | stringRef text =>
    cases hcompute
    exact find?_of_intern h
  | _ => exact trivial

end Computation

/-! ## Constants without bootstrap methods -/

/-- The class table is sound, and what is remembered is justified. -/
structure Machine.Coherent (m : Machine) : Prop where
  started : m.classes.Started
  justified : m.MemosJustified

/-- The class is one of the table besides. -/
structure Machine.Ready (m : Machine) (c : Class) : Prop extends m.Coherent where
  member : m.classes.get? c.id = some c

theorem Machine.Evolves.coherent (h : m.Evolves rule m' answers) (hm : m.Coherent) :
    m'.Coherent where
  started := h.changes.keeps (P := fun m => m.classes.Started) Change.started hm.started
  justified := h.justified

theorem Machine.Evolves.ready (h : m.Evolves rule m' answers) (hm : m.Ready c) : m'.Ready c where
  toCoherent := h.coherent hm.toCoherent
  member := h.changes.get?_classes hm.member

/-- Without an invoker there is nothing but changes. -/
theorem changing_of_links {x : Link α} (h : Links env.mute x) : Changing rule x :=
  h.changing (Linking.changing (fun _ hinvoke => by cases hinvoke))

namespace Traced

/-- Actions that remember nothing. -/
theorem orderly_links (env : Environment) {x : Link α} (hm : m.Coherent) (hlinks : Links env.mute x)
    (hmemos : ∀ Q, Preserves Q x) : Orderly rule (silent x) m :=
  orderly_silent (changing_of_links hlinks) hmemos hm.justified

theorem orderly_ofHeap (hm : m.Coherent) (ask : Heap Object → Except Heap.Fault α) :
    Orderly rule (silent (fun m => ofHeap (ask m.heap) m)) m := by
  refine orderly_still ?_ hm.justified
  cases ask m.heap <;> rfl

theorem orderly_orFail (hm : m.Coherent) (o : Option α) (e : LinkError) :
    Orderly rule (silent (orFail o e)) m := by
  refine orderly_still ?_ hm.justified
  cases o <;> rfl

theorem orderly_loadClass (hm : m.Coherent) (name : String) :
    Orderly rule (silent (do pure (← loadClass env.mute name).classObject)) m :=
  orderly_links env hm (.sequence (links_loadClass name) (fun _ => .value _))
    (fun _ => preserves_bind (preserves_loadClass _ name) (fun _ => preserves_pure _))

/-- What a constant is computed to is remembered. -/
theorem orderly_computation (env : Environment) (bound : Nat) {compute : Link Handle}
    (hm : m.Ready c) (hentry : c.pool.get? index = some entry)
    (hcompute : entry.computation? env.mute bound c index = some compute)
    (hstep : Orderly rule (silent compute) m) :
    Orderly rule (silent (Link.memoize ⟨c.id, index⟩ compute)) m := by
  cases hmemo : m.memos.lookup ⟨c.id, index⟩ with
  | some value => exact orderly_still (by rw [memoize_of_lookup hmemo]) hm.justified
  | none =>
    have hquiet : env.mute.Quiet := fun _ hinvoke => by cases hinvoke
    exact evolves_memoize hm.member hentry hmemo (lookup_computation hcompute hquiet hentry hmemo)
      hstep (fun value m' hrun => justifies_computation hcompute hm.started hrun) (Or.inl rfl)

/-- Going on with the constant of a slot. -/
theorem orderly_constantAt_bind {f : PoolEntry → Link β} (hm : m.Ready c)
    (hf : ∀ entry, c.pool.get? index = some entry → Orderly rule (silent (f entry)) m) :
    Orderly rule (silent (constantAt c index >>= f)) m := by
  unfold constantAt
  cases hentry : c.pool.get? index with
  | none => exact orderly_still rfl hm.justified
  | some entry => exact hf entry hentry

theorem orderly_resolveClassConstant (hm : m.Ready c) (index : UInt16) :
    Orderly rule (silent (resolveClassConstant env.mute c index)) m := by
  refine orderly_constantAt_bind hm (fun entry hentry => ?_)
  cases entry with
  | classRef name =>
    exact orderly_computation env 0 hm hentry rfl (orderly_loadClass hm.toCoherent name)
  | _ => exact orderly_still rfl hm.justified

theorem orderly_resolveStringConstant (env : Environment) (hm : m.Ready c) (index : UInt16) :
    Orderly rule (silent (resolveStringConstant c index)) m := by
  refine orderly_constantAt_bind hm (fun entry hentry => ?_)
  cases entry with
  | stringRef text =>
    refine orderly_computation env 0 hm hentry rfl ?_
    exact orderly_silent (changing_intern text) (fun Q => preserves_intern text) hm.justified
  | _ => exact orderly_still rfl hm.justified

theorem orderly_resolveMethodTypeConstant (hm : m.Ready c) (index : UInt16) :
    Orderly rule (silent (resolveMethodTypeConstant env.mute c index)) m := by
  refine orderly_constantAt_bind hm (fun entry hentry => ?_)
  cases entry with
  | methodType descriptor =>
    refine orderly_computation env 0 hm hentry rfl ?_
    exact orderly_links env hm.toCoherent (links_newMethodType descriptor)
      (fun Q => preserves_newMethodType _ descriptor)
  | _ => exact orderly_still rfl hm.justified

theorem orderly_newMethodHandle (hm : m.Ready c) (kind : ReferenceKind) (reference : UInt16) :
    Orderly rule (silent (newMethodHandle env.mute c kind reference)) m := by
  refine orderly_silent_bind (orderly_links env hm.toCoherent
    (links_memberReferenceAt _ c reference) (fun Q => preserves_memberReferenceAt c reference))
    (fun described m₁ _ h₁ => ?_)
  have hm₁ := h₁.ready hm
  refine orderly_silent_bind (orderly_resolveClassConstant hm₁ _) (fun clazz m₂ _ h₂ => ?_)
  -- Only the class is remembered: the rest makes objects and resolves a member.
  refine orderly_links env (h₂.ready hm₁).toCoherent ?_ (fun Q => ?_)
  · refine .sequence (.intern _) (fun name => .sequence (.intern _) (fun type => ?_))
    refine .sequence (.allocate _ ⟨rfl, rfl⟩) (fun mn => ?_)
    refine .sequence (links_resolveMemberName mn _ _) (fun resolved => ?_)
    cases resolved with
    | some member => exact .allocate _ trivial
    | none => exact madeOf_fail _
  · refine preserves_bind (preserves_intern _) (fun name => ?_)
    refine preserves_bind (preserves_intern _) (fun type => ?_)
    refine preserves_bind (preserves_allocate _) (fun mn => ?_)
    refine preserves_bind (preserves_resolveMemberName mn _ _) (fun resolved => ?_)
    cases resolved with
    | some member => exact preserves_allocate _
    | none => exact preserves_fail _

theorem orderly_resolveMethodHandleConstant (hm : m.Ready c) (index : UInt16) :
    Orderly rule (silent (resolveMethodHandleConstant env.mute c index)) m := by
  refine orderly_constantAt_bind hm (fun entry hentry => ?_)
  cases entry with
  | methodHandle kind reference =>
    exact orderly_computation env 0 hm hentry rfl (orderly_newMethodHandle hm kind reference)
  | _ => exact orderly_still rfl hm.justified

/-- The object of a constant that is not dynamic, or is not resolved. -/
theorem orderly_constantObject_silent {unused : Class → UInt16 → Bool → Link (Option Handle)}
    {resolve : Bool} (hm : m.Ready c)
    (hkind : ∀ number name descriptor, c.pool.get? index = some (.dynamic number name descriptor) →
      index = 0 ∨ resolve = false) :
    Orderly rule (silent (Linkage.constantObjectWith env.mute unused c index resolve)) m := by
  unfold Linkage.constantObjectWith
  split
  · exact orderly_still rfl hm.justified
  rename_i hindex
  cases hentry : c.pool.get? index with
  | none => exact orderly_still rfl hm.justified
  | some entry =>
    refine orderly_silent_bind (orderly_still rfl hm.justified) (fun found m₁ hmemo _ => ?_)
    obtain rfl : m₁ = m := congrArg Prod.snd hmemo.symm
    have hresolve : ∀ resolver : Link Handle, Orderly rule (silent resolver) m₁ →
        Orderly rule (silent (if resolve then some <$> resolver else pure none)) m₁ := by
      intro resolver hresolver
      cases resolve with
      | false => exact orderly_still rfl hm.justified
      | true =>
        exact orderly_silent_bind hresolver (fun value m' _ h' => orderly_still rfl h'.justified)
    have hbox : ∀ object : Object, object.Plain →
        Orderly rule (silent (some <$> allocate object)) m₁ := by
      intro object hplain
      exact orderly_links env hm.toCoherent (.sequence (.allocate _ hplain) (fun _ => .value _))
        (fun Q => preserves_map _ (preserves_allocate _))
    cases found with
    | some value => exact orderly_still rfl hm.justified
    | none =>
      -- Lazy constants are resolved, numbers get an object, and the others have none.
      cases entry with
      | dynamic number name descriptor =>
        rcases hkind number name descriptor hentry with hzero | rfl
        · exact absurd (by simp [hzero]) hindex
        · exact orderly_still rfl hm.justified
      | classRef name => exact hresolve _ (orderly_resolveClassConstant hm index)
      | stringRef text => exact hresolve _ (orderly_resolveStringConstant env hm index)
      | methodType descriptor => exact hresolve _ (orderly_resolveMethodTypeConstant hm index)
      | methodHandle kind reference =>
        exact hresolve _ (orderly_resolveMethodHandleConstant hm index)
      | integer value => exact hbox _ trivial
      | float bits => exact hbox _ trivial
      | long words => exact hbox _ trivial
      | double words => exact hbox _ trivial
      | _ => exact orderly_still rfl hm.justified

/-! ## Dynamic constants -/

theorem orderly_forEach {f : α → Traced β} (hf : ∀ a m, m.Ready c → Orderly rule (f a) m)
    (as : List α) (hm : m.Ready c) : Orderly rule (forEach f as) m := by
  induction as generalizing m with
  | nil => exact orderly_still rfl hm.justified
  | cons a as ih =>
    refine orderly_bind (hf a m hm) (fun b m₁ _ h₁ => ?_)
    refine orderly_bind (ih (h₁.ready hm)) (fun bs m₂ _ h₂ => ?_)
    exact orderly_still rfl h₂.justified

section Open

variable {constant : Class → UInt16 → Bool → Traced (Option Handle)}
  (hconstant : ∀ index resolve m, m.Ready c → Orderly rule (constant c index resolve) m)

include hconstant

theorem orderly_argumentValue (hm : m.Ready c) (r : ArgumentCopy) (d : DynamicConstant)
    (number : Int) : Orderly rule (argumentValue env constant r c d number) m := by
  unfold argumentValue
  -- The method is a constant; name, type and count are made without remembering anything.
  split
  · exact hconstant _ _ m hm
  split
  · exact orderly_links env hm.toCoherent (.sequence (.intern _) (fun _ => .value _))
      (fun Q => preserves_map _ (preserves_intern _))
  split
  · exact orderly_links env hm.toCoherent (.sequence (links_dynamicType _ d) (fun _ => .value _))
      (fun Q => preserves_map _ (preserves_dynamicType _ d))
  split
  · exact orderly_links env hm.toCoherent (.sequence (.allocate _ trivial) (fun _ => .value _))
      (fun Q => preserves_map _ (preserves_allocate _))
  · refine orderly_bind (orderly_orFail hm.toCoherent _ _) (fun argument m₁ _ h₁ => ?_)
    refine orderly_bind (hconstant _ _ m₁ (h₁.ready hm)) (fun value m₂ _ h₂ => ?_)
    cases value <;> exact orderly_still rfl h₂.justified

theorem orderly_copyArgument (hm : m.Ready c) (r : ArgumentCopy) (d : DynamicConstant)
    (distance : Nat) : Orderly rule (copyArgument env constant r c d distance) m := by
  refine orderly_bind (orderly_argumentValue hconstant hm r d _) (fun value m₁ _ h₁ => ?_)
  rw [resolve_updateAt]
  exact orderly_links env (h₁.ready hm).toCoherent (madeOf_setElement _ _ _)
    (fun Q => preserves_update _ _)

theorem orderly_copyArgumentsWith (hm : m.Ready c) (r : ArgumentCopy) :
    Orderly rule (copyArgumentsWith env constant c r) m := by
  -- The array is looked at before anything is resolved.
  refine orderly_bind (orderly_ofHeap hm.toCoherent (Heap.resolve · r.buffer))
    (fun place m₁ _ h₁ => ?_)
  have hm₁ := h₁.ready hm
  refine orderly_bind (orderly_ofHeap hm₁.toCoherent (Heap.readAt · place))
    (fun object m₂ _ h₂ => ?_)
  have hm₂ := h₂.ready hm₁
  refine orderly_bind (orderly_orFail hm₂.toCoherent _ _) (fun buffer m₃ _ h₃ => ?_)
  have hm₃ := h₃.ready hm₂
  split
  · exact orderly_still rfl hm₃.justified
  have hdynamic : ∀ Q, Preserves Q (r.dynamicConstant c) := by
    intro Q
    unfold ArgumentCopy.dynamicConstant
    grind
  refine orderly_bind
    (orderly_links env hm₃.toCoherent (links_dynamicConstant env.mute r c) hdynamic)
    (fun d m₄ _ h₄ => ?_)
  refine orderly_bind (orderly_forEach (fun distance m hm => ?_) _ (h₄.ready hm₃))
    (fun _ m₅ _ h₅ => orderly_still rfl h₅.justified)
  exact orderly_copyArgument hconstant hm r d distance

end Open

/-- The action ends in the answer for a slot, or fails before. -/
def Concludes (rule : Discipline) (slot : ConstantSlot) (x : Traced Handle) (m : Machine) : Prop :=
  ∃ before last, x.answers m = before ++ last ∧ m.Evolves rule (x.action m).2 before ∧
    (last = [] ∨ last = [slot] ∧ ∃ value m', x.action m = (.ok value, m'))

theorem concludes_answering {call : Link Handle} (h : Orderly rule (silent call) m) :
    Concludes rule slot (answering slot call) m := by
  cases hcall : call m with
  | mk result m' =>
    cases result with
    | ok value =>
      exact ⟨[], [slot], by simp [answering, hcall], h, Or.inr ⟨rfl, value, m', hcall⟩⟩
    | error e => exact ⟨[], [], by simp [answering, hcall], h, Or.inl rfl⟩

theorem concludes_bind {x : Traced α} {f : α → Traced Handle} (hx : Orderly rule x m)
    (hf : ∀ a m', x.action m = (.ok a, m') → m.Evolves rule m' (x.answers m) →
      Concludes rule slot (f a) m') : Concludes rule slot (x >>= f) m := by
  unfold Orderly at hx
  unfold Concludes
  rw [action_bind]
  rcases bind_cases x.action (fun a => (f a).action) m with
    ⟨e, m', hrun, hbind⟩ | ⟨a, m', hrun, hbind⟩
  · rw [hrun] at hx
    rw [hbind, answers_bind_of_error hrun]
    exact ⟨x.answers m, [], (List.append_nil _).symm, hx, Or.inl rfl⟩
  · rw [hrun] at hx
    obtain ⟨before, last, hanswers, hbefore, hlast⟩ := hf a m' hrun hx
    rw [hbind, answers_bind_of_ok hrun, hanswers]
    exact ⟨x.answers m ++ before, last, (List.append_assoc _ _ _).symm, hx.trans hbefore, hlast⟩

/-- An answer is remembered. -/
theorem orderly_memoize {compute : Traced Handle} (hm : m.Ready c)
    (hentry : c.pool.get? index = some entry)
    (hkept : m.memos.lookup ⟨c.id, index⟩ = none →
      (compute.action m).2.memos.lookup ⟨c.id, index⟩ = none)
    (hvalue : ∀ value m', compute.action m = (.ok value, m') → m'.Justifies value entry)
    (hcompute : Concludes rule ⟨c.id, index⟩ compute m) :
    Orderly rule (memoize ⟨c.id, index⟩ compute) m := by
  unfold Orderly
  rw [action_memoize]
  cases hmemo : m.memos.lookup ⟨c.id, index⟩ with
  | some value =>
    rw [answers_memoize_of_lookup hmemo, memoize_of_lookup hmemo]
    exact .refl hm.justified
  | none =>
    obtain ⟨before, last, hanswers, hbefore, hlast⟩ := hcompute
    rw [answers_memoize hmemo, hanswers]
    exact evolves_memoize hm.member hentry hmemo (hkept hmemo) hbefore hvalue hlast

section Invoker

variable
  (hinvoke : ∀ invoke, env.invoker = some invoke → ∀ c buffer, Changing rule (invoke c buffer))
  (hquiet : env.Quiet)

include hinvoke hquiet

theorem concludes_callBootstrap {constant : Class → UInt16 → Bool → Traced (Option Handle)}
    (hconstant : ∀ index resolve m, m.Ready c → Orderly rule (constant c index resolve) m)
    (hm : m.Ready c) (index number : UInt16) :
    Concludes rule ⟨c.id, index⟩ (callBootstrap env constant c index number) m := by
  refine concludes_bind (orderly_orFail hm.toCoherent _ _) (fun invoke m₁ hknown h₁ => ?_)
  have hinvoker : env.invoker = some invoke := (orFail_eq_ok_iff.mp hknown).1
  have hm₁ := h₁.ready hm
  refine concludes_bind (orderly_orFail hm₁.toCoherent _ _) (fun bootstrap m₂ _ h₂ => ?_)
  have hm₂ := h₂.ready hm₁
  refine concludes_bind (orderly_links env hm₂.toCoherent (madeOf_coreClass _)
    (fun Q => preserves_coreClass _)) (fun object m₃ _ h₃ => ?_)
  have hm₃ := h₃.ready hm₂
  refine concludes_bind (orderly_links env hm₃.toCoherent (madeOf_newArray _ _)
    (fun Q => preserves_newArray _ _)) (fun buffer m₄ _ h₄ => ?_)
  have hm₄ := h₄.ready hm₃
  refine concludes_bind (orderly_copyArgumentsWith hconstant hm₄ _) (fun _ m₅ _ h₅ => ?_)
  have hm₅ := h₅.ready hm₄
  refine concludes_bind (orderly_links env hm₅.toCoherent (madeOf_elements buffer)
    (fun Q => preserves_elements buffer)) (fun arguments m₆ _ h₆ => ?_)
  have hm₆ := h₆.ready hm₅
  refine concludes_bind (orderly_links env hm₆.toCoherent (.recordCall _)
    (fun Q => preserves_recordCall _)) (fun _ m₇ _ h₇ => ?_)
  -- The call is the only thing that the invoker is asked for.
  refine concludes_answering (orderly_silent ?_ (fun Q => ?_) h₇.justified)
  · refine changing_bind (hinvoke invoke hinvoker c buffer) (fun answer => ?_)
    exact changing_of_madeOf (madeOf_orFail _ _)
  · exact preserves_bind (preserves_of_memos (hquiet invoke hinvoker c buffer))
      (fun answer => preserves_orFail _ _)

theorem orderly_resolveDynamicConstantWith {bound : Nat}
    (hconstant : ∀ index resolve m, m.Ready c →
      Orderly rule (constantObjectWithin env bound c index resolve) m)
    (hm : m.Ready c) (index : UInt16) :
    Orderly rule (resolveDynamicConstantWith env (constantObjectWithin env bound) c index) m := by
  refine orderly_bind (orderly_orFail hm.toCoherent _ _) (fun entry m₁ hfound h₁ => ?_)
  have hentry : c.pool.get? index = some entry := (orFail_eq_ok_iff.mp hfound).1
  have hm₁ := h₁.ready hm
  cases entry with
  | dynamic number name descriptor =>
    have haction : (callBootstrap env (constantObjectWithin env bound) c index number).action =
        Linkage.callBootstrap env (Linkage.constantObjectWithin env bound) c index number :=
      action_callBootstrap (action_constantObjectWithin env bound) c index number
    refine orderly_memoize hm₁ hentry ?_ ?_ ?_
    · -- If the call needs the constant itself, it fails: either way it leaves the slot empty.
      rw [haction]
      exact lookup_callBootstrap hquiet hentry bound
    · exact fun value m' _ => trivial
    · exact concludes_callBootstrap hinvoke hquiet hconstant hm₁ index number
  | _ => exact orderly_still rfl hm₁.justified

/-- The object of a constant, with bootstrap methods inside each other up to a bound. -/
theorem orderly_constantObjectWithin (bound : Nat) (index : UInt16) (resolve : Bool) (m : Machine)
    (hm : m.Ready c) : Orderly rule (constantObjectWithin env bound c index resolve) m := by
  induction bound generalizing index resolve m with
  | zero => exact orderly_still rfl hm.justified
  | succ bound ih =>
    unfold constantObjectWithin constantObjectWith
    split
    · refine orderly_bind (orderly_resolveDynamicConstantWith hinvoke hquiet ih hm index) ?_
      exact fun value m' _ h' => orderly_still rfl h'.justified
    · rename_i hcases
      exact orderly_constantObject_silent hm (not_resolved_of_cases hcases)

end Invoker

end Traced

end Linkage
