import Mathlib.Data.Finset.Card
import Mathlib.Logic.Relation
import Linkage.Describe
import Linkage.Proofs.Framing

/-! # Graphs of objects

    Objects refer to each other, and a description of an object describes what it refers to.
    Nothing marks the objects that are being described, so the description of an object that
    leads back to itself never ends.

    * `Refers`, `Leads`: one object refers to another one, or leads to it step by step.
      `LoopFree`: no object leads back to itself.
    * `LoopFree.update`: an object that is stored or changed makes no loop if nothing that it
      refers to leads to it.
    * `describe_returns`: without loops, and if all references lead to objects, the bound on
      the depth of descriptions is never reached, since behind each reference there are fewer
      objects. `describe_of_loop`: an object on a loop has no description. -/

namespace Linkage

open Link Relation

variable {objects : Handle → Option Object} {h r x y : Handle} {o : Object}

/-! ## References -/

/-- The references in an object that its description follows. -/
def Object.holds : Object → List Handle
  | .methodType t => t.parameters ++ [t.result]
  | .methodHandle h => [h.member]
  | .memberName n => n.clazz.toList ++ n.name.toList ++ n.type.toList
  | .array a => a.elements.toList.filterMap id
  | _ => []

theorem Object.holds_newArray (component : ClassId) (length : Nat) :
    (Object.array { component, elements := Array.replicate length none }).holds = [] := by
  simp [Object.holds]

/-- What an array refers to after an element is replaced. -/
theorem Object.mem_holds_setElement {index : Nat} {value : Option Handle}
    (hr : r ∈ (o.setElement index value).holds) : r ∈ o.holds ∨ value = some r := by
  cases o with
  | array a =>
    obtain ⟨part, hpart, heq⟩ := List.mem_filterMap.mp hr
    obtain rfl : part = some r := heq
    rcases Array.mem_or_eq_of_mem_setIfInBounds (Array.mem_toList_iff.mp hpart) with hold | hnew
    · exact Or.inl (List.mem_filterMap.mpr ⟨some r, Array.mem_toList_iff.mpr hold, rfl⟩)
    · exact Or.inr hnew.symm
  | _ => exact Or.inl hr

/-- The object behind the first handle refers to the second one. -/
def Refers (objects : Handle → Option Object) (h r : Handle) : Prop :=
  ∃ o, objects h = some o ∧ r ∈ o.holds

/-- References lead from the first handle to the second one. -/
def Leads (objects : Handle → Option Object) : Handle → Handle → Prop :=
  ReflTransGen (Refers objects)

/-- No object leads back to itself. -/
def LoopFree (objects : Handle → Option Object) : Prop :=
  ∀ h, ¬ TransGen (Refers objects) h h

/-- Every reference leads to an object. -/
def Grounded (objects : Handle → Option Object) : Prop :=
  ∀ h r, Refers objects h r → objects r ≠ none

theorem refers_of_eq (hobject : objects h = some o) : Refers objects h r ↔ r ∈ o.holds := by
  constructor
  · rintro ⟨o', ho', hr⟩
    rw [hobject, Option.some.injEq] at ho'
    rwa [ho']
  · exact fun hr => ⟨o, hobject, hr⟩

theorem refers_update_iff : Refers (Function.update objects h (some o)) x y ↔
    x = h ∧ y ∈ o.holds ∨ x ≠ h ∧ Refers objects x y := by
  by_cases hx : x = h
  · subst hx
    simp [refers_of_eq (Function.update_self x (some o) objects)]
  · simp [Refers, hx]

/-- What an object without references leads to is itself. -/
theorem Leads.eq_of_leaf (hleads : Leads objects x y) (hobject : objects x = some o)
    (hleaf : o.holds = []) : x = y := by
  rcases hleads.cases_head with heq | ⟨z, hxz, -⟩
  · exact heq
  · rw [refers_of_eq hobject, hleaf] at hxz
    cases hxz

/-- Nothing leads to a handle without an object. -/
theorem Grounded.not_leads_of_free (hgrounded : Grounded objects) (hfree : objects h = none)
    (hr : objects r ≠ none) : ¬ Leads objects r h := by
  intro hleads
  rcases hleads.cases_tail with heq | ⟨z, -, hz⟩
  · exact hr (heq ▸ hfree)
  · exact hgrounded z h hz hfree

theorem Grounded.update (hgrounded : Grounded objects)
    (hnew : ∀ r ∈ o.holds, objects r ≠ none) :
    Grounded (Function.update objects h (some o)) := by
  have hstays : ∀ r, objects r ≠ none → Function.update objects h (some o) r ≠ none := by
    intro r hr
    by_cases hrh : r = h
    · simp [hrh]
    · rwa [Function.update_of_ne hrh]
  intro x y hxy
  rcases refers_update_iff.mp hxy with ⟨-, hy⟩ | ⟨-, hxy⟩
  · exact hstays y (hnew y hy)
  · exact hstays y (hgrounded x y hxy)

/-- An object may be stored or changed if nothing that it refers to then leads to it. -/
theorem LoopFree.update (hfree : LoopFree objects) (hnew : ∀ r ∈ o.holds, ¬ Leads objects r h) :
    LoopFree (Function.update objects h (some o)) := by
  -- From what does not lead to the object, the changed references are never reached.
  have hstep : ∀ {x y}, ¬ Leads objects x h →
      Refers (Function.update objects h (some o)) x y →
      Refers objects x y ∧ ¬ Leads objects y h := by
    intro x y hx hxy
    rcases refers_update_iff.mp hxy with ⟨rfl, -⟩ | ⟨-, hxy⟩
    · exact absurd ReflTransGen.refl hx
    · exact ⟨hxy, fun hy => hx (ReflTransGen.head hxy hy)⟩
  have haway : ∀ {x y}, ¬ Leads objects x h →
      TransGen (Refers (Function.update objects h (some o))) x y →
      TransGen (Refers objects) x y ∧ ¬ Leads objects y h := by
    intro x y hx hxy
    induction hxy with
    | single hxy => exact ⟨.single (hstep hx hxy).1, (hstep hx hxy).2⟩
    | tail _ hyz ih => exact ⟨ih.1.tail (hstep ih.2 hyz).1, (hstep ih.2 hyz).2⟩
  -- A path uses old references only, or it ends where nothing leads to the object.
  have hpath : ∀ {x y}, TransGen (Refers (Function.update objects h (some o))) x y →
      TransGen (Refers objects) x y ∨ ¬ Leads objects y h := by
    intro x y hxy
    induction hxy with
    | single hxy =>
      rcases refers_update_iff.mp hxy with ⟨-, hy⟩ | ⟨-, hxy⟩
      · exact Or.inr (hnew _ hy)
      · exact Or.inl (.single hxy)
    | tail _ hyz ih =>
      rcases ih with ih | ih
      · rcases refers_update_iff.mp hyz with ⟨-, hz⟩ | ⟨-, hyz⟩
        · exact Or.inr (hnew _ hz)
        · exact Or.inl (ih.tail hyz)
      · exact Or.inr (hstep ih hyz).2
  intro x hloop
  rcases hpath hloop with hold | hx
  · exact hfree x hold
  · exact hfree x (haway hx hloop).1

/-- Giving up an object makes no loop. -/
theorem LoopFree.release (hfree : LoopFree objects) :
    LoopFree (Function.update objects h none) := by
  intro x hloop
  refine hfree x (TransGen.mono (fun y z => ?_) x x hloop)
  rintro ⟨o, ho, hz⟩
  by_cases hy : y = h
  · simp [hy] at ho
  · rw [Function.update_of_ne hy] at ho
    exact ⟨o, ho, hz⟩

/-! ## Counting objects -/

namespace Store

variable {α : Type} {s : Store α}

/-- The store has as many objects as it says. -/
def Counted (s : Store α) : Prop :=
  ∃ live : Finset Handle, (∀ h, s.objects h ≠ none ↔ h ∈ live) ∧ live.card = s.live

theorem Counted.allocate (hs : s.Counted) (hnext : s.objects s.next = none) (object : α) :
    (s.allocate object).2.Counted := by
  unfold Store.allocate
  split
  · exact hs
  · obtain ⟨live, hlive, hcard⟩ := hs
    refine ⟨insert s.next live, fun h => ?_, ?_⟩
    · by_cases hh : h = s.next
      · simp [Store.set, hh]
      · simpa [Store.set, hh] using hlive h
    · have hnew : s.next ∉ live := fun hmem => (hlive s.next).mpr hmem hnext
      simp [Finset.card_insert_of_notMem hnew, hcard]

theorem Counted.update (hs : s.Counted) (h : Handle) (f : α → α) : (s.update h f).2.Counted := by
  unfold Store.update
  split
  · rename_i object hobject
    obtain ⟨live, hlive, hcard⟩ := hs
    refine ⟨live, fun other => ?_, hcard⟩
    by_cases hother : other = h
    · subst hother
      simpa [Store.set, hobject] using hlive other
    · simpa [Store.set, hother] using hlive other
  · exact hs

theorem Counted.release (hs : s.Counted) (h : Handle) : (s.release h).2.Counted := by
  unfold Store.release
  split
  · rename_i object hobject
    obtain ⟨live, hlive, hcard⟩ := hs
    have hmem : h ∈ live := (hlive h).mp (by simp [hobject])
    refine ⟨live.erase h, fun other => ?_, ?_⟩
    · by_cases hother : other = h
      · simp [Store.set, hother]
      · simpa [Store.set, hother] using hlive other
    · simp [Finset.card_erase_of_mem hmem, hcard]
  · exact hs

end Store

/-! ## Descriptions -/

section Describing

variable {m m' : Machine}

theorem keeps_describeWithin {P : Machine → Prop} (depth : Nat) (r : Option Handle) :
    Keeps P (describeWithin depth r) := by
  induction depth generalizing r with
  | zero => exact keeps_failWith _
  | succ depth ih =>
    show Keeps P (describeWith (describeWithin depth) r)
    cases r with
    | none => exact keeps_pure _
    | some h =>
      refine keeps_bind (keeps_read h) (fun object => ?_)
      cases object <;> grind

/-- The reference has a description of the given depth. -/
def Machine.Describable (m : Machine) (depth : Nat) (r : Option Handle) : Prop :=
  ∃ text, describeWithin depth r m = (.ok text, m)

theorem describable_of_ok {depth : Nat} {r : Option Handle} {text : String}
    (hrun : describeWithin depth r m = (.ok text, m')) : m.Describable depth r := by
  have hsame : m' = m := by
    have hkept : (describeWithin depth r m).2 = m :=
      keeps_describeWithin (P := (· = m)) depth r m rfl
    rwa [hrun] at hkept
  rw [hsame] at hrun
  exact ⟨text, hrun⟩

theorem forEach_of_each {α β : Type} {f : α → Link β} {as : List α}
    (hf : ∀ a ∈ as, ∃ b, f a m = (.ok b, m)) : ∃ bs, forEach f as m = (.ok bs, m) := by
  induction as with
  | nil => exact ⟨[], rfl⟩
  | cons a as ih =>
    obtain ⟨b, hb⟩ := hf a List.mem_cons_self
    obtain ⟨bs, hbs⟩ := ih (fun a ha => hf a (List.mem_cons_of_mem _ ha))
    exact ⟨b :: bs, by rw [forEach, bind_of_ok hb, bind_of_ok hbs]; rfl⟩

theorem each_of_forEach {α β : Type} {f : α → Link β} (hf : ∀ a, Keeps (· = m) (f a))
    {as : List α} {bs : List β} (hrun : forEach f as m = (.ok bs, m')) :
    ∀ a ∈ as, ∃ b, f a m = (.ok b, m) := by
  induction as generalizing bs m' with
  | nil => exact fun a ha => by cases ha
  | cons a as ih =>
    obtain ⟨b, m₁, hb, hrest⟩ := bind_eq_ok_iff.mp hrun
    have hsame : m₁ = m := by
      have hkept := hf a m rfl
      rwa [hb] at hkept
    subst hsame
    obtain ⟨bs', m₂, hbs, -⟩ := bind_eq_ok_iff.mp hrest
    intro a' ha'
    rcases List.mem_cons.mp ha' with rfl | ha'
    · exact ⟨b, hb⟩
    · exact ih hbs a' ha'

/-- An object is described if what it refers to is, and if its class is known. -/
theorem describable_succ {depth : Nat} (hread : m.heap.read h = .ok o)
    (hclass : ∀ id, o = .classObject id → ∃ c, m.classes.get? id = some c)
    (hnull : m.Describable depth none) (hholds : ∀ r ∈ o.holds, m.Describable depth (some r)) :
    m.Describable (depth + 1) (some h) := by
  -- A part that is missing is described as null.
  have hparts : ∀ part : Option Handle, (∀ r, part = some r → r ∈ o.holds) →
      ∃ text, describeWithin depth part m = (.ok text, m) := by
    intro part hpart
    cases part with
    | none => exact hnull
    | some r => exact hholds r (hpart r rfl)
  unfold Machine.Describable describeWithin describeWith
  dsimp only
  rw [bind_of_ok (read_of_ok hread)]
  cases o with
  | classObject id =>
    obtain ⟨c, hc⟩ := hclass id rfl
    exact ⟨_, by dsimp only; rw [bind_of_ok (classAt_of_get? hc)]; rfl⟩
  | methodType t =>
    have heach : ∀ p ∈ t.parameters, m.Describable depth (some p) :=
      fun p hp => hholds p (by simp [Object.holds, hp])
    obtain ⟨parameters, hparameters⟩ := forEach_of_each heach
    obtain ⟨result, hresult⟩ := hholds t.result (by simp [Object.holds])
    exact ⟨_, by dsimp only; rw [bind_of_ok hparameters, bind_of_ok hresult]; rfl⟩
  | methodHandle k =>
    obtain ⟨member, hmember⟩ := hholds k.member (by simp [Object.holds])
    exact ⟨_, by dsimp only; rw [bind_of_ok hmember]; rfl⟩
  | memberName n =>
    obtain ⟨clazz, hclazz⟩ := hparts n.clazz (fun r hr => by simp [Object.holds, hr])
    obtain ⟨name, hname⟩ := hparts n.name (fun r hr => by simp [Object.holds, hr])
    obtain ⟨type, htype⟩ := hparts n.type (fun r hr => by simp [Object.holds, hr])
    exact ⟨_, by dsimp only; rw [bind_of_ok hclazz, bind_of_ok hname, bind_of_ok htype]; rfl⟩
  | array a =>
    have heach : ∀ part ∈ a.elements.toList, m.Describable depth part := by
      intro part hpart
      -- The elements that are not null are what the array holds.
      refine hparts part (fun r hr => ?_)
      subst hr
      exact List.mem_filterMap.mpr ⟨some r, hpart, rfl⟩
    obtain ⟨elements, helements⟩ := forEach_of_each heach
    exact ⟨_, by dsimp only; rw [bind_of_ok helements]; rfl⟩
  | _ => exact ⟨_, rfl⟩

/-- What a described object refers to is described. -/
theorem Machine.Describable.of_refers {depth : Nat} (hw : m.heap.WellFormed)
    (hdescribed : m.Describable (depth + 1) (some h)) (hrefers : Refers m.object? h r) :
    m.Describable depth (some r) := by
  obtain ⟨o, hobject, hr⟩ := hrefers
  obtain ⟨text, hrun⟩ := hdescribed
  -- Descriptions change nothing, so each part is described on the same machine.
  have hkeeps : ∀ part : Option Handle, Keeps (· = m) (describeWithin depth part) :=
    fun part => keeps_describeWithin depth part
  unfold describeWithin describeWith at hrun
  dsimp only at hrun
  rw [bind_of_ok (read_of_ok ((read_eq_ok_iff hw).mpr hobject))] at hrun
  cases o with
  | methodType t =>
    obtain ⟨parameters, m₁, hparameters, hrest⟩ := bind_eq_ok_iff.mp hrun
    have hsame : m₁ = m := by
      have hkept : (forEach (fun p => describeWithin depth (some p)) t.parameters m).2 = m :=
        keeps_forEach (fun p _ => hkeeps (some p)) m rfl
      rwa [hparameters] at hkept
    subst hsame
    obtain ⟨result, m₂, hresult, -⟩ := bind_eq_ok_iff.mp hrest
    rcases List.mem_append.mp hr with hr | hr
    · exact each_of_forEach (fun p => hkeeps (some p)) hparameters r hr
    · rw [List.mem_singleton.mp hr]
      exact describable_of_ok hresult
  | methodHandle k =>
    obtain ⟨member, m₁, hmember, -⟩ := bind_eq_ok_iff.mp hrun
    rw [List.mem_singleton.mp hr]
    exact describable_of_ok hmember
  | memberName n =>
    obtain ⟨clazz, m₁, hclazz, hrest⟩ := bind_eq_ok_iff.mp hrun
    obtain ⟨_, hclazz'⟩ := describable_of_ok hclazz
    obtain rfl : m₁ = m := by rw [hclazz'] at hclazz; cases hclazz; rfl
    obtain ⟨name, m₂, hname, hrest⟩ := bind_eq_ok_iff.mp hrest
    obtain ⟨_, hname'⟩ := describable_of_ok hname
    obtain rfl : m₂ = m₁ := by rw [hname'] at hname; cases hname; rfl
    obtain ⟨type, m₃, htype, -⟩ := bind_eq_ok_iff.mp hrest
    simp only [Object.holds, List.mem_append, Option.mem_toList] at hr
    rcases hr with (hr | hr) | hr
    · rw [hr] at hclazz
      exact describable_of_ok hclazz
    · rw [hr] at hname
      exact describable_of_ok hname
    · rw [hr] at htype
      exact describable_of_ok htype
  | array a =>
    obtain ⟨elements, m₁, helements, -⟩ := bind_eq_ok_iff.mp hrun
    obtain ⟨part, hpart, heq⟩ := List.mem_filterMap.mp hr
    obtain rfl : part = some r := heq
    exact each_of_forEach hkeeps helements _ hpart
  | _ => cases hr

/-- Behind a reference there are fewer objects than behind the object that holds it, if there
    are no loops. -/
theorem card_reached_lt (live : Finset Handle) [∀ h, DecidablePred (TransGen (Refers objects) h)]
    (hfree : LoopFree objects) (hr : r ∈ live) (hrefers : Refers objects h r) :
    (live.filter (TransGen (Refers objects) r)).card <
      (live.filter (TransGen (Refers objects) h)).card := by
  refine Finset.card_lt_card (Finset.ssubset_iff_subset_ne.mpr ⟨?_, ?_⟩)
  · intro x hx
    rw [Finset.mem_filter] at hx ⊢
    exact ⟨hx.1, TransGen.head hrefers hx.2⟩
  · intro heq
    have hmem : r ∈ live.filter (TransGen (Refers objects) h) :=
      Finset.mem_filter.mpr ⟨hr, .single hrefers⟩
    rw [← heq] at hmem
    exact hfree r (Finset.mem_filter.mp hmem).2

/-- Without loops every object has a description. -/
theorem describe_returns (hw : m.heap.WellFormed) (hcounted : m.heap.view.Counted)
    (hgrounded : Grounded m.object?) (hfree : LoopFree m.object?)
    (hclass : ∀ h id, m.object? h = some (.classObject id) → ∃ c, m.classes.get? id = some c)
    {r : Option Handle} (hlive : ∀ h, r = some h → m.object? h ≠ none) :
    ∃ text, describe r m = (.ok text, m) := by
  classical
  obtain ⟨live, hmem, hcard⟩ := hcounted
  -- The induction is on the depth, which has to be larger than the number of objects that can be
  -- reached. This gets smaller with every step, as there are no loops.
  have hdescribable : ∀ depth h, m.object? h ≠ none →
      (live.filter (TransGen (Refers m.object?) h)).card + 2 ≤ depth →
      m.Describable depth (some h) := by
    intro depth
    induction depth with
    | zero => exact fun h _ hbound => by omega
    | succ depth ih =>
      intro h hlive hbound
      obtain ⟨o, hobject⟩ := Option.ne_none_iff_exists'.mp hlive
      have hnull : m.Describable depth none := by
        obtain ⟨k, rfl⟩ : ∃ k, depth = k + 1 := ⟨depth - 1, by omega⟩
        exact ⟨"null", rfl⟩
      refine describable_succ ((read_eq_ok_iff hw).mpr hobject)
        (fun id hid => hclass h id (hid ▸ hobject)) hnull (fun r hr => ?_)
      have hrefers : Refers m.object? h r := ⟨o, hobject, hr⟩
      have hr' := hgrounded h r hrefers
      have hless := card_reached_lt live hfree ((hmem r).mp hr') hrefers
      exact ih r hr' (by omega)
  cases r with
  | none => exact ⟨"null", rfl⟩
  | some h =>
    -- No more objects are reached than there are.
    have hbound := Finset.card_filter_le live (TransGen (Refers m.object?) h)
    have hlive' : live.card = m.heap.live := hcard
    exact hdescribable (m.heap.live + 2) h (hlive h rfl) (by omega)

/-- An object on a loop has no description, however deep it may be. -/
theorem not_describable_of_loop (hw : m.heap.WellFormed)
    (hloop : TransGen (Refers m.object?) h h) (depth : Nat) : ¬ m.Describable depth (some h) := by
  -- By induction on the depth: the next object on the loop is on a loop too.
  induction depth generalizing h with
  | zero =>
    rintro ⟨text, hrun⟩
    cases hrun
  | succ depth ih =>
    intro hdescribed
    obtain ⟨next, hnext, hback⟩ := TransGen.head'_iff.mp hloop
    exact ih (TransGen.tail' hback hnext) (hdescribed.of_refers hw hnext)

theorem describe_of_loop (hw : m.heap.WellFormed) (hloop : TransGen (Refers m.object?) h h)
    (text : String) (m' : Machine) : describe (some h) m ≠ (.ok text, m') :=
  fun hrun => not_describable_of_loop hw hloop (m.heap.live + 2) (describable_of_ok hrun)

end Describing

end Linkage
