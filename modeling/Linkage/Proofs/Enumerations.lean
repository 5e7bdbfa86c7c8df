import Mathlib.Data.List.Nodup
import Linkage.Proofs.Agreement
import Linkage.Proofs.ArgumentCopies
import Linkage.Proofs.Dispatch
import Linkage.Proofs.Speculation

/-! # Members of a class, listed and paged

    An enumeration lists members of a class and of its supertypes in a fixed order, and fills
    an array of member names with one page of them.

    * `ClassTable.asks`: which members are asked for, by name, descriptor and kind.
    * `ClassTable.Ancestors`: the superclasses, from the nearest on.
    * `matchingMembers_eq`: the list holds the members that are asked for, in the order of
      classes and declarations, and none of them twice.
    * `enumeration_pages`: the number of members depends on neither the page nor the array,
      each place of the page is filled from its member, and nothing else is touched. -/

namespace Linkage

open Link

variable {rule : Discipline} {env : Environment} {m m' : Machine} {t : ClassTable} {c d : Class}
  {name signature : Option String} {flags : MatchFlags}

/-! ## Declared members -/

/-- A method as a member. One that is called `<init>` is a constructor. -/
def Method.asMember (method : Method) (r : MethodRef) : MatchedMember :=
  if method.name = Method.constructorName then .constructor r else .method r

/-- All members that the class declares, in the order of declaration, the fields before the
    methods. -/
def Class.members (c : Class) : List MatchedMember :=
  c.fields.toList.zipIdx.map (fun (_, index) =>
      .field { owner := c.id, index := UInt16.ofNat index })
    ++ c.methods.toList.zipIdx.map (fun (method, index) =>
      method.asMember { owner := c.id, index := UInt16.ofNat index })

/-- A text is the one that is asked for, if any is. -/
def fitsText (asked : Option String) (text : String) : Bool :=
  asked.all (fun wanted => wanted == text)

/-- The member is asked for: it has the name, the descriptor and one of the kinds. Class
    initializers are never asked for. -/
def ClassTable.asks (t : ClassTable) (name signature : Option String) (flags : MatchFlags) :
    MatchedMember → Bool
  | .field r => flags.fields && (t.field? r).any fun f =>
      fitsText name f.name && fitsText signature f.type.render
  | .method r => flags.methods && (t.method? r).any fun method =>
      method.name != Method.classInitializerName && fitsText name method.name &&
        fitsText signature method.descriptor.render
  | .constructor r => flags.constructors && (t.method? r).any fun method =>
      fitsText name method.name && fitsText signature method.descriptor.render

/-- The places of fields and methods are numbers of a class file. -/
def Class.Numbered (c : Class) : Prop :=
  c.fields.size ≤ 65536 ∧ c.methods.size ≤ 65536

theorem toNat_ofNat_of_mem_zipIdx {α : Type} {as : Array α} (hsize : as.size ≤ 65536) {a : α}
    {index : Nat} (h : (a, index) ∈ as.toList.zipIdx) :
    (UInt16.ofNat index).toNat = index ∧ as[index]? = some a := by
  have hfound : as[index]? = some a := by
    rw [← Array.getElem?_toList]
    exact List.mk_mem_zipIdx_iff_getElem?.mp h
  exact ⟨toNat_ofNat_of_found hsize hfound, hfound⟩

/-- The places of an array are different numbers. -/
theorem nodup_zipIdx_map {α β : Type} {as : Array α} (hsize : as.size ≤ 65536)
    {f : α × Nat → β} (place : β → UInt16) (hplace : ∀ p, place (f p) = UInt16.ofNat p.2) :
    (as.toList.zipIdx.map f).Nodup := by
  apply List.Nodup.of_map (fun b => (place b).toNat)
  rw [List.map_map]
  have hplaces : as.toList.zipIdx.map ((fun b => (place b).toNat) ∘ f) =
      as.toList.zipIdx.map Prod.snd := by
    refine List.map_congr_left (fun p hp => ?_)
    rw [Function.comp_apply, hplace]
    exact (toNat_ofNat_of_mem_zipIdx hsize hp).1
  rw [hplaces, List.zipIdx_map_snd]
  exact List.nodup_range'

/-- The place of a member among the fields or methods of its class. -/
def MatchedMember.place : MatchedMember → UInt16
  | .field r => r.index
  | .method r => r.index
  | .constructor r => r.index

theorem Method.place_asMember (method : Method) (r : MethodRef) :
    (method.asMember r).place = r.index := by
  unfold asMember
  split <;> rfl

theorem Method.owner_asMember (method : Method) (r : MethodRef) :
    (method.asMember r).owner = r.owner := by
  unfold asMember
  split <;> rfl

theorem Method.asMember_ne_field (method : Method) (r : MethodRef) (f : FieldRef) :
    method.asMember r ≠ .field f := by
  unfold asMember
  split <;> simp

theorem Class.nodup_members (h : c.Numbered) : c.members.Nodup := by
  refine List.nodup_append.mpr ⟨?_, ?_, ?_⟩
  · exact nodup_zipIdx_map h.1 MatchedMember.place (fun _ => rfl)
  · exact nodup_zipIdx_map h.2 MatchedMember.place (fun p => p.1.place_asMember _)
  · rintro a ha b hb rfl
    obtain ⟨_, _, hfield⟩ := List.mem_map.mp ha
    obtain ⟨p, _, hmethod⟩ := List.mem_map.mp hb
    exact p.1.asMember_ne_field _ _ (hmethod.trans hfield.symm)

theorem Class.owner_of_mem_members {member : MatchedMember} (h : member ∈ c.members) :
    member.owner = c.id := by
  rcases List.mem_append.mp h with h | h
  · obtain ⟨_, _, rfl⟩ := List.mem_map.mp h
    rfl
  · obtain ⟨p, _, rfl⟩ := List.mem_map.mp h
    exact p.1.owner_asMember _

/-! ## Descriptors by their first character -/

theorem TypeDescriptor.head?_render (ty : TypeDescriptor) :
    ty.render.toList.head? ≠ some '(' := by
  unfold TypeDescriptor.render
  rw [String.toList_ofList]
  cases ty with
  | primitive p => cases p <;> simp [TypeDescriptor.chars, Primitive.letter]
  | object name => simp [TypeDescriptor.chars]
  | array component => simp [TypeDescriptor.chars]

theorem MethodDescriptor.head?_render (descriptor : MethodDescriptor) :
    descriptor.render.toList.head? = some '(' := by
  unfold MethodDescriptor.render
  rw [String.toList_ofList]
  rfl

/-- A signature that rules out fields is that of no field, … -/
theorem MemberFilter.fields_make (text : String) (ty : TypeDescriptor) :
    ((make name signature flags).fields && (make name signature flags).accepts text ty.render) =
      (flags.fields && (fitsText name text && fitsText signature ty.render)) := by
  cases signature with
  | none => simp [make, accepts, fitsText]
  | some s =>
    by_cases hs : s = ty.render
    · have hhead : (ty.render.toList.head? == some '(') = false :=
        beq_eq_false_iff_ne.mpr ty.head?_render
      simp [make, accepts, fitsText, hs, hhead]
    · have hne : (s == ty.render) = false := beq_eq_false_iff_ne.mpr hs
      simp [make, accepts, fitsText, hne]

/-- … and one that rules out methods is that of no method. -/
theorem MemberFilter.forMethods_make (wanted : Bool) (text : String)
    (descriptor : MethodDescriptor) :
    (wanted && signature.all (fun s => s.toList.head? == some '(') &&
      (make name signature flags).accepts text descriptor.render) =
      (wanted && (fitsText name text && fitsText signature descriptor.render)) := by
  cases signature with
  | none => simp [make, accepts, fitsText]
  | some s =>
    by_cases hs : s = descriptor.render
    · simp [make, accepts, fitsText, hs, descriptor.head?_render]
    · have hne : (s == descriptor.render) = false := beq_eq_false_iff_ne.mpr hs
      simp [make, accepts, fitsText, hne]

/-- Picking and numbering at once, or numbering first. -/
theorem filterMap_eq_filter_map {α β : Type} {f : α → Option β} {g : α → β} {p : β → Bool}
    {as : List α} (h : ∀ a ∈ as, f a = if p (g a) then some (g a) else none) :
    as.filterMap f = (as.map g).filter p := by
  induction as with
  | nil => rfl
  | cons a as ih =>
    have hrest := ih (fun a' ha' => h a' (List.mem_cons_of_mem a ha'))
    rw [List.filterMap_cons, h a List.mem_cons_self, List.map_cons, List.filter_cons, hrest]
    cases p (g a) <;> rfl

/-- A field is a match if it is asked for. -/
theorem MemberFilter.matchField?_eq {f : Field} {index : Nat}
    (found : t.field? { owner := c.id, index := UInt16.ofNat index } = some f) :
    (make name signature flags).matchField? c.id f index =
      if t.asks name signature flags (.field { owner := c.id, index := UInt16.ofNat index }) then
        some (.field { owner := c.id, index := UInt16.ofNat index })
      else none := by
  simp only [matchField?, ClassTable.asks, found, Option.any_some, fields_make]

/-- A method is a match if it is asked for as the member that it is. -/
theorem MemberFilter.matchMethod?_eq {method : Method} {r : MethodRef} {index : Nat}
    (hr : r = { owner := c.id, index := UInt16.ofNat index }) (found : t.method? r = some method) :
    (make name signature flags).matchMethod? c.id method index =
      if t.asks name signature flags (method.asMember r) then some (method.asMember r)
      else none := by
  have hmethods : ((make name signature flags).methods &&
      (make name signature flags).accepts method.name method.descriptor.render) = _ :=
    forMethods_make flags.methods method.name method.descriptor
  have hconstructors : ((make name signature flags).constructors &&
      (make name signature flags).accepts method.name method.descriptor.render) = _ :=
    forMethods_make flags.constructors method.name method.descriptor
  -- A signature that rules methods out fits none of them, so it makes no difference when it
  -- is looked at.
  unfold matchMethod? Method.asMember
  rw [← hr]
  dsimp only
  by_cases hname : method.name = Method.constructorName
  · have hbeq : (method.name == Method.constructorName) = true := beq_iff_eq.mpr hname
    simp only [if_pos hname, hbeq, if_true, ClassTable.asks, found, Option.any_some,
      ← hconstructors]
    cases (make name signature flags).accepts method.name method.descriptor.render <;>
      cases (make name signature flags).constructors <;> rfl
  · have hbeq : (method.name == Method.constructorName) = false := beq_eq_false_iff_ne.mpr hname
    simp only [if_neg hname, hbeq, Bool.false_eq_true, if_false, ClassTable.asks, found,
      Option.any_some, Bool.and_assoc, bne]
    rw [Bool.and_left_comm, ← hmethods]
    cases (make name signature flags).accepts method.name method.descriptor.render <;>
      cases method.name == Method.classInitializerName <;>
        cases (make name signature flags).methods <;> rfl

/-- The matches of a class are its members that are asked for. -/
theorem MemberFilter.declared_eq (hc : t.get? c.id = some c) (hnumbered : c.Numbered) :
    (make name signature flags).declared c = c.members.filter (t.asks name signature flags) := by
  unfold declared Class.members
  rw [List.filter_append]
  congr 1
  · apply filterMap_eq_filter_map
    rintro ⟨f, index⟩ hmem
    obtain ⟨hindex, hf⟩ := toNat_ofNat_of_mem_zipIdx hnumbered.1 hmem
    exact matchField?_eq (by simp [ClassTable.field?, hc, Class.field?, hindex, hf])
  · apply filterMap_eq_filter_map
    rintro ⟨method, index⟩ hmem
    obtain ⟨hindex, hmethod⟩ := toNat_ofNat_of_mem_zipIdx hnumbered.2 hmem
    exact matchMethod?_eq rfl (by simp [ClassTable.method?, hc, Class.method?, hindex, hmethod])

/-! ## The classes that are searched -/

/-- The superclasses of a class, the nearest first. -/
inductive ClassTable.Ancestors (t : ClassTable) : Class → List Class → Prop where
  | root {c : Class} (superclass : c.superclass = none) : t.Ancestors c []
  | subclass {c d : Class} {s : ClassId} {above : List Class} (superclass : c.superclass = some s)
      (found : t.get? s = some d) (rest : t.Ancestors d above) : t.Ancestors c (d :: above)

/-- The classes of the table at the given places. -/
def ClassTable.At (t : ClassTable) (places : List ClassId) (classes : List Class) : Prop :=
  classes.map Class.id = places ∧ ∀ k ∈ classes, t.get? k.id = some k

namespace ClassTable.Linked

variable (hlinked : t.Linked)

include hlinked

theorem ancestors {i : ClassId} (hc : t.get? i = some c) :
    t.Ancestors c (c.superclasses.reverse.filterMap t.get?) := by
  -- By induction on the place: the superclass stands before the class.
  induction i using Nat.strongRecOn generalizing c with
  | ind i ih =>
    rcases (hlinked.fits hc).superclasses with ⟨hroot, he⟩ | ⟨s, d, hs, hd, he⟩
    · rw [he]
      exact .root hroot
    · have hlt := (hlinked.superclass_lt hc hs hd).1
      rw [he, List.reverse_append, List.reverse_singleton, List.singleton_append,
        List.filterMap_cons_some hd]
      exact .subclass hs hd (ih s hlt hd)

theorem at_filterMap {places : List ClassId} (h : ∀ i ∈ places, ∃ k, t.get? i = some k) :
    t.At places (places.filterMap t.get?) := by
  induction places with
  | nil => exact ⟨rfl, fun k hk => absurd hk List.not_mem_nil⟩
  | cons i places ih =>
    obtain ⟨k, hk⟩ := h i List.mem_cons_self
    obtain ⟨hids, hfound⟩ := ih (fun j hj => h j (List.mem_cons_of_mem i hj))
    rw [List.filterMap_cons_some hk]
    refine ⟨by rw [List.map_cons, hlinked.ids hk, hids], ?_⟩
    intro k' hk'
    rcases List.mem_cons.mp hk' with rfl | hk'
    · rw [hlinked.ids hk, hk]
    · exact hfound k' hk'

/-- Going up, the places of classes get smaller, and interfaces are not met. -/
theorem ancestors_descend {above : List Class} (hc : t.get? c.id = some c)
    (h : t.Ancestors c above) :
    (c :: above).Pairwise (fun a b => b.id < a.id) ∧
      ∀ k ∈ above, t.get? k.id = some k ∧ k.isInterface = false := by
  induction h with
  | root hroot => exact ⟨List.pairwise_singleton _ _, fun k hk => absurd hk List.not_mem_nil⟩
  | @subclass c d s above hs hd _ ih =>
    -- A superclass was defined before its subclass, and it is a class.
    obtain ⟨hlt, hclass⟩ := hlinked.superclass_lt hc hs hd
    have hid := hlinked.ids hd
    obtain ⟨hpairs, hrest⟩ := ih (by rw [hid, hd])
    refine ⟨List.pairwise_cons.mpr ⟨?_, hpairs⟩, ?_⟩
    · intro k hk
      rcases List.mem_cons.mp hk with rfl | hk
      · rwa [hid]
      · exact Nat.lt_trans ((List.pairwise_cons.mp hpairs).1 k hk) (hid ▸ hlt)
    · intro k hk
      rcases List.mem_cons.mp hk with rfl | hk
      · exact ⟨by rw [hid, hd], hclass⟩
      · exact hrest k hk

/-- No class is searched twice. -/
theorem nodup_searched {above interfaces : List Class} (hc : t.get? c.id = some c)
    (habove : t.Ancestors c above) (hinterfaces : t.At c.itable interfaces) :
    ((c :: above ++ interfaces).map Class.id).Nodup := by
  obtain ⟨hpairs, hclasses⟩ := hlinked.ancestors_descend hc habove
  rw [List.map_append, hinterfaces.1]
  refine List.nodup_append.mpr ⟨?_, (hlinked.fits hc).nodup, ?_⟩
  · rw [List.Nodup, List.pairwise_map]
    exact hpairs.imp (fun hlt => (Nat.ne_of_lt hlt).symm)
  · -- An interface stands before the class, and is none of its superclasses.
    rintro i hi j hj rfl
    obtain ⟨⟨d, hd, hinterface⟩, hbelow⟩ := (hlinked.mem_itable hc).mp hj
    obtain ⟨k, hk, rfl⟩ := List.mem_map.mp hi
    rcases List.mem_cons.mp hk with rfl | hk
    · exact absurd (hlinked.lt_of_transGen_below hbelow) (Nat.lt_irrefl _)
    · obtain ⟨hget, hclass⟩ := hclasses k hk
      rw [hget, Option.some.injEq] at hd
      rw [← hd, hclass] at hinterface
      cases hinterface

end ClassTable.Linked

/-- The classes whose members are listed: the class, then its superclasses and then its
    interfaces, as far as these are asked for. Primitive classes and arrays list nothing. -/
def ClassTable.Searches (t : ClassTable) (flags : MatchFlags) (c : Class)
    (searched : List Class) : Prop :=
  ∃ above interfaces, t.Ancestors c above ∧ t.At c.itable interfaces ∧
    searched = if c.isPrimitive || c.isArray then [] else
      c :: (if flags.superclasses then above else [])
        ++ (if flags.interfaces then interfaces else [])

section Searches

variable {searched : List Class} (hlinked : t.Linked) (hc : t.get? c.id = some c)

include hlinked hc

theorem ClassTable.searches_searchOrder (flags : MatchFlags) :
    t.Searches flags c (if c.isPrimitive || c.isArray then [] else t.searchOrder c flags) := by
  refine ⟨_, _, hlinked.ancestors hc, hlinked.at_filterMap ?_, rfl⟩
  intro i hi
  obtain ⟨⟨k, hk, _⟩, _⟩ := (hlinked.mem_itable hc).mp hi
  exact ⟨k, hk⟩

theorem ClassTable.Searches.nodup (h : t.Searches flags c searched) :
    (searched.map Class.id).Nodup ∧ ∀ k ∈ searched, t.get? k.id = some k := by
  obtain ⟨above, interfaces, habove, hinterfaces, rfl⟩ := h
  have hclasses := (hlinked.ancestors_descend hc habove).2
  -- Whatever is left out by the flags, the order of the rest stays.
  have hsome : (if c.isPrimitive || c.isArray then [] else
      c :: (if flags.superclasses then above else [])
        ++ (if flags.interfaces then interfaces else [])).Sublist (c :: above ++ interfaces) := by
    split
    · exact List.nil_sublist _
    · refine List.Sublist.append (List.Sublist.cons_cons c ?_) ?_ <;> split <;> simp
  refine ⟨(hlinked.nodup_searched hc habove hinterfaces).sublist (hsome.map _), ?_⟩
  intro k hk
  rcases List.mem_append.mp (hsome.subset hk) with hk | hk
  · rcases List.mem_cons.mp hk with rfl | hk
    · exact hc
    · exact (hclasses k hk).1
  · exact hinterfaces.2 k hk

/-- The list of matches holds the members that are asked for, class by class, … -/
theorem ClassTable.matchingMembers_eq (hnumbered : ∀ k ∈ t.classes, k.Numbered)
    (name signature : Option String) (flags : MatchFlags) :
    ∃ searched, t.Searches flags c searched ∧
      t.matchingMembers c (MemberFilter.make name signature flags) flags =
        (searched.flatMap Class.members).filter (t.asks name signature flags) := by
  have hsearches := searches_searchOrder hlinked hc flags
  refine ⟨_, hsearches, ?_⟩
  have hfound := (hsearches.nodup hlinked hc).2
  -- Within one class the filter keeps the order of declaration.
  have hdeclared : ∀ k ∈ (if c.isPrimitive || c.isArray then [] else t.searchOrder c flags),
      (MemberFilter.make name signature flags).declared k =
        k.members.filter (t.asks name signature flags) := fun k hk =>
    MemberFilter.declared_eq (hfound k hk) (hnumbered k (ClassTable.mem_of_get? (hfound k hk)))
  unfold matchingMembers
  rw [List.filter_flatMap]
  split at hdeclared
  · rename_i hnone
    rw [if_pos hnone, if_pos hnone]
    rfl
  · rename_i hsome
    rw [if_neg hsome, if_neg hsome]
    exact List.flatMap_congr hdeclared

/-- … and none of them twice. -/
theorem ClassTable.Searches.nodup_members (hnumbered : ∀ k ∈ t.classes, k.Numbered)
    (h : t.Searches flags c searched) : (searched.flatMap Class.members).Nodup := by
  obtain ⟨hnodup, hfound⟩ := h.nodup hlinked hc
  refine List.nodup_flatMap.mpr ⟨?_, ?_⟩
  · exact fun k hk => Class.nodup_members (hnumbered k (ClassTable.mem_of_get? (hfound k hk)))
  · -- Members of different classes differ in their owner.
    refine (List.pairwise_map.mp hnodup).imp (fun {a b} hne member ha hb => hne ?_)
    rw [← Class.owner_of_mem_members ha, Class.owner_of_mem_members hb]

end Searches

/-! ## Filling a page -/

/-- Member names are filled one after the other, each from the reflection object of its
    member. -/
inductive Fillings (env : Environment) : Machine → List (Handle × MatchedMember) → Machine → Prop
    where
  | done (m : Machine) : Fillings env m [] m
  | next {m m₁ m₂ m' : Machine} {slot reflected : Handle} {member : MatchedMember}
      {page : List (Handle × MatchedMember)}
      (reflects : reflectMember env member m = (.ok reflected, m₁))
      (inits : initMemberName slot reflected m₁ = (.ok (), m₂))
      (rest : Fillings env m₂ page m') : Fillings env m ((slot, member) :: page) m'

/-- What filling other member names keeps, all fillings together keep. -/
theorem Fillings.keeps {P : Machine → Prop} {page : List (Handle × MatchedMember)}
    (hframed : Framed P)
    (hslots : ∀ slot ∈ page.map Prod.fst, ∀ f, Keeps P (updateMemberName slot f))
    (h : Fillings env m page m') (hm : P m) : P m' := by
  induction h with
  | done => exact hm
  | @next m m₁ m₂ _ slot reflected member page reflects inits _ ih =>
    have hm₁ : P m₁ := by
      have hkept := keeps_reflectMember hframed env member m hm
      rwa [reflects] at hkept
    have hm₂ : P m₂ := by
      have hkept := keeps_initMemberName hframed (hslots slot List.mem_cons_self) reflected m₁ hm₁
      rwa [inits] at hkept
    exact ih (fun other hother => hslots other (List.mem_cons_of_mem slot hother)) hm₂

/-- Objects that are not filled stay as they are. -/
theorem Fillings.read_of_notMem {page : List (Handle × MatchedMember)} {handle : Handle}
    {object : Object} (h : Fillings env m page m') (hw : m.heap.WellFormed)
    (hread : m.heap.read handle = .ok object) (hother : handle ∉ page.map Prod.fst) :
    m'.heap.read handle = .ok object := by
  have hcarries : m'.Carries handle (· = object) := by
    refine h.keeps (framed_carries _ _) ?_ (Machine.carries_of_read hw hread rfl)
    intro slot hslot f
    refine carries_updateMemberName ?_ f
    rintro rfl
    exact hother hslot
  obtain ⟨_, hread', rfl⟩ := hcarries.read
  exact hread'

/-- There is a member name behind the handle. -/
def Machine.HasName (slot : Handle) : Machine → Prop :=
  Machine.Carries slot (fun object => object.memberName?.isSome)

theorem Machine.HasName.read {slot : Handle} (h : m.HasName slot) :
    ∃ n, m.heap.read slot = .ok (.memberName n) := by
  obtain ⟨object, hread, hname⟩ := Carries.read h
  cases object with
  | memberName n => exact ⟨n, hread⟩
  | _ => cases hname

theorem hasName_updateMemberName (slot other : Handle) (f : MemberName → MemberName) :
    Keeps (Machine.HasName slot) (updateMemberName other f) :=
  keeps_bind (keeps_readMemberName other) (fun _ => carries_update (Or.inr fun _ _ => rfl))

theorem Fillings.hasName {page : List (Handle × MatchedMember)} {slot : Handle}
    (h : Fillings env m page m') (hslot : m.HasName slot) : m'.HasName slot :=
  h.keeps (framed_carries _ _) (fun other _ f => hasName_updateMemberName slot other f) hslot

/-- The member name is left as filling it from the member leaves it. -/
def LeftFilled (env : Environment) (m m' : Machine) (before : List (Handle × MatchedMember))
    (slot : Handle) (member : MatchedMember) : Prop :=
  ∃ m₁ m₂ m₃ reflected n, Fillings env m before m₁ ∧
    reflectMember env member m₁ = (.ok reflected, m₂) ∧
    initMemberName slot reflected m₂ = (.ok (), m₃) ∧
    m₃.heap.read slot = .ok (.memberName n) ∧ m'.heap.read slot = .ok (.memberName n)

theorem Fillings.leftFilled {page : List (Handle × MatchedMember)} {slot : Handle}
    {member : MatchedMember} {j : Nat} (h : Fillings env m page m')
    (hnames : ∀ slot ∈ page.map Prod.fst, m.HasName slot)
    (hdistinct : (page.map Prod.fst).Nodup) (hj : page[j]? = some (slot, member)) :
    LeftFilled env m m' (page.take j) slot member := by
  -- By induction on the fillings: each one leaves member names in all places.
  induction h generalizing j with
  | done => cases hj
  | @next m m₁ m₂ m' first reflected member' page reflects inits rest ih =>
    rw [List.map_cons, List.nodup_cons] at hdistinct
    have hnames₂ : ∀ slot ∈ first :: page.map Prod.fst, m₂.HasName slot := fun slot hslot =>
      (Fillings.next reflects inits (.done m₂)).hasName (hnames slot hslot)
    cases j with
    | zero =>
      -- The later fillings are of other member names.
      obtain ⟨rfl, rfl⟩ : first = slot ∧ member' = member := by simpa using hj
      have hfirst := hnames₂ first List.mem_cons_self
      obtain ⟨n, hn⟩ := hfirst.read
      exact ⟨m, m₁, m₂, reflected, n, .done m, reflects, inits, hn,
        rest.read_of_notMem hfirst.heap hn hdistinct.1⟩
    | succ j =>
      obtain ⟨k₁, k₂, k₃, reflected', n, hbefore, hfilled⟩ := ih
        (fun slot hslot => hnames₂ slot (List.mem_cons_of_mem first hslot)) hdistinct.2
        (by simpa using hj)
      exact ⟨k₁, k₂, k₃, reflected', n, .next reflects inits hbefore, hfilled⟩

/-- The array of results holds these places, with member names in them. -/
structure Machine.Offers (results : Handle) (slots : List Handle) (m : Machine) : Prop where
  array : m.Carries results (fun object =>
    ∃ a, object.array? = some a ∧ a.elements.toList = slots.map some)
  names : ∀ slot ∈ slots, m.HasName slot

section Offers

variable {results slot : Handle} {slots : List Handle}

theorem Machine.Offers.ne (h : m.Offers results slots) (hslot : slot ∈ slots) :
    slot ≠ results := by
  rintro rfl
  obtain ⟨n, hn⟩ := (h.names slot hslot).read
  obtain ⟨object, hread, a, harray, _⟩ := h.array.read
  rw [hn, Except.ok.injEq] at hread
  rw [← hread] at harray
  cases harray

/-- The array and its places outlast fillings of the places. -/
theorem Fillings.offers {page : List (Handle × MatchedMember)} (h : Fillings env m page m')
    (hpage : ∀ slot ∈ page.map Prod.fst, slot ∈ slots) (hm : m.Offers results slots) :
    m'.Offers results slots where
  array := h.keeps (framed_carries _ _)
    (fun _ hslot f => carries_updateMemberName (hm.ne (hpage _ hslot)) f) hm.array
  names := fun slot hslot => h.hasName (hm.names slot hslot)

theorem resultSlot_run {index : Nat} (hm : m.Offers results slots)
    (hindex : slots[index]? = some slot) : resultSlot results index m = (.ok (some slot), m) := by
  obtain ⟨object, hread, a, harray, hslots⟩ := hm.array.read
  obtain ⟨n, hn⟩ := (hm.names slot (List.mem_of_getElem? hindex)).read
  have helement : a.elements[index]? = some (some slot) := by
    rw [← Array.getElem?_toList, hslots, List.getElem?_map, hindex]
    rfl
  unfold resultSlot
  rw [resolve_readAt, bind_of_ok (read_of_ok hread)]
  simp only [harray, helement]
  rw [bind_of_ok (read_of_ok hn)]
  rfl

/-- When filling comes to its end, each place has been filled from its member. -/
theorem fillings_of_fillResults {index : Nat} {members : List MatchedMember} {all : Bool}
    (hm : m.Offers results slots) (hroom : index + members.length ≤ slots.length)
    (hrun : fillResults env results index members m = (.ok all, m')) :
    all = true ∧ Fillings env m ((slots.drop index).zip members) m' := by
  induction members generalizing index m with
  | nil =>
    cases hrun
    rw [List.zip_nil_right]
    exact ⟨rfl, .done _⟩
  | cons member members ih =>
    rw [List.length_cons] at hroom
    have hlt : index < slots.length := by omega
    have hslot : slots[index]? = some (slots.get ⟨index, hlt⟩) := List.getElem?_eq_getElem hlt
    unfold fillResults at hrun
    rw [bind_of_ok (resultSlot_run hm hslot)] at hrun
    obtain ⟨reflected, m₁, hreflect, hrun₁⟩ := bind_eq_ok_iff.mp hrun
    obtain ⟨_, m₂, hinit, hrun₂⟩ := bind_eq_ok_iff.mp hrun₁
    have hfirst : Fillings env m [(slots.get ⟨index, hlt⟩, member)] m₂ :=
      .next hreflect hinit (.done m₂)
    -- The array may have moved, but holds what it held.
    have hm₂ : m₂.Offers results slots := by
      refine hfirst.offers (fun other hother => ?_) hm
      rw [List.mem_singleton.mp hother]
      exact List.get_mem slots ⟨index, hlt⟩
    obtain ⟨hall, hrest⟩ := ih hm₂ (by omega) hrun₂
    rw [List.drop_eq_getElem_cons hlt, List.zip_cons_cons]
    exact ⟨hall, .next hreflect hinit hrest⟩

end Offers

/-! ## Requests -/

/-- The object behind the handle is the class object of the class. -/
def Machine.StandsFor (m : Machine) (handle : Handle) (c : Class) : Prop :=
  m.heap.read handle = .ok (.classObject c.id) ∧ m.classes.get? c.id = some c

/-- The string behind the handle has the text, or there is neither. -/
def Machine.Spelled (m : Machine) : Option Handle → Option String → Prop
  | none, none => True
  | some handle, some text => m.heap.read handle = .ok (.string text)
  | _, _ => False

/-- A request for members of the class that have the name and descriptor: an interface is
    not asked for fields, the caller is a class or missing, and the array of results holds
    different member names. -/
structure EnumerationRequest.MadeFor (r : EnumerationRequest) (m : Machine) (c : Class)
    (name signature : Option String) (slots : List Handle) : Prop where
  clazz : ∃ handle, r.clazz = some handle ∧ m.StandsFor handle c
  name : m.Spelled r.name name ∧ name ≠ some ""
  signature : m.Spelled r.signature signature ∧ signature ≠ some ""
  caller : ∀ handle, r.caller = some handle → ∃ k, m.StandsFor handle k
  fields : (c.isInterface && r.flags.fields) = false
  results : ∃ handle a, r.results = some handle ∧ m.heap.read handle = .ok (.array a) ∧
    a.elements.toList = slots.map some
  names : ∀ slot ∈ slots, ∃ n, m.heap.read slot = .ok (.memberName n)
  distinct : slots.Nodup

theorem zip_take_length {α β : Type} (as : List α) (bs : List β) :
    as.zip (bs.take as.length) = as.zip bs := by
  rw [List.zip_eq_zip_take_min, @List.zip_eq_zip_take_min _ _ as bs, List.length_take,
    List.take_take]
  congr 2 <;> omega

theorem map_fst_zip_sublist {α β : Type} (as : List α) (bs : List β) :
    ((as.zip bs).map Prod.fst).Sublist as := by
  rw [List.zip_eq_zip_take_min, List.map_fst_zip (by simp only [List.length_take]; omega)]
  exact List.take_sublist _ as

section Requests

variable {r : EnumerationRequest} {slots : List Handle}

theorem optionalString_run {handle : Option Handle} {text : Option String}
    (h : m.Spelled handle text) : optionalString handle m = (.ok text, m) := by
  match handle, text, h with
  | none, none, _ => rfl
  | some handle, some text, h =>
    show (stringValue handle >>= fun text => pure (some text)) m = _
    rw [bind_of_ok (stringValue_of_read h)]
    rfl

theorem EnumerationRequest.MadeFor.check_run (hw : m.heap.WellFormed)
    (h : r.MadeFor m c name signature slots) :
    ∃ results, r.check m = (.ok (some (c, results, slots.length)), m) ∧
      m.Offers results slots := by
  obtain ⟨clazz, hclazz, hread, hget⟩ := h.clazz
  obtain ⟨results, a, hresults, hread', hslots⟩ := h.results
  -- The checks are passed one after the other, and none of them changes the machine.
  have hcaller : r.callerFits m = (.ok true, m) := by
    unfold callerFits
    cases hcaller : r.caller with
    | none => rfl
    | some caller =>
      obtain ⟨k, hk, hk'⟩ := h.caller caller hcaller
      dsimp only
      rw [bind_of_ok (classOfObject_of_read hk hk')]
      rfl
  have hlength : a.elements.size = slots.length := by
    rw [← Array.length_toList, hslots, List.length_map]
  refine ⟨results, ?_, ?_, ?_⟩
  · unfold check
    simp only [hclazz, hresults]
    rw [bind_of_ok (classOfObject_of_read hread hget)]
    dsimp only
    rw [bind_of_ok hcaller]
    simp only [Bool.not_true, Bool.false_eq_true, if_false, h.fields]
    rw [bind_of_ok (read_of_ok hread')]
    simp only [Object.array?, hlength]
    rfl
  · exact Machine.carries_of_read hw hread' ⟨a, rfl, hslots⟩
  · intro slot hslot
    obtain ⟨n, hn⟩ := h.names slot hslot
    exact Machine.carries_of_read hw hn rfl

/-- An enumeration that comes to its end has counted all matches, and filled the places of
    the array from those behind the skipped ones. -/
theorem fillings_of_enumerateMembers {e : Enumeration} (hw : m.heap.WellFormed)
    (h : r.MadeFor m c name signature slots)
    (hrun : enumerateMembers env r m = (.ok e, m')) {members : List MatchedMember}
    (hmembers : m.classes.matchingMembers c (MemberFilter.make name signature r.flags) r.flags =
      members) :
    e = .found members.length ∧
      Fillings env m (slots.zip (members.drop r.skip.toInt.toNat)) m' := by
  obtain ⟨results, hcheck, hoffers⟩ := h.check_run hw
  -- A name or signature that is asked for is not empty, so the search is made.
  have hname : (name == some "") = false := beq_eq_false_iff_ne.mpr h.name.2
  have hsignature : (signature == some "") = false := beq_eq_false_iff_ne.mpr h.signature.2
  unfold enumerateMembers at hrun
  rw [bind_of_ok hcheck] at hrun
  dsimp only at hrun
  rw [bind_of_ok (optionalString_run h.name.1), bind_of_ok (optionalString_run h.signature.1),
    hname, hsignature] at hrun
  simp only [Bool.or_self, Bool.false_eq_true, if_false] at hrun
  rw [bind_of_ok (classes_run m), hmembers] at hrun
  obtain ⟨all, m₁, hfill, hend⟩ := bind_eq_ok_iff.mp hrun
  obtain ⟨rfl, hfillings⟩ := fillings_of_fillResults hoffers
    (by rw [List.length_take]; omega) hfill
  cases hend
  rw [List.drop_zero, zip_take_length] at hfillings
  exact ⟨rfl, hfillings⟩

end Requests

/-! ## Pages of an enumeration -/

/-- The members of a class that are asked for form one list without repetitions: the members
    of the class, then of its superclasses from the nearest on, then of its interfaces, each
    class in the order of declaration. Whichever page of it is asked for, an enumeration that
    comes to its end answers the length of the list, leaves every place of the array as
    filling it from the member that belongs there leaves it, and changes no other object. -/
theorem enumeration_pages {rule : Discipline} {m : Machine} {c : Class} (hm : m.Reachable rule)
    (hc : m.classes.get? c.id = some c) (hnumbered : ∀ k ∈ m.classes.classes, k.Numbered)
    (name signature : Option String) (flags : MatchFlags) :
    ∃ searched members, m.classes.Searches flags c searched ∧
      members = (searched.flatMap Class.members).filter (m.classes.asks name signature flags) ∧
      members.Nodup ∧
      ∀ {env : Environment} {r : EnumerationRequest} {slots : List Handle} {e : Enumeration}
        {m' : Machine}, r.MadeFor m c name signature slots → r.flags = flags →
        enumerateMembers env r m = (.ok e, m') →
        e = .found members.length ∧
        (∀ {j slot member}, slots[j]? = some slot →
          members[r.skip.toInt.toNat + j]? = some member →
          LeftFilled env m m' ((slots.zip (members.drop r.skip.toInt.toNat)).take j) slot member) ∧
        ∀ {handle object}, m.heap.read handle = .ok object →
          (∀ j, slots[j]? = some handle → members.length ≤ r.skip.toInt.toNat + j) →
          m'.heap.read handle = .ok object := by
  have hlinked := hm.started.toLinked
  have hw := hm.sound.heap
  obtain ⟨searched, hsearches, hmembers⟩ :=
    ClassTable.matchingMembers_eq hlinked hc hnumbered name signature flags
  refine ⟨searched, _, hsearches, rfl, ?_, ?_⟩
  · exact (hsearches.nodup_members hlinked hc hnumbered).filter _
  · rintro env r slots e m' hrequest rfl hrun
    obtain ⟨he, hfillings⟩ := fillings_of_enumerateMembers hw hrequest hrun hmembers
    -- Only as many places are filled as there are members left.
    have hsub := @map_fst_zip_sublist _ MatchedMember slots
    refine ⟨he, ?_, ?_⟩
    · intro j slot member hslot hmember
      refine hfillings.leftFilled ?_ (hrequest.distinct.sublist (hsub _)) ?_
      · intro slot hslot
        obtain ⟨n, hn⟩ := hrequest.names slot ((hsub _).subset hslot)
        exact Machine.carries_of_read hw hn rfl
      · rw [List.getElem?_zip_eq_some, List.getElem?_drop]
        exact ⟨hslot, hmember⟩
    · intro handle object hread hout
      refine hfillings.read_of_notMem hw hread (fun hmem => ?_)
      -- A handle among the filled places would stand in front of the end of the list.
      obtain ⟨⟨_, member⟩, hp, rfl⟩ := List.mem_map.mp hmem
      obtain ⟨j, hj⟩ := List.getElem?_of_mem hp
      rw [List.getElem?_zip_eq_some, List.getElem?_drop] at hj
      have hlt := (List.getElem?_eq_some_iff.mp hj.2).1
      have hle := hout j hj.1
      omega

/-- Of four methods the first one is skipped, and the next two fill the array. -/
theorem portrait_page_filled :
    ∃ m m' first second third fourth, m.Reachable (fun _ {_} _ => True) ∧
      enumerateMembers Sample.env Sample.hanging m = (.ok (.found 4), m') ∧
      [first, second, third, fourth].Nodup ∧
      LeftFilled Sample.env m m' [] ⟨38⟩ second ∧
      LeftFilled Sample.env m m' [(⟨38⟩, second)] ⟨37⟩ third ∧
      m'.heap.read ⟨36⟩ = .ok (.string "hang") := by
  obtain ⟨m, c, hm, hc, hid, ⟨hclass, hnumbered⟩, _,
    ⟨hobject, hname, hname₁, hname₂, hresults, _⟩, _, hfound⟩ :=
    @Sample.exists_gallery (fun _ {_} _ => True) (fun _ => trivial) (fun _ _ _ => trivial)
  rw [hc] at hclass
  simp only [Option.map_some, Option.some.injEq, Prod.mk.injEq] at hclass
  -- The request is one for the class of the sample, with an array of two places.
  have hstands : m.StandsFor ⟨35⟩ c := by
    unfold Machine.StandsFor
    rw [hid]
    exact ⟨hobject.eq_ok, hc⟩
  have hrequest : Sample.hanging.MadeFor m c (some "hang") none [⟨38⟩, ⟨37⟩] :=
    { clazz := ⟨_, rfl, hstands⟩
      name := ⟨hname.eq_ok, by decide⟩
      signature := ⟨trivial, by decide⟩
      caller := fun handle hcaller => ⟨c, Option.some.inj hcaller ▸ hstands⟩
      fields := by rw [hclass.1]; rfl
      results := ⟨_, _, rfl, hresults.eq_ok, rfl⟩
      names := by
        intro slot hslot
        rcases List.mem_pair.mp hslot with rfl | rfl
        · exact ⟨_, hname₂.eq_ok⟩
        · exact ⟨_, hname₁.eq_ok⟩
      distinct := by decide }
  have hrun : enumerateMembers Sample.env Sample.hanging m =
      (.ok (.found 4), (enumerateMembers Sample.env Sample.hanging m).2) := by
    rw [← hfound.eq_ok]
  obtain ⟨searched, members, _, _, hnodup, hpages⟩ :=
    enumeration_pages hm (hid ▸ hc) hnumbered (some "hang") none Sample.hanging.flags
  obtain ⟨hcount, hfilled, hothers⟩ := hpages hrequest rfl hrun
  obtain ⟨first, second, third, fourth, rfl⟩ :
      ∃ first second third fourth, members = [first, second, third, fourth] := by
    have hlength : members.length = 4 := (Enumeration.found.inj hcount).symm
    match members, hlength with
    | [first, second, third, fourth], _ => exact ⟨first, second, third, fourth, rfl⟩
  have hplaces : ∀ j : Nat, ([⟨38⟩, ⟨37⟩] : List Handle)[j]? ≠ some (⟨36⟩ : Handle) := by
    intro j hj
    exact absurd (List.mem_of_getElem? hj) (by decide)
  exact ⟨m, _, first, second, third, fourth, hm, hrun, hnodup, hfilled (j := 0) rfl rfl,
    hfilled (j := 1) rfl rfl, hothers hname.eq_ok (fun j hj => absurd hj (hplaces j))⟩

end Linkage
