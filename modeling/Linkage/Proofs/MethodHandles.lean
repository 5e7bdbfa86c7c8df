import Linkage.Proofs.Accessibility
import Linkage.Proofs.ConstantOrigins

/-! # Method handles of constants

    A method handle constant has a kind and refers to a field or method reference. The
    member of the handle is found by the reference, the kind is copied. Nothing checks that
    the two go together, so a handle can have the kind of a call and a field as its member.

    * `Machine.Resolved`: what a member name has been resolved to.
    * `MemberRef.FoundBy`: how the member fits the kinds by which it was looked for.
    * `Machine.MadeFor`: a method handle that has been made for a constant. -/

namespace Linkage

open Link

/-- The reference is to a static member. -/
def ReferenceKind.isStatic : ReferenceKind → Bool
  | .getStatic => true
  | .putStatic => true
  | .invokeStatic => true
  | _ => false

/-- The member name has been resolved to a member that exists. -/
structure Machine.Resolved (m : Machine) (mn : Handle) (n : MemberName) (member : MemberRef)
    (isStatic : Bool) : Prop where
  read : m.heap.read mn = .ok (.memberName n)
  identity : m.members.get? n.vmindex = some member
  static : m.classes.isStatic? member = some isStatic

/-- The member, static or not, is one that a reference of the given kinds finds. A field
    is found whichever kind of reference was given, and `n` has the one that fits the field. -/
inductive MemberRef.FoundBy (kind : MemberKind) (referenceKind : ReferenceKind) (n : MemberName)
    (isStatic : Bool) : MemberRef → Prop where
  | field (r : FieldRef) (kind_eq : kind = .field)
      (fitted : n.decoded.referenceKind = some (referenceKind.forField isStatic)) :
      FoundBy kind referenceKind n isStatic (.field r)
  | method (r : MethodRef) (kind_ne : kind ≠ .field)
      (static : referenceKind = .invokeStatic ↔ isStatic = true) :
      FoundBy kind referenceKind n isStatic (.method r)

variable {rule : Discipline} {env : Environment} {m m' : Machine} {mn : Handle} {n : MemberName}
  {c : Class} {speculative : Bool}

/-! ## Resolution -/

/-- The member that was found is stored after its declaration has been looked up. -/
theorem resolved_of_found {δ : Type} (member : MemberRef) {owner : ClassId}
    {declared : Class → Option δ} {e : LinkError} {flags : Class → δ → MemberFlags}
    {target : δ → Nat} {isStatic : Bool} (hw : m.heap.WellFormed)
    (hmn : m.heap.read mn = .ok (.memberName n))
    (hstatic : m.classes.isStatic? member = some isStatic)
    (h : (do
      let declaring ← classAt owner
      let d ← orFail (declared declaring) e
      commitMember mn (flags declaring d) declaring.classObject member (target d)
      pure true : Link Bool) m = (.ok true, m')) :
    ∃ n' declaring d, m'.Resolved mn n' member isStatic ∧
      n'.decoded = flags declaring d := by
  obtain ⟨declaring, m₁, hdeclaring, hlookup⟩ := bind_eq_ok_iff.mp h
  have hgoes : Goes (fun _ {_} _ => True) (classAt owner) m _ := goes_classAt owner
  obtain ⟨rfl, -⟩ := hgoes.2 _ _ hdeclaring
  obtain ⟨d, m₂, hd, hcommit⟩ := bind_eq_ok_iff.mp hlookup
  obtain ⟨-, rfl⟩ := orFail_eq_ok_iff.mp hd
  obtain ⟨heap, hrun, hread⟩ :=
    commitMember_run hw hmn (flags declaring d) declaring.classObject member (target d)
  rw [bind_of_ok hrun] at hcommit
  cases hcommit
  exact ⟨_, declaring, d, ⟨hread, MemberRegistry.get?_identify _ member, hstatic⟩,
    MemberFlags.decode_encode _⟩

theorem resolved_of_resolveMethod {kind : MemberKind} {name signature : String}
    {referenceKind : ReferenceKind} {caller : Option Class} (hw : m.heap.WellFormed)
    (hmn : m.heap.read mn = .ok (.memberName n)) (hkind : kind ≠ .field)
    (h : resolveMethod mn c kind name signature referenceKind caller speculative m =
      (.ok true, m')) :
    ∃ n' member isStatic, m'.Resolved mn n' member isStatic ∧
      member.FoundBy kind referenceKind n' isStatic := by
  unfold resolveMethod at h
  by_cases hfits : kind.fits name = true
  · simp only [hfits, Bool.not_true, Bool.false_eq_true, if_false] at h
    rw [bind_of_ok (classes_run m)] at h
    obtain ⟨found, m₁, hfound, hstore⟩ := bind_eq_ok_iff.mp h
    obtain ⟨hlink, rfl⟩ := ofExcept_eq_ok_iff.mp hfound
    cases found with
    | none => cases hstore
    | some r =>
      -- The search only gives methods that are static or not as the kind of call asks for.
      obtain ⟨method, hmethod, hstatic⟩ := ClassTable.linkMethod_found hlink
      have hdeclared : m₁.classes.isStatic? (.method r) = some method.isStatic := by
        simp [ClassTable.isStatic?, hmethod]
      obtain ⟨n', _, _, hresolved, -⟩ := resolved_of_found (.method r) hw hmn hdeclared hstore
      exact ⟨n', .method r, method.isStatic, hresolved, .method r hkind hstatic⟩
  · rw [Bool.not_eq_true] at hfits
    simp only [hfits, Bool.not_false, if_true] at h
    cases h

theorem resolved_of_resolveField {name signature : String} {referenceKind : ReferenceKind}
    {caller : Option Class} (hw : m.heap.WellFormed)
    (hmn : m.heap.read mn = .ok (.memberName n))
    (h : resolveField mn c name signature referenceKind caller speculative m = (.ok true, m')) :
    ∃ n' member isStatic, m'.Resolved mn n' member isStatic ∧
      member.FoundBy .field referenceKind n' isStatic := by
  unfold resolveField at h
  rw [bind_of_ok (classes_run m)] at h
  obtain ⟨found, m₁, hfound, hstore⟩ := bind_eq_ok_iff.mp h
  obtain ⟨hlink, rfl⟩ := ofExcept_eq_ok_iff.mp hfound
  cases found with
  | none => cases hstore
  | some result =>
    obtain ⟨r, fitted⟩ := result
    -- The kind is fitted to the field that was found, whatever the constant said.
    obtain ⟨f, hf, hfitted⟩ := ClassTable.linkField_found hlink
    have hdeclared : m₁.classes.isStatic? (.field r) = some f.isStatic := by
      simp [ClassTable.isStatic?, hf]
    obtain ⟨n', _, f', hresolved, hflags⟩ := resolved_of_found (.field r) hw hmn hdeclared hstore
    refine ⟨n', .field r, f.isStatic, hresolved, .field r rfl ?_⟩
    rw [hflags, ← hfitted]
    rfl

/-- A question that is answered has found a member by its kinds. -/
theorem MemberQuestion.resolved_of_answer {q : MemberQuestion} {caller : Option Class}
    (hw : m.heap.WellFormed) (hmn : m.heap.read mn = .ok (.memberName n))
    (h : q.answer mn caller speculative m = (.ok true, m')) :
    ∃ n' member isStatic, m'.Resolved mn n' member isStatic ∧
      member.FoundBy q.kind q.referenceKind n' isStatic := by
  unfold answer at h
  cases hkind : q.kind with
  | method =>
    rw [hkind] at h
    exact resolved_of_resolveMethod hw hmn (by simp) h
  | constructor =>
    rw [hkind] at h
    exact resolved_of_resolveMethod hw hmn (by simp) h
  | field =>
    rw [hkind] at h
    exact resolved_of_resolveField hw hmn h
  | type =>
    rw [hkind] at h
    cases h

/-- Resolving a member name that was not resolved before finds a member by the kinds in its
    flags. -/
theorem resolved_of_resolveMemberName {caller : Option Handle} (hm : m.Sound)
    (hmn : m.heap.read mn = .ok (.memberName n)) (hunresolved : n.vmtarget = 0)
    (h : resolveMemberName mn caller speculative m = (.ok (some mn), m')) :
    ∃ n' member isStatic kind referenceKind, m'.Resolved mn n' member isStatic ∧
      n.decoded.kind = some kind ∧ n.decoded.referenceKind = some referenceKind ∧
      member.FoundBy kind referenceKind n' isStatic := by
  obtain ⟨-, hconfirmed⟩ := resolveMemberName_eq_some_iff.mp h
  obtain ⟨k, hk⟩ := callerClass_of_confirmed hmn hunresolved hconfirmed
  rw [resolveMember_eq hmn hunresolved hk] at hconfirmed
  unfold MemberName.ask at hconfirmed
  obtain ⟨found, m₁, hquestion, hanswer⟩ := bind_eq_ok_iff.mp hconfirmed
  cases found with
  | none => cases hanswer
  | some q =>
    -- Reading the question leaves the member name where it is.
    have hchanges : Changes (fun _ {_} _ => False) m m₁ := (changing_question n).of_run hquestion
    obtain ⟨n₁, hn₁⟩ := hchanges.memberName_stays hm.heap hmn
    obtain ⟨n', member, isStatic, hresolved, hfound⟩ :=
      MemberQuestion.resolved_of_answer (hchanges.sound hm).heap hn₁ hanswer
    obtain ⟨hkind, hreferenceKind⟩ := MemberName.question_kinds hquestion
    exact ⟨n', member, isStatic, q.kind, q.referenceKind, hresolved, hkind, hreferenceKind, hfound⟩

/-! ## Making a handle -/

/-- A method handle, and the member that its member name has been resolved to. -/
structure Machine.HandleTo (m : Machine) (handle : Handle) (stored : MethodHandle)
    (n : MemberName) (member : MemberRef) (isStatic : Bool) : Prop where
  read : m.heap.read handle = .ok (.methodHandle stored)
  resolved : m.Resolved stored.member n member isStatic

/-- The member is one that a method handle constant leads to, if it has the given kind and
    refers to the given entry. -/
def MemberRef.NamedBy (kind : ReferenceKind) (entry : PoolEntry) (n : MemberName)
    (isStatic : Bool) (member : MemberRef) : Prop :=
  ∃ memberKind, (memberKind = .field ↔ entry.tag? = some .fieldref) ∧
    member.FoundBy memberKind kind n isStatic

/-- The kind of member that a reference names. -/
theorem memberReferenceAt_eq_ok {index : UInt16} {kind : MemberKind} {r : SymbolicRef}
    (h : memberReferenceAt c index m = (.ok (kind, r), m')) :
    m' = m ∧ ∃ entry, c.pool.get? index = some entry ∧
      (kind = .field ↔ entry.tag? = some .fieldref) := by
  obtain ⟨entry, m₁, hentry, hkind⟩ := bind_eq_ok_iff.mp h
  obtain ⟨hget, rfl⟩ := orFail_eq_ok_iff.mp hentry
  -- Neither kind of method reference gives a field.
  have hmethod : ∀ r, memberReferenceAt.methodKind r ≠ .field := by
    intro r
    unfold memberReferenceAt.methodKind
    split <;> simp
  cases entry with
  | fieldref r =>
    cases hkind
    exact ⟨rfl, _, hget, by simp [PoolEntry.tag?]⟩
  | methodref r =>
    cases hkind
    exact ⟨rfl, _, hget, by simp [PoolEntry.tag?, hmethod]⟩
  | interfaceMethodref r =>
    cases hkind
    exact ⟨rfl, _, hget, by simp [PoolEntry.tag?, hmethod]⟩
  | _ => cases hkind

/-- A new object is read back. -/
theorem stored_of_allocate {handle : Handle} {object : Object} (hm : m.Sound)
    (h : allocate object m = (.ok handle, m')) (hplain : object.Plain) :
    m'.heap.read handle = .ok object ∧ m'.Sound := by
  have hgoes : Goes (fun _ {_} _ => False) (allocate object) m _ := goes_allocate hm.heap hplain
  obtain ⟨hchanges, hstored⟩ := hgoes
  rw [h] at hchanges
  exact ⟨hstored _ _ h, hchanges.sound hm⟩

/-- Storing an object leaves the other objects alone. -/
theorem read_of_allocate (hw : m.heap.WellFormed) {handle handle' : Handle} {object stored : Object}
    (hread : m.heap.read handle = .ok object) (h : allocate stored m = (.ok handle', m')) :
    m'.heap.read handle = .ok object := by
  have hw' := Heap.wellFormed_allocate hw stored
  have hheap : m'.heap = (m.heap.allocate stored).2 := by
    have hmachine := allocate_run stored m
    rw [h] at hmachine
    exact congrArg Machine.heap hmachine
  rw [hheap, Heap.read_eq_ok_iff hw']
  have hobject := (Heap.read_eq_ok_iff hw handle object).mp hread
  rcases Heap.allocate_cases hw stored with ⟨_, hobjects⟩ | ⟨fresh, _, hfree, hobjects⟩
  · rw [hobjects]
    exact hobject
  · -- The new object is where no object was.
    have hne : handle ≠ fresh := by
      rintro rfl
      rw [hobject] at hfree
      cases hfree
    rw [hobjects, Function.update_of_ne hne]
    exact hobject

theorem Machine.Resolved.of_allocate {member : MemberRef} {isStatic : Bool} {handle : Handle}
    {stored : Object} (h : m.Resolved mn n member isStatic) (hw : m.heap.WellFormed)
    (hallocate : allocate stored m = (.ok handle, m')) : m'.Resolved mn n member isStatic := by
  have hmachine := allocate_run stored m
  rw [hallocate] at hmachine
  refine ⟨read_of_allocate hw h.read hallocate, ?_, ?_⟩
  · rw [congrArg Machine.members hmachine]
    exact h.identity
  · rw [congrArg Machine.classes hmachine]
    exact h.static

namespace MemberRef.NamedBy

variable {kind : ReferenceKind} {entry : PoolEntry} {member : MemberRef} {isStatic : Bool}

/-- The reference alone says whether the member is a field. -/
theorem isField_iff (h : member.NamedBy kind entry n isStatic) :
    member.isField = true ↔ entry.tag? = some .fieldref := by
  obtain ⟨memberKind, htag, hfound⟩ := h
  rw [← htag]
  cases hfound with
  | field r kind_eq _ => simp [MemberRef.isField, kind_eq]
  | method r kind_ne _ => simp [MemberRef.isField, kind_ne]

theorem static_method (h : member.NamedBy kind entry n isStatic)
    (hmethod : member.isField = false) :
    kind = .invokeStatic ↔ isStatic = true := by
  obtain ⟨memberKind, _, hfound⟩ := h
  cases hfound with
  | field r _ _ => cases hmethod
  | method r _ static => exact static

theorem fitted_field (h : member.NamedBy kind entry n isStatic) (hfield : member.isField = true) :
    n.decoded.referenceKind = some (kind.forField isStatic) := by
  obtain ⟨memberKind, _, hfound⟩ := h
  cases hfound with
  | field r _ fitted => exact fitted
  | method r _ _ => cases hfield

end MemberRef.NamedBy

/-! ## Resolving a constant -/

/-- On the machine, a method handle has just been made for a constant with the given kind
    and reference. -/
structure Machine.MadeFor (made : Machine) (c : Class) (kind : ReferenceKind) (reference : UInt16)
    (handle : Handle) (entry : PoolEntry) (stored : MethodHandle) (n : MemberName)
    (member : MemberRef) (isStatic : Bool) : Prop where
  found : c.pool.get? reference = some entry
  kind_eq : stored.kind = kind
  made : made.HandleTo handle stored n member isStatic
  named : member.NamedBy kind entry n isStatic

/-- A new method handle has the kind of the constant, and the member that the reference
    leads to. -/
theorem madeFor_of_newMethodHandle {kind : ReferenceKind} {reference : UInt16} {handle : Handle}
    (hm : m.Sound) (h : newMethodHandle env c kind reference m = (.ok handle, m')) :
    ∃ entry stored n member isStatic,
      m'.MadeFor c kind reference handle entry stored n member isStatic := by
  obtain ⟨⟨memberKind, r⟩, m₁, hreference, hclass⟩ := bind_eq_ok_iff.mp h
  obtain ⟨rfl, entry, hentry, hkind⟩ := memberReferenceAt_eq_ok hreference
  obtain ⟨clazz, m₂, hclazz, hname⟩ := bind_eq_ok_iff.mp hclass
  obtain ⟨name, m₃, hintern, htype⟩ := bind_eq_ok_iff.mp hname
  obtain ⟨type, m₄, hintern', hfresh⟩ := bind_eq_ok_iff.mp htype
  obtain ⟨mn, m₅, hallocate, hresolve⟩ := bind_eq_ok_iff.mp hfresh
  obtain ⟨resolved, m₆, hresolved, hhandle⟩ := bind_eq_ok_iff.mp hresolve
  -- The actions before the member name is stored keep the machine sound.
  have hlinks : Links env.mute (resolveClassConstant env c r.owner) := by
    rw [← resolveClassConstant_mute]
    exact links_resolveClassConstant c r.owner
  have hsound₄ : m₄.Sound := by
    have hchanges : Changes (fun _ {_} _ => False) m₁ m₄ :=
      ((changing_of_links hlinks).of_run hclazz).trans
        (((changing_intern r.name).of_run hintern).trans
          ((changing_intern r.descriptor).of_run hintern'))
    exact hchanges.sound hm
  obtain ⟨hmn, hsound₅⟩ := stored_of_allocate hsound₄ hallocate ⟨rfl, rfl⟩
  cases resolved with
  | none => cases hhandle
  | some mn' =>
    obtain ⟨rfl, -⟩ := resolveMemberName_eq_some_iff.mp hresolved
    obtain ⟨n, member, isStatic, memberKind', kind', hresolved₆, hmemberKind', hkind', hfound⟩ :=
      resolved_of_resolveMemberName hsound₅ hmn rfl hresolved
    simp only [MemberName.decoded, MemberFlags.decode_encode, MemberFlags.make,
      Option.some.injEq] at hmemberKind' hkind'
    subst hmemberKind' hkind'
    have hchanges₆ : Changes (fun _ {_} _ => False) m₅ m₆ :=
      (changing_resolveMemberName mn' _ _).of_run hresolved
    have hsound₆ := hchanges₆.sound hsound₅
    have hnew := (stored_of_allocate hsound₆ hhandle trivial).1
    exact ⟨entry, { kind, member := mn' }, n, member, isStatic, hentry, rfl,
      ⟨hnew, hresolved₆.of_allocate hsound₆.heap hhandle⟩, memberKind, hkind, hfound⟩

variable {kind : ReferenceKind} {reference index : UInt16} {handle : Handle}

/-- A method handle that is made on first use. -/
theorem madeFor_of_memoize (hm : m.Sound)
    (hentry : c.pool.get? index = some (.methodHandle kind reference))
    (hempty : m.memos.lookup ⟨c.id, index⟩ = none)
    (h : memoize ⟨c.id, index⟩ (newMethodHandle env c kind reference) m = (.ok handle, m')) :
    ∃ entry stored n member isStatic,
      m'.MadeFor c kind reference handle entry stored n member isStatic := by
  have hkept : (newMethodHandle env c kind reference m).2.memos.lookup ⟨c.id, index⟩ = none := by
    have hmute : newMethodHandle env.mute c kind reference =
        newMethodHandle env c kind reference := by
      simp [newMethodHandle]
    rw [← hmute]
    exact lookup_computation
      (rfl : (PoolEntry.methodHandle kind reference).computation? env.mute 0 c index = some _)
      (fun _ hinvoke => by cases hinvoke) hentry hempty
  rw [memoize_run hempty hkept] at h
  cases hnew : newMethodHandle env c kind reference m with
  | mk result m₁ =>
    rw [hnew] at h
    cases result with
    | error e => cases h
    | ok value =>
      cases h
      obtain ⟨entry, stored, n, member, isStatic, hmade⟩ := madeFor_of_newMethodHandle hm hnew
      -- Remembering the handle changes neither the heap nor the members and classes.
      exact ⟨entry, stored, n, member, isStatic, hmade.found, hmade.kind_eq,
        ⟨hmade.made.read, hmade.made.resolved.read, hmade.made.resolved.identity,
          hmade.made.resolved.static⟩, hmade.named⟩

/-- A method handle that is remembered was made before. -/
theorem madeFor_of_computed (hc : m.classes.get? c.id = some c)
    (hentry : c.pool.get? index = some (.methodHandle kind reference))
    (h : m.Computed rule ⟨c.id, index⟩ handle) :
    ∃ made entry stored n member isStatic,
      made.MadeFor c kind reference handle entry stored n member isStatic ∧
      Changes rule made m := by
  obtain ⟨env', bound, compute, before, after, hsound, hcompute, hmade, hlater⟩ :=
    h.of_class hc hentry
  cases hcompute
  obtain ⟨entry, stored, n, member, isStatic, hparts⟩ := madeFor_of_newMethodHandle hsound hmade
  exact ⟨after, entry, stored, n, member, isStatic, hparts, hlater⟩

/-- The method handle of a constant is made on first use, and found again later. -/
theorem madeFor_of_resolveMethodHandleConstant (h : m.Reachable rule)
    (hc : m.classes.get? c.id = some c)
    (hrun : resolveMethodHandleConstant env c index m = (.ok handle, m')) :
    ∃ kind reference made entry stored n member isStatic,
      c.pool.get? index = some (.methodHandle kind reference) ∧
      made.MadeFor c kind reference handle entry stored n member isStatic ∧
      Changes rule made m' ∧ (m.memos.lookup ⟨c.id, index⟩ = none → made = m') := by
  obtain ⟨entry, m₁, hconstant, honce⟩ := bind_eq_ok_iff.mp hrun
  obtain ⟨hentry, rfl⟩ := orFail_eq_ok_iff.mp hconstant
  cases entry with
  | methodHandle kind reference =>
    have honce : memoize ⟨c.id, index⟩ (newMethodHandle env c kind reference) m₁ =
      (.ok handle, m') := honce
    cases hmemo : m₁.memos.lookup ⟨c.id, index⟩ with
    | none =>
      obtain ⟨entry, stored, n, member, isStatic, hmade⟩ :=
        madeFor_of_memoize h.sound hentry hmemo honce
      exact ⟨kind, reference, m', entry, stored, n, member, isStatic, hentry, hmade,
        Changes.refl m', fun _ => rfl⟩
    | some value =>
      -- The handle was made before, and where it comes from is recorded.
      rw [memoize_of_lookup hmemo] at honce
      cases honce
      obtain ⟨made, entry, stored, n, member, isStatic, hmade, hlater⟩ :=
        madeFor_of_computed hc hentry (h.recorded.computed _ _ hmemo)
      exact ⟨kind, reference, made, entry, stored, n, member, isStatic, hentry, hmade, hlater,
        fun hnone => by cases hnone⟩
  | _ => cases honce

/-- Kinds of method handles: for every machine that a run reaches and every method handle
    constant that is resolved, the handle got the kind of the constant and a member that
    exists. The member is a field exactly if the constant refers to a field reference, so the
    handle has the kind of a field access exactly if its member is a field, provided the kind
    of the constant fits its reference. A method is static exactly if the kind is that of a
    static call. For a field, it is the reference kind in the member name that fits. -/
theorem methodHandle_kind_fits (h : m.Reachable rule) (hc : m.classes.get? c.id = some c)
    (hrun : resolveMethodHandleConstant env c index m = (.ok handle, m')) :
    ∃ kind reference entry made stored n member isStatic,
      c.pool.get? index = some (.methodHandle kind reference) ∧
      c.pool.get? reference = some entry ∧
      Machine.HandleTo made handle stored n member isStatic ∧ Changes rule made m' ∧
      (m.memos.lookup ⟨c.id, index⟩ = none → made = m') ∧ stored.kind = kind ∧
      (member.isField = true ↔ entry.tag? = some .fieldref) ∧
      ((kind.isField = true ↔ entry.tag? = some .fieldref) →
        (stored.kind.isField = true ↔ member.isField = true)) ∧
      (member.isField = false → (stored.kind = .invokeStatic ↔ isStatic = true)) ∧
      (member.isField = true → ∃ fitted, n.decoded.referenceKind = some fitted ∧
        fitted.isField = true ∧ fitted.isPut = kind.isPut ∧ fitted.isStaticField = isStatic) := by
  obtain ⟨kind, reference, made, entry, stored, n, member, isStatic, hentry, hmade, hlater,
    hfresh⟩ := madeFor_of_resolveMethodHandleConstant h hc hrun
  obtain ⟨hreference, rfl, hhandle, hnamed⟩ := hmade
  have hfield := hnamed.isField_iff
  refine ⟨stored.kind, reference, entry, made, stored, n, member, isStatic, hentry, hreference,
    hhandle, hlater, hfresh, rfl, hfield, ?_, hnamed.static_method, ?_⟩
  · intro hfits
    rw [hfits, hfield]
  · intro hisField
    refine ⟨stored.kind.forField isStatic, hnamed.fitted_field hisField, ?_, ?_, ?_⟩
    · exact ReferenceKind.forField_isField _ _
    · cases stored.kind <;> cases isStatic <;> rfl
    · exact ReferenceKind.forField_isStaticField _ _

/-- The method handle that a constant of the sample is resolved to. -/
theorem Sample.handleTo_of_handleOfVault {vault : Class} (hvault : m.classes.get? 33 = some vault)
    {member : MemberRef} {isStatic : Bool}
    (h : Sample.handleOfVault m index = some (kind, member, isStatic)) :
    ∃ handle m' stored n, resolveMethodHandleConstant Sample.env vault index m = (.ok handle, m') ∧
      Machine.HandleTo m' handle stored n member isStatic ∧ stored.kind = kind := by
  unfold Sample.handleOfVault at h
  rw [hvault] at h
  dsimp only at h
  split at h
  · cases h
  rename_i handle m' hrun
  split at h
  · rename_i stored hstored
    split at h
    · rename_i n hn
      obtain ⟨member', hmember, h⟩ := Option.bind_eq_some_iff.mp h
      obtain ⟨isStatic', hstatic, h⟩ := Option.bind_eq_some_iff.mp h
      cases h
      exact ⟨handle, m', stored, n, hrun, ⟨hstored, hn, hmember, hstatic⟩, rfl⟩
    · cases h
  · cases h

theorem vault_methodHandle_fits :
    ∃ (m m' made : Machine) (vault : Class) (handle : Handle) (kind : ReferenceKind)
      (reference : UInt16) (entry : PoolEntry) (stored : MethodHandle) (n : MemberName)
      (member : MemberRef) (isStatic : Bool),
      m.Reachable (fun _ {_} _ => True) ∧ m.classes.get? vault.id = some vault ∧
      resolveMethodHandleConstant Sample.env vault 18 m = (.ok handle, m') ∧
      vault.pool.get? 18 = some (.methodHandle kind reference) ∧
      vault.pool.get? reference = some entry ∧
      made.HandleTo handle stored n member isStatic ∧ Changes (fun _ {_} _ => True) made m' ∧
      stored.kind = kind ∧ (member.isField = true ↔ entry.tag? = some .fieldref) ∧
      ((kind.isField = true ↔ entry.tag? = some .fieldref) →
        (stored.kind.isField = true ↔ member.isField = true)) := by
  obtain ⟨m, vault, thief, hm⟩ := Sample.exists_robbed
  have hid : vault.id = 33 := congrArg (fun shape => shape.1) hm.shape
  have hvault : m.classes.get? vault.id = some vault := by
    rw [hid]
    exact hm.get_vault
  have hhandle : Sample.handleOfVault m 18 = some (.getStatic, .field ⟨33, 1⟩, true) :=
    congrArg (fun handles => handles.head?.join) hm.handles
  obtain ⟨handle, m', _, _, hrun, _, _⟩ := Sample.handleTo_of_handleOfVault hm.get_vault hhandle
  obtain ⟨kind, reference, entry, made, stored, n, member, isStatic, hentry, hreference, hto,
    hlater, _, hkind, hfield, hfits, _, _⟩ := methodHandle_kind_fits hm.reachable hvault hrun
  exact ⟨m, m', made, vault, handle, kind, reference, entry, stored, n, member, isStatic,
    hm.reachable, hvault, hrun, hentry, hreference, hto, hlater, hkind, hfield, hfits⟩

/-- Nothing makes the kind of a method handle fit its member: a field can be behind the kind of
    a call, a static field behind the kind of an instance field, and an instance method behind
    the kind of a static field. -/
theorem methodHandle_kind_unchecked :
    ∃ (m : Machine) (vault : Class), m.Reachable (fun _ {_} _ => True) ∧
      m.classes.get? vault.id = some vault ∧
      (∃ handle m' stored n member isStatic,
        resolveMethodHandleConstant Sample.env vault 19 m = (.ok handle, m') ∧
        Machine.HandleTo m' handle stored n member isStatic ∧
        ¬ (stored.kind.isField = true ↔ member.isField = true)) ∧
      ∀ index ∈ [(20 : UInt16), 21], ∃ handle m' stored n member isStatic,
        resolveMethodHandleConstant Sample.env vault index m = (.ok handle, m') ∧
        Machine.HandleTo m' handle stored n member isStatic ∧
        ¬ (stored.kind.isStatic = true ↔ isStatic = true) := by
  -- The sample resolves three such constants.
  obtain ⟨m, vault, thief, hm⟩ := Sample.exists_robbed
  have hid : vault.id = 33 := congrArg (fun shape => shape.1) hm.shape
  have hhandles := hm.handles
  simp only [List.map_cons, List.map_nil, List.cons.injEq, and_true] at hhandles
  obtain ⟨-, hcall, hinstance, hmethod⟩ := hhandles
  refine ⟨m, vault, hm.reachable, by rw [hid]; exact hm.get_vault, ?_, ?_⟩
  · obtain ⟨handle, m', stored, n, hrun, hto, hkind⟩ :=
      Sample.handleTo_of_handleOfVault hm.get_vault hcall
    exact ⟨handle, m', stored, n, _, _, hrun, hto, by rw [hkind]; decide⟩
  · intro index hindex
    simp only [List.mem_cons, List.not_mem_nil, or_false] at hindex
    rcases hindex with rfl | rfl
    · obtain ⟨handle, m', stored, n, hrun, hto, hkind⟩ :=
        Sample.handleTo_of_handleOfVault hm.get_vault hinstance
      exact ⟨handle, m', stored, n, _, _, hrun, hto, by rw [hkind]; decide⟩
    · obtain ⟨handle, m', stored, n, hrun, hto, hkind⟩ :=
        Sample.handleTo_of_handleOfVault hm.get_vault hmethod
      exact ⟨handle, m', stored, n, _, _, hrun, hto, by rw [hkind]; decide⟩

end Linkage
