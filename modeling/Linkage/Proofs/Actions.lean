import Linkage.Machine.Store

/-! # Laws of actions

    How the combinators and the elementary actions run, one law each. Later proofs
    use these and do not unfold an action. A place that is asked for and used at
    once is never seen: `resolve` followed by `readAt` is `read`, and followed by
    `updateAt` it is `update`.

    * `Link.Keeps P x`: where `P` holds of the machine, it still does after `x`.
    * `Link.Bars P x`: besides, `x` does not end with a value there. -/

namespace Linkage

/-- The table with one more class, under the name of the class. -/
def ClassTable.push (t : ClassTable) (c : Class) : ClassTable :=
  t.insert c.name c rfl

@[simp] theorem ClassTable.classes_push (t : ClassTable) (c : Class) :
    (t.push c).classes = t.classes.push c := rfl

theorem ClassTable.get?_push_size (t : ClassTable) (c : Class) :
    (t.push c).get? t.size = some c :=
  Array.getElem?_push_size

namespace Link

variable {α β : Type}

/-! ## Combinators -/

@[simp] theorem pure_run (a : α) (m : Machine) : (pure a : Link α) m = (.ok a, m) := rfl

theorem bind_run (x : Link α) (f : α → Link β) (m : Machine) :
    (x >>= f) m =
      match x m with
      | (.ok a, m) => f a m
      | (.error e, m) => (.error e, m) := rfl

theorem bind_of_ok {x : Link α} {a : α} {m m' : Machine} (h : x m = (.ok a, m'))
    (f : α → Link β) : (x >>= f) m = f a m' := by
  rw [bind_run, h]

theorem bind_of_error {x : Link α} {e : Failure} {m m' : Machine} (h : x m = (.error e, m'))
    (f : α → Link β) : (x >>= f) m = (.error e, m') := by
  rw [bind_run, h]

/-- A sequence of two actions fails with the first one or goes on with its value. -/
theorem bind_cases (x : Link α) (f : α → Link β) (m : Machine) :
    (∃ e m', x m = (.error e, m') ∧ (x >>= f) m = (.error e, m')) ∨
      ∃ a m', x m = (.ok a, m') ∧ (x >>= f) m = f a m' := by
  cases hx : x m with
  | mk result m' =>
    cases result with
    | error e => exact Or.inl ⟨e, m', rfl, bind_of_error hx f⟩
    | ok a => exact Or.inr ⟨a, m', rfl, bind_of_ok hx f⟩

/-- A sequence that ends with a value went through a value of its first action. -/
theorem bind_eq_ok_iff {x : Link α} {f : α → Link β} {m m'' : Machine} {b : β} :
    (x >>= f) m = (.ok b, m'') ↔ ∃ a m', x m = (.ok a, m') ∧ f a m' = (.ok b, m'') := by
  rcases bind_cases x f m with ⟨e, m', hx, hb⟩ | ⟨a, m', hx, hb⟩
  · simp [hx, hb]
  · constructor
    · intro h
      exact ⟨a, m', hx, hb ▸ h⟩
    · rintro ⟨a', m₁, h₁, h₂⟩
      rw [hx, Prod.mk.injEq, Except.ok.injEq] at h₁
      obtain ⟨rfl, rfl⟩ := h₁
      rw [hb, h₂]

@[simp] theorem failWith_run (e : Failure) (m : Machine) :
    (failWith e : Link α) m = (.error e, m) := rfl

@[simp] theorem fail_run (e : LinkError) (m : Machine) :
    (fail e : Link α) m = (.error (.thrown e), m) := rfl

@[simp] theorem orFail_some (a : α) (e : LinkError) : orFail (some a) e = pure a := rfl

theorem orFail_eq_ok_iff {o : Option α} {e : LinkError} {a : α} {m m' : Machine} :
    orFail o e m = (.ok a, m') ↔ o = some a ∧ m' = m := by
  cases o <;> simp [orFail, eq_comm]

theorem map_run (g : α → β) (x : Link α) (m : Machine) :
    (g <$> x) m = ((x m).1.map g, (x m).2) := by
  show (x >>= fun a => pure (g a)) m = _
  rw [bind_run]
  cases x m with
  | mk result m' => cases result <;> rfl

@[simp] theorem ofExcept_ok (a : α) : ofExcept (.ok a) = pure a := rfl

theorem ofExcept_eq_ok_iff {r : Except LinkError α} {a : α} {m m' : Machine} :
    Link.ofExcept r m = (.ok a, m') ↔ r = .ok a ∧ m' = m := by
  cases r <;> simp [Link.ofExcept, eq_comm]

@[simp] theorem view_run (f : Machine → α) (m : Machine) : view f m = (.ok (f m), m) := rfl

theorem attempt_run (x : Link α) (m : Machine) :
    attempt x m =
      match x m with
      | (.ok a, m) => (.ok (.ok a), m)
      | (.error (.thrown e), m) => (.ok (.error e), m)
      | (.error e, m) => (.error e, m) := rfl

/-- The machine after an attempt is the machine after the action. -/
theorem attempt_machine (x : Link α) (m : Machine) : (attempt x m).2 = (x m).2 := by
  rw [attempt_run]
  split <;> simp_all

/-! ## Elementary actions -/

@[simp] theorem classes_run (m : Machine) : classes m = (.ok m.classes, m) := rfl

@[simp] theorem findClass_run (name : String) (m : Machine) :
    findClass name m = (.ok (m.classes.find? name), m) := rfl

@[simp] theorem memo?_run (slot : ConstantSlot) (m : Machine) :
    memo? slot m = (.ok (m.memos.lookup slot), m) := rfl

@[simp] theorem member?_run (id : Nat) (m : Machine) :
    member? id m = (.ok (m.members.get? id), m) := rfl

@[simp] theorem identify_run (member : MemberRef) (m : Machine) :
    identify member m =
      (.ok (m.members.identify member).1, { m with members := (m.members.identify member).2 }) :=
  rfl

@[simp] theorem appendClass_run (name : String) (c : Class) (named : c.name = name)
    (m : Machine) :
    appendClass name c named m = (.ok c, { m with classes := m.classes.push c }) := by
  subst named
  rfl

theorem read_run (handle : Handle) (m : Machine) :
    read handle m =
      match m.heap.read handle with
      | .ok object => (.ok object, m)
      | .error fault => (.error (.fault fault), m) := by
  unfold read ofHeap
  cases m.heap.read handle <;> rfl

theorem read_of_ok {handle : Handle} {m : Machine} {object : Object}
    (h : m.heap.read handle = .ok object) : read handle m = (.ok object, m) := by
  rw [read_run, h]

theorem read_run_eq_ok_iff {handle : Handle} {m m' : Machine} {object : Object} :
    read handle m = (.ok object, m') ↔ m.heap.read handle = .ok object ∧ m' = m := by
  rw [read_run]
  cases m.heap.read handle <;> simp [eq_comm]

theorem update_run (handle : Handle) (f : Object → Object) (m : Machine) :
    update handle f m =
      match m.heap.update handle f with
      | (.ok _, heap) => (.ok (), { m with heap })
      | (.error fault, heap) => (.error (.fault fault), { m with heap }) := rfl

/-- The machine after an update differs in the heap only. -/
theorem update_machine (handle : Handle) (f : Object → Object) (m : Machine) :
    (update handle f m).2 = { m with heap := (m.heap.update handle f).2 } := by
  rw [update_run]
  split <;> simp_all

theorem classAt_run (id : ClassId) (m : Machine) :
    classAt id m =
      match m.classes.get? id with
      | some c => (.ok c, m)
      | none => (.error (.unknownClass id), m) := by
  unfold classAt
  rw [bind_of_ok (classes_run m)]
  cases m.classes.get? id <;> rfl

theorem classAt_of_get? {id : ClassId} {m : Machine} {c : Class}
    (h : m.classes.get? id = some c) : classAt id m = (.ok c, m) := by
  rw [classAt_run, h]

/-! ## Looking at known objects -/

theorem classOfObject_of_read {handle : Handle} {id : ClassId} {m : Machine} {c : Class}
    (hread : m.heap.read handle = .ok (.classObject id)) (hget : m.classes.get? id = some c) :
    classOfObject handle m = (.ok (some c), m) := by
  unfold classOfObject
  rw [bind_of_ok (read_of_ok hread)]
  show (classAt id >>= fun c => pure (some c)) m = _
  rw [bind_of_ok (classAt_of_get? hget)]
  rfl

theorem stringValue_of_read {handle : Handle} {m : Machine} {text : String}
    (hread : m.heap.read handle = .ok (.string text)) : stringValue handle m = (.ok text, m) := by
  unfold stringValue
  rw [bind_of_ok (read_of_ok hread)]
  rfl

theorem readMemberName_of_read {handle : Handle} {m : Machine} {n : MemberName}
    (hread : m.heap.read handle = .ok (.memberName n)) :
    readMemberName handle m = (.ok n, m) := by
  unfold readMemberName
  rw [bind_of_ok (read_of_ok hread)]
  rfl

theorem readMemberName_eq_ok_iff {handle : Handle} {m m' : Machine} {n : MemberName} :
    readMemberName handle m = (.ok n, m') ↔
      m.heap.read handle = .ok (.memberName n) ∧ m' = m := by
  constructor
  · intro h
    obtain ⟨object, m₁, hread, hname⟩ := bind_eq_ok_iff.mp h
    obtain ⟨hread, rfl⟩ := read_run_eq_ok_iff.mp hread
    obtain ⟨hname, rfl⟩ := orFail_eq_ok_iff.mp hname
    cases object <;> cases hname
    exact ⟨hread, rfl⟩
  · rintro ⟨hread, rfl⟩
    exact readMemberName_of_read hread

/-! ## Places -/

/-- Reading through a place that was just asked for. -/
theorem resolve_readAt (handle : Handle) (f : Object → Link β) :
    (resolve handle >>= fun place => readAt place >>= f) = read handle >>= f := by
  funext m
  simp only [bind_run, resolve, readAt, read, Heap.read, ofHeap]
  cases m.heap.resolve handle <;> rfl

/-- Changing through a place that was just asked for. -/
theorem resolve_updateAt (handle : Handle) (f : Object → Object) :
    (resolve handle >>= fun place => updateAt place f) = update handle f := by
  funext m
  simp only [bind_run, resolve, updateAt, update, changeHeap, Heap.update, ofHeap]
  cases m.heap.resolve handle <;> rfl

/-! ## Properties of machines -/

/-- The action keeps a property of the machine. -/
def Keeps (P : Machine → Prop) (x : Link α) : Prop :=
  ∀ m : Machine, P m → P (x m).2

/-- The action keeps a property of the machine and has no value where it holds. -/
def Bars (P : Machine → Prop) (x : Link α) : Prop :=
  ∀ m : Machine, P m → P (x m).2 ∧ ∀ a, (x m).1 ≠ .ok a

section Properties

variable {P : Machine → Prop} {x : Link α} {f : α → Link β} {as : List α}

theorem Bars.keeps (hx : Bars P x) : Keeps P x := fun m hm => (hx m hm).1

theorem keeps_bind_of_ok (hx : Keeps P x) (hf : ∀ m a m', x m = (.ok a, m') → Keeps P (f a)) :
    Keeps P (x >>= f) := by
  intro m hm
  have hkept := hx m hm
  rcases bind_cases x f m with ⟨e, m', hrun, hbind⟩ | ⟨a, m', hrun, hbind⟩
  · rw [hrun] at hkept
    rw [hbind]
    exact hkept
  · rw [hrun] at hkept
    rw [hbind]
    exact hf m a m' hrun m' hkept

theorem keeps_bind (hx : Keeps P x) (hf : ∀ a, Keeps P (f a)) : Keeps P (x >>= f) :=
  keeps_bind_of_ok hx (fun _ a _ _ => hf a)

/-- What comes after an action without a value is never run. -/
theorem bars_bind (hx : Bars P x) (f : α → Link β) : Bars P (x >>= f) := by
  intro m hm
  have hbarred := hx m hm
  rcases bind_cases x f m with ⟨e, m', hrun, hbind⟩ | ⟨a, m', hrun, hbind⟩
  · rw [hrun] at hbarred
    rw [hbind]
    exact ⟨hbarred.1, fun b hb => by cases hb⟩
  · rw [hrun] at hbarred
    exact absurd rfl (hbarred.2 a)

theorem bars_bind_of_ok (hx : Keeps P x) (hf : ∀ m a m', x m = (.ok a, m') → Bars P (f a)) :
    Bars P (x >>= f) := by
  intro m hm
  have hkept := hx m hm
  rcases bind_cases x f m with ⟨e, m', hrun, hbind⟩ | ⟨a, m', hrun, hbind⟩
  · rw [hrun] at hkept
    rw [hbind]
    exact ⟨hkept, fun b hb => by cases hb⟩
  · rw [hrun] at hkept
    rw [hbind]
    exact hf m a m' hrun m' hkept

theorem bars_bind_of_keeps (hx : Keeps P x) (hf : ∀ a, Bars P (f a)) : Bars P (x >>= f) :=
  bars_bind_of_ok hx (fun _ a _ _ => hf a)

theorem bars_fail (e : LinkError) : Bars P (fail e : Link α) :=
  fun _ hm => ⟨hm, fun _ he => by cases he⟩

theorem bars_bind_orFail {o : Option α} {e : LinkError} (hf : ∀ a, o = some a → Bars P (f a)) :
    Bars P (orFail o e >>= f) := by
  cases o with
  | none => exact bars_bind (bars_fail e) f
  | some a => exact fun m hm => hf a rfl m hm

theorem keeps_forEach (hf : ∀ a ∈ as, Keeps P (f a)) : Keeps P (forEach f as) := by
  induction as with
  | nil => exact fun _ hm => hm
  | cons a as ih =>
    refine keeps_bind (hf a List.mem_cons_self) (fun b => ?_)
    exact keeps_bind (ih (fun a' ha' => hf a' (List.mem_cons_of_mem a ha'))) (fun _ _ hm => hm)

/-- One action without a value is enough. -/
theorem bars_forEach (hf : ∀ a ∈ as, Keeps P (f a)) {a : α} (ha : a ∈ as) (hbars : Bars P (f a)) :
    Bars P (forEach f as) := by
  induction as with
  | nil => cases ha
  | cons a' as ih =>
    have hrest : ∀ a ∈ as, Keeps P (f a) := fun a ha => hf a (List.mem_cons_of_mem a' ha)
    rcases List.mem_cons.mp ha with rfl | ha
    · exact bars_bind hbars _
    · refine bars_bind_of_keeps (hf a' List.mem_cons_self) (fun b => ?_)
      exact bars_bind (ih hrest ha) _

end Properties

end Link

end Linkage
