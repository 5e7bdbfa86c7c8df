import Linkage.Class.Basic

/-! # The class table

    The classes defined so far, in the order of definition, and beside them the place
    of each class under its name. A class is found by its place or by its name;
    `signature` writes its descriptor. -/

namespace Linkage

/-- The defined classes, in order, and their places by name. -/
structure ClassTable where
  classes : Array Class
  /-- The places of the classes under their names, the latest in front. -/
  places : List (String × ClassId)
  /-- A name leads to a class that has it. -/
  found : ∀ {name : String} {i : ClassId}, places.lookup name = some i →
    ∃ c, classes[i]? = some c ∧ c.name = name
  /-- The name of every class leads to a class. -/
  known : ∀ {i : ClassId} {c : Class}, classes[i]? = some c → ∃ j, places.lookup c.name = some j

namespace ClassTable

/-- The table without classes. -/
def empty : ClassTable where
  classes := #[]
  places := []
  found h := by cases h
  known h := by simp at h

/-- Number of classes. -/
def size (t : ClassTable) : Nat := t.classes.size

/-- The class at the given place. -/
def get? (t : ClassTable) (id : ClassId) : Option Class :=
  t.classes[id]?

/-- The class with the given name. -/
def find? (t : ClassTable) (name : String) : Option Class :=
  (t.places.lookup name).bind t.get?

theorem found_insert (t : ClassTable) {name other : String} {c : Class} {i : ClassId}
    (named : c.name = name)
    (h : List.lookup other ((name, t.classes.size) :: t.places) = some i) :
    ∃ d, (t.classes.push c)[i]? = some d ∧ d.name = other := by
  rw [List.lookup_cons] at h
  split at h
  · rename_i hsame
    cases h
    exact ⟨c, Array.getElem?_push_size, named.trans (eq_of_beq hsame).symm⟩
  · obtain ⟨d, hd, hname⟩ := t.found h
    obtain ⟨hlt, rfl⟩ := Array.getElem?_eq_some_iff.mp hd
    exact ⟨_, Array.getElem?_push_lt hlt, hname⟩

theorem known_insert (t : ClassTable) {name : String} {c d : Class} {i : ClassId}
    (named : c.name = name) (h : (t.classes.push c)[i]? = some d) :
    ∃ j, List.lookup d.name ((name, t.classes.size) :: t.places) = some j := by
  rw [List.lookup_cons]
  split
  · exact ⟨_, rfl⟩
  · rename_i hother
    rw [Array.getElem?_push] at h
    split at h
    · -- The class is the new one, which has the name.
      cases h
      rw [named, beq_self_eq_true] at hother
      cases hother
    · exact t.known h

/-- The table with one more class, whose place is put down under the name. -/
def insert (t : ClassTable) (name : String) (c : Class) (named : c.name = name) : ClassTable where
  classes := t.classes.push c
  places := (name, t.classes.size) :: t.places
  found := t.found_insert named
  known := t.known_insert named

/-- The declared method that a reference names. -/
def method? (t : ClassTable) (m : MethodRef) : Option Method :=
  (t.get? m.owner).bind (fun c => c.method? m.index)

/-- The declared field that a reference names. -/
def field? (t : ClassTable) (f : FieldRef) : Option Field :=
  (t.get? f.owner).bind (fun c => c.field? f.index)

/-- The name of a class, for a table that has it. -/
def nameOf (t : ClassTable) (id : ClassId) : String :=
  match t.get? id with
  | some c => c.name
  | none => ""

/-! ## Signatures -/

/-- Number of array dimensions of a class and its element class, following at
    most `limit` components. A component is defined before its array, so the
    number of classes is limit enough. -/
def element (t : ClassTable) : Nat → Class → Nat × Class
  | 0, c => (0, c)
  | limit + 1, c =>
      match c.kind with
      | .array component =>
          match t.get? component with
          | some c => let (dimensions, base) := t.element limit c; (dimensions + 1, base)
          | none => (0, c)
      | _ => (0, c)

/-- The descriptor of a class: `I`, `Ljava/lang/String;`, `[[J`. -/
def signature (t : ClassTable) (c : Class) : String :=
  let (dimensions, base) := t.element t.size c
  let name :=
    match base.kind with
    | .primitive p => [p.letter]
    | _ => 'L' :: base.name.toList ++ [';']
  String.ofList (List.replicate dimensions '[' ++ name)

end ClassTable

end Linkage
