import Linkage.Machine.Basic

/-! # Elementary actions

    Actions on the parts of the machine: objects, interned strings, identities of
    members, remembered constants, classes. Everything else is built from them. -/

namespace Linkage.Link

variable {α : Type}

/-! ## Objects -/

/-- The outcome of an access to the heap. -/
def ofHeap : Except Heap.Fault α → Link α
  | .ok a => pure a
  | .error fault => failWith (.fault fault)

/-- Carry out a change of the heap. -/
def changeHeap (change : Heap Object → Except Heap.Fault Unit × Heap Object) :
    Link Unit := fun m =>
  match change m.heap with
  | (.ok _, heap) => (.ok (), { m with heap })
  | (.error fault, heap) => (.error (.fault fault), { m with heap })

/-- Store a new object. -/
def allocate (object : Object) : Link Handle := fun m =>
  match m.heap.allocate object with
  | (some handle, heap) => (.ok handle, { m with heap })
  | (none, heap) => (.error (.thrown .outOfMemory), { m with heap })

/-- The object behind a handle. -/
def read (handle : Handle) : Link Object := fun m =>
  (ofHeap (m.heap.read handle)) m

/-- Change the object behind a handle. -/
def update (handle : Handle) (f : Object → Object) : Link Unit :=
  changeHeap (fun heap => heap.update handle f)

/-- Give up the object behind a handle. -/
def release (handle : Handle) : Link Unit :=
  changeHeap (fun heap => heap.release handle)

/-- The present place of the object behind a handle. -/
def resolve (handle : Handle) : Link Pointer := fun m =>
  (ofHeap (m.heap.resolve handle)) m

/-- The object at a place. -/
def readAt (p : Pointer) : Link Object := fun m =>
  (ofHeap (m.heap.readAt p)) m

/-- Change the object at a place. -/
def updateAt (p : Pointer) (f : Object → Object) : Link Unit :=
  changeHeap (fun heap => heap.updateAt p f)

/-- Move every object. -/
def collectGarbage : Link Unit := fun m =>
  (.ok (), { m with heap := m.heap.relocate })

/-- A new array of null references. -/
def newArray (component : ClassId) (length : Nat) : Link Handle :=
  allocate (.array { component, elements := Array.replicate length none })

/-- The elements of an array; none for another object. -/
def elements (array : Handle) : Link (List (Option Handle)) := do
  match (← read array).array? with
  | some a => pure a.elements.toList
  | none => pure []

/-! ## Strings -/

/-- The interned string with the given text. -/
def intern (text : String) : Link Handle := fun m =>
  match m.strings.intern m.heap Object.string text with
  | (some handle, strings, heap) => (.ok handle, { m with strings, heap })
  | (none, strings, heap) => (.error (.thrown .outOfMemory), { m with strings, heap })

/-- The text of a string object. -/
def stringValue (handle : Handle) : Link String := do
  let object ← read handle
  orFail object.string? .notAString

/-! ## Members -/

/-- The identity of a member. -/
def identify (member : MemberRef) : Link Nat := fun m =>
  let (id, members) := m.members.identify member
  (.ok id, { m with members })

/-- The member with the given identity. -/
def member? (id : Nat) : Link (Option MemberRef) :=
  view (fun m => m.members.get? id)

/-- The member name behind a handle. -/
def readMemberName (handle : Handle) : Link MemberName := do
  let object ← read handle
  orFail object.memberName? .notAMemberName

/-- Change the member name behind a handle. -/
def updateMemberName (handle : Handle) (f : MemberName → MemberName) : Link Unit := do
  let m ← readMemberName handle
  update handle (fun _ => .memberName (f m))

/-! ## Constants -/

/-- What a constant has been resolved to. -/
def memo? (slot : ConstantSlot) : Link (Option Handle) :=
  view (fun m => m.memos.lookup slot)

/-- Remember what a constant is resolved to. -/
def remember (slot : ConstantSlot) (value : Handle) : Link Unit := fun m =>
  (.ok (), { m with memos := (slot, value) :: m.memos })

/-- The remembered value of a constant; if there is none, the value computed now,
    which is remembered unless the computation has left another one. -/
def memoize (slot : ConstantSlot) (compute : Link Handle) : Link Handle := do
  match ← memo? slot with
  | some value => pure value
  | none => do
      let value ← compute
      match ← memo? slot with
      | some first => pure first
      | none => do
          remember slot value
          pure value

/-- Record a call of a bootstrap method. -/
def recordCall (call : BootstrapCall) : Link Unit := fun m =>
  (.ok (), { m with calls := m.calls.push call })

/-! ## Classes -/

/-- The class table. -/
def classes : Link ClassTable :=
  view Machine.classes

/-- The class at the given place. -/
def classAt (id : ClassId) : Link Class := do
  match (← classes).get? id with
  | some c => pure c
  | none => failWith (.unknownClass id)

/-- The class with the given name, if it is defined. -/
def findClass (name : String) : Link (Option Class) :=
  view (fun m => m.classes.find? name)

/-- A class that is defined at startup. -/
def coreClass (name : String) : Link Class := do
  orFail (← findClass name) (.coreClassMissing name)

/-- The class that an object stands for, if it is a class object. -/
def classOfObject (handle : Handle) : Link (Option Class) := do
  match (← read handle).classId? with
  | some id => some <$> classAt id
  | none => pure none

/-- Put a class at the end of the table, under the given name. -/
def appendClass (name : String) (c : Class) (named : c.name = name) : Link Class := fun m =>
  (.ok c, { m with classes := m.classes.insert name c named })

/-- Add a class to the table under the given name, which it has, given what it is with
    its place and its class object; if a class of that name is there already, that one
    is the answer. -/
def addClass (name : String) (make : ClassId → Handle → Class)
    (named : ∀ id classObject, (make id classObject).name = name) : Link Class := do
  match ← findClass name with
  | some c => pure c
  | none => do
      let table ← classes
      let classObject ← allocate (.classObject table.size)
      appendClass name (make table.size classObject) (named _ _)

end Linkage.Link
