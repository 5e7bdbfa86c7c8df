/-! # The moving heap

    Objects live at addresses that change whenever the heap relocates. Clients
    hold a `Handle`, which stays good until the object is released, or a
    `Pointer`, which is good only until the next relocation.

    * `allocate` stores an object under a handle that is not in use; it may
      relocate first, and refuses when the heap is full.
    * `read`, `update` and `release` go through a handle.
    * `resolve` turns a handle into a pointer, `readAt` and `updateAt` go through
      one.
    * `relocate` moves every object.

    Using a handle or pointer that is no longer good is a `Fault`, and leaves the
    heap as it is.

    Addresses and the numbers of handles are 32 bits wide. They are natural numbers
    here, which comes to the same as long as there have been fewer than 2^32 - 1
    allocations. -/

namespace Linkage

/-- A stable reference to an object. -/
structure Handle where
  index : Nat
  deriving DecidableEq, Repr

/-- The place of an object at some moment: its address, and the number of
    relocations so far. -/
structure Pointer where
  address : Nat
  epoch : UInt32
  deriving DecidableEq, Repr

/-- A limit on the number of live objects, and how often to relocate. -/
structure HeapConfig where
  capacity : Nat := 0x100000
  /-- Relocate on every n-th allocation; 0 for never. -/
  relocateEvery : Nat := 0
  deriving DecidableEq, Repr

/-- Objects of type `α` behind a table of handles. -/
structure Heap (α : Type) where
  config : HeapConfig
  /-- What is stored at each address. -/
  cells : Array (Option α)
  /-- The address behind each handle; `none` for one that is not in use. -/
  table : Array (Option Nat)
  /-- The handles that are not in use, the one released last in front. -/
  free : List Nat
  /-- Relocations so far; the count wraps around. -/
  epoch : UInt32
  /-- Allocations attempted so far. -/
  allocations : Nat
  /-- Number of live objects. -/
  live : Nat

namespace Heap

variable {α : Type}

/-- Misuse of a handle or pointer. -/
inductive Fault where
  /-- The handle was released and not given out again. -/
  | danglingHandle
  /-- The heap has relocated since the pointer was taken. -/
  | stalePointer
  /-- Nothing is stored at the address any more. -/
  | releasedObject
  deriving DecidableEq, Repr

/-- The heap without objects. -/
def empty (config : HeapConfig) : Heap α :=
  { config, cells := #[], table := #[], free := [], epoch := 0, allocations := 0, live := 0 }

/-! ## Relocation -/

/-- What relocation does to one handle: a live one gets the next new address,
    where its object moves. -/
def moveEntry (old : Array (Option α)) (entry : Option Nat)
    (moved : Array (Option α) × List (Option Nat)) : Array (Option α) × List (Option Nat) :=
  match entry with
  | none => (moved.1, none :: moved.2)
  | some address => (moved.1.push (old[address]?).join, some moved.1.size :: moved.2)

/-- Move every live object. The handles are visited from the last to the first,
    so that objects change places. -/
def relocate (h : Heap α) : Heap α :=
  let moved := h.table.toList.foldr (moveEntry h.cells) (#[], [])
  { h with cells := moved.1, table := moved.2.toArray, epoch := h.epoch + 1 }

/-! ## Allocation -/

/-- Count an allocation, and relocate if it is one on which the heap does. -/
def tick (h : Heap α) : Heap α :=
  let h := { h with allocations := h.allocations + 1 }
  if h.config.relocateEvery ≠ 0 && h.allocations % h.config.relocateEvery == 0 then h.relocate
  else h

/-- Store an object at the next address, under the handle released last or else
    under a new one. -/
def store (h : Heap α) (object : α) : Handle × Heap α :=
  let address := h.cells.size
  match h.free with
  | index :: free =>
      (⟨index⟩,
        { h with
          cells := h.cells.push (some object)
          table := h.table.setIfInBounds index (some address)
          free := free
          live := h.live + 1 })
  | [] =>
      (⟨h.table.size⟩,
        { h with
          cells := h.cells.push (some object)
          table := h.table.push (some address)
          live := h.live + 1 })

/-- Allocate an object; `none` if the heap is full. -/
def allocate (h : Heap α) (object : α) : Option Handle × Heap α :=
  let h := h.tick
  if h.config.capacity ≤ h.live then (none, h)
  else
    let (handle, h) := h.store object
    (some handle, h)

/-! ## Access -/

/-- The address behind a handle. -/
def address? (h : Heap α) (handle : Handle) : Option Nat :=
  (h.table[handle.index]?).join

/-- The object at an address. -/
def cell? (h : Heap α) (address : Nat) : Option α :=
  (h.cells[address]?).join

/-- The present place of the object behind a handle. -/
def resolve (h : Heap α) (handle : Handle) : Except Fault Pointer :=
  match h.address? handle with
  | some address => .ok { address, epoch := h.epoch }
  | none => .error .danglingHandle

/-- The object at a place. -/
def readAt (h : Heap α) (p : Pointer) : Except Fault α :=
  if p.epoch ≠ h.epoch then .error .stalePointer
  else
    match h.cell? p.address with
    | some object => .ok object
    | none => .error .releasedObject

/-- Change the object at a place. -/
def updateAt (h : Heap α) (p : Pointer) (f : α → α) : Except Fault Unit × Heap α :=
  match h.readAt p with
  | .ok _ => (.ok (), { h with cells := h.cells.modify p.address (Option.map f) })
  | .error fault => (.error fault, h)

/-- The object behind a handle. -/
def read (h : Heap α) (handle : Handle) : Except Fault α :=
  match h.resolve handle with
  | .ok p => h.readAt p
  | .error fault => .error fault

/-- Change the object behind a handle. -/
def update (h : Heap α) (handle : Handle) (f : α → α) : Except Fault Unit × Heap α :=
  match h.resolve handle with
  | .ok p => h.updateAt p f
  | .error fault => (.error fault, h)

/-- Give up the object behind a handle. The handle may be given out again. -/
def release (h : Heap α) (handle : Handle) : Except Fault Unit × Heap α :=
  match h.address? handle with
  | some address =>
      (.ok (),
        { h with
          cells := h.cells.setIfInBounds address none
          table := h.table.setIfInBounds handle.index none
          free := handle.index :: h.free
          live := h.live - 1 })
  | none => (.error .danglingHandle, h)

end Heap

end Linkage
