import Linkage.Class.Table
import Linkage.LinkError
import Linkage.MemberRegistry
import Linkage.Object
import Linkage.StringPool

/-! # The machine and actions on it

    `Machine` is all that linkage keeps between steps. A `Link` is an action on
    the machine: it ends with a value or with a `Failure`, and what it did to the
    machine before failing stays done. -/

namespace Linkage

/-! ## State -/

/-- A slot of the constant pool of a class. -/
structure ConstantSlot where
  owner : ClassId
  index : UInt16
  deriving DecidableEq, Repr

/-- A call of a bootstrap method: the class on whose behalf, and the arguments. -/
structure BootstrapCall where
  caller : ClassId
  arguments : List (Option Handle)
  deriving DecidableEq, Repr

/-- The state of the machine. -/
structure Machine where
  heap : Heap Object
  strings : StringPool
  /-- Identities of members. -/
  members : MemberRegistry
  classes : ClassTable
  /-- What constants have been resolved to. -/
  memos : List (ConstantSlot × Handle)
  /-- Names of the classes that are being read from the class path. -/
  loading : List String
  /-- Calls of bootstrap methods, in order. -/
  calls : Array BootstrapCall

/-- The machine without classes. -/
def Machine.bare (config : HeapConfig) : Machine :=
  { heap := Heap.empty config
    strings := StringPool.empty
    members := MemberRegistry.empty
    classes := ClassTable.empty
    memos := []
    loading := []
    calls := #[] }

/-! ## Actions -/

/-- How an action can end without a value. -/
inductive Failure where
  /-- An error that Java code can catch. -/
  | thrown (error : LinkError)
  /-- Misuse of a handle or pointer. -/
  | fault (fault : Heap.Fault)
  /-- A class that is not in the class table. -/
  | unknownClass (id : ClassId)
  /-- More nested steps than the bound of the action allows. -/
  | boundReached

/-- An action on the machine. -/
def Link (α : Type) : Type :=
  Machine → Except Failure α × Machine

namespace Link

variable {α β : Type}

/-- End with a value. -/
protected def pure (a : α) : Link α := fun m => (.ok a, m)

/-- Go on with the value of an action, unless it fails. -/
protected def bind (x : Link α) (f : α → Link β) : Link β := fun m =>
  match x m with
  | (.ok a, m) => f a m
  | (.error e, m) => (.error e, m)

instance : Monad Link where
  pure := Link.pure
  bind := Link.bind

/-- End with a failure. -/
def failWith (e : Failure) : Link α := fun m => (.error e, m)

/-- Throw an error. -/
def fail (e : LinkError) : Link α := failWith (.thrown e)

/-- The value, or else the given error. -/
def orFail (a : Option α) (e : LinkError) : Link α :=
  match a with
  | some a => pure a
  | none => fail e

/-- The value, or the error thrown instead. -/
def ofExcept : Except LinkError α → Link α
  | .ok a => pure a
  | .error e => fail e

/-- A view of the machine. -/
def view (f : Machine → α) : Link α := fun m => (.ok (f m), m)

/-- The error that an action throws as a value. Other failures remain. -/
def attempt (x : Link α) : Link (Except LinkError α) := fun m =>
  match x m with
  | (.ok a, m) => (.ok (.ok a), m)
  | (.error (.thrown e), m) => (.ok (.error e), m)
  | (.error e, m) => (.error e, m)

/-- Run an action for each element in turn and collect the values. -/
def forEach (f : α → Link β) : List α → Link (List β)
  | [] => pure []
  | a :: as => do
      let b ← f a
      let bs ← forEach f as
      pure (b :: bs)

end Link

end Linkage
