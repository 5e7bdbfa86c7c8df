/-! # References to declared members

    A class is known by its place in the class table, a declared field or method
    by its class and its place among the fields or methods of that class. Places
    of members are 16 bits wide.

    Places of classes are 32 bits wide. They are natural numbers here, which comes
    to the same as long as there have been fewer than 2^32 - 1 allocations: each
    class has an object of its own. -/

namespace Linkage

/-- The place of a class in the class table. -/
abbrev ClassId : Type := Nat

/-- A declared field. -/
structure FieldRef where
  owner : ClassId
  index : UInt16
  deriving DecidableEq, Repr

/-- A declared method. -/
structure MethodRef where
  owner : ClassId
  index : UInt16
  deriving DecidableEq, Repr

/-- The direct target of a method, which is never zero: one more than the class
    in the upper bits, the place in the lower 16. -/
def MethodRef.target (m : MethodRef) : Nat :=
  (m.owner + 1) * 0x10000 + m.index.toNat

/-- A declared field or method. -/
inductive MemberRef where
  | field (f : FieldRef)
  | method (m : MethodRef)
  deriving DecidableEq, Repr

end Linkage
