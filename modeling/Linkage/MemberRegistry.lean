import Linkage.Class.Reference

/-! # Identities of members

    The registry hands out a number for every member it is asked about, counting
    from 1 in the order of first use, and leads back from the number to the
    member. It keeps the members in order for the way back, and beside them the
    number of each. -/

namespace Linkage

/-- The members seen so far, in the order of first use, and their numbers. -/
structure MemberRegistry where
  members : Array MemberRef
  /-- The numbers of the members, the latest in front. -/
  ids : List (MemberRef × Nat)
  /-- The number of a member leads back to it. -/
  found : ∀ {member : MemberRef} {id : Nat}, ids.lookup member = some id →
    ∃ i, id = i + 1 ∧ members[i]? = some member
  /-- Every member has a number. -/
  known : ∀ {i : Nat} {member : MemberRef}, members[i]? = some member →
    ∃ id, ids.lookup member = some id

namespace MemberRegistry

/-- The registry that has seen no member. -/
def empty : MemberRegistry where
  members := #[]
  ids := []
  found h := by cases h
  known h := by simp at h

theorem found_push (r : MemberRegistry) {m member : MemberRef} {id : Nat}
    (h : List.lookup member ((m, (r.members.push m).size) :: r.ids) = some id) :
    ∃ i, id = i + 1 ∧ (r.members.push m)[i]? = some member := by
  rw [List.lookup_cons] at h
  split at h
  · rename_i hsame
    cases h
    exact ⟨_, Array.size_push m, by rw [eq_of_beq hsame]; exact Array.getElem?_push_size⟩
  · obtain ⟨i, hid, hi⟩ := r.found h
    obtain ⟨hlt, rfl⟩ := Array.getElem?_eq_some_iff.mp hi
    exact ⟨i, hid, Array.getElem?_push_lt hlt⟩

theorem known_push (r : MemberRegistry) {m member : MemberRef} {i : Nat}
    (h : (r.members.push m)[i]? = some member) :
    ∃ id, List.lookup member ((m, (r.members.push m).size) :: r.ids) = some id := by
  rw [List.lookup_cons]
  split
  · exact ⟨_, rfl⟩
  · rename_i hother
    rw [Array.getElem?_push] at h
    split at h
    · -- The member is the new one.
      cases h
      rw [beq_self_eq_true] at hother
      cases hother
    · exact r.known h

/-- The registry with one more member, whose number is the new number of members. -/
def push (r : MemberRegistry) (m : MemberRef) : MemberRegistry where
  members := r.members.push m
  ids := (m, (r.members.push m).size) :: r.ids
  found := r.found_push
  known := r.known_push

/-- The identity of a member, and the registry that knows it. -/
def identify (r : MemberRegistry) (m : MemberRef) : Nat × MemberRegistry :=
  match r.ids.lookup m with
  | some id => (id, r)
  | none => ((r.push m).members.size, r.push m)

/-- The member with the given identity. -/
def get? (r : MemberRegistry) : Nat → Option MemberRef
  | 0 => none
  | i + 1 => r.members[i]?

end MemberRegistry

end Linkage
