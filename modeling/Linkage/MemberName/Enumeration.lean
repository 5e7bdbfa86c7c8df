import Linkage.MemberName.Initialization

/-! # Enumerating members

    `enumerateMembers` counts the members of a class that match a name, a signature
    and a choice of kinds, and fills an array of member names with some of them. -/

namespace Linkage

open Link

/-- A declared member of some kind. -/
inductive MatchedMember where
  | field (f : FieldRef)
  | method (m : MethodRef)
  | constructor (m : MethodRef)
  deriving DecidableEq, Repr

/-- Which members match. -/
structure MemberFilter where
  name : Option String
  signature : Option String
  fields : Bool
  methods : Bool
  constructors : Bool
  deriving DecidableEq, Repr

namespace MemberFilter

/-- The filter with the given flags. A signature matches either fields or methods,
    so it rules the others out. -/
def make (name signature : Option String) (flags : MatchFlags) : MemberFilter :=
  let isMethodSignature (s : String) : Bool := s.toList.head? == some '('
  let forFields := !(signature.any isMethodSignature)
  let forMethods := signature.all isMethodSignature
  { name
    signature
    fields := flags.fields && forFields
    methods := flags.methods && forMethods
    constructors := flags.constructors && forMethods }

/-- A member with the given name and descriptor matches. -/
def accepts (f : MemberFilter) (name descriptor : String) : Bool :=
  f.name.all (fun n => n == name) && f.signature.all (fun s => s == descriptor)

/-- What field number `index` of a class matches as. -/
def matchField? (f : MemberFilter) (owner : ClassId) (field : Field) (index : Nat) :
    Option MatchedMember :=
  if f.fields && f.accepts field.name field.type.render then
    some (.field { owner, index := UInt16.ofNat index })
  else none

/-- What method number `index` of a class matches as. Class initializers never
    match. -/
def matchMethod? (f : MemberFilter) (owner : ClassId) (method : Method) (index : Nat) :
    Option MatchedMember :=
  let r : MethodRef := { owner, index := UInt16.ofNat index }
  if !f.accepts method.name method.descriptor.render then none
  else if method.name == Method.constructorName then
    if f.constructors then some (.constructor r) else none
  else if method.name == Method.classInitializerName then none
  else if f.methods then some (.method r)
  else none

/-- The matching members that a class declares, fields first. -/
def declared (f : MemberFilter) (c : Class) : List MatchedMember :=
  c.fields.toList.zipIdx.filterMap (fun (field, index) => f.matchField? c.id field index)
    ++ c.methods.toList.zipIdx.filterMap (fun (method, index) => f.matchMethod? c.id method index)

end MemberFilter

/-- The classes searched for the members of a class, in order: the class itself,
    its superclasses from the nearest on, its interfaces. -/
def ClassTable.searchOrder (t : ClassTable) (c : Class) (flags : MatchFlags) : List Class :=
  [c]
    ++ (if flags.superclasses then c.superclasses.reverse.filterMap t.get? else [])
    ++ (if flags.interfaces then c.itable.filterMap t.get? else [])

/-- The matching members of a class, in order. Primitive classes and arrays have
    none. -/
def ClassTable.matchingMembers (t : ClassTable) (c : Class) (filter : MemberFilter)
    (flags : MatchFlags) : List MatchedMember :=
  if c.isPrimitive || c.isArray then []
  else (t.searchOrder c flags).flatMap filter.declared

/-- The reflection object of a member. -/
def reflectMember (env : Environment) : MatchedMember → Link Handle
  | .field f => newReflectedField env f
  | .method m => newReflectedMethod m
  | .constructor m => newReflectedConstructor m

/-- How an enumeration ends. -/
inductive Enumeration where
  | badArguments
  /-- A member matches, but the place for it holds no member name. -/
  | badSlot
  /-- Number of matching members. -/
  | found (count : Nat)
  deriving DecidableEq, Repr

/-- The number that reports the outcome. -/
def Enumeration.code : Enumeration → Int32
  | .badArguments => -1
  | .badSlot => -99
  | .found count => Int32.ofNat count

/-- The member name at a place of the array of results. -/
def resultSlot (results : Handle) (index : Nat) : Link (Option Handle) := do
  let place ← resolve results
  match (← readAt place).array? with
  | none => pure none
  | some a =>
      match a.elements[index]? with
      | some (some slot) => do
          let object ← read slot
          pure (if object.memberName?.isSome then some slot else none)
      | _ => pure none

/-- Fill the results from place `index` on. The answer is whether all places hold
    member names. Making reflection objects may move the array, so its place is
    asked for each time. -/
def fillResults (env : Environment) (results : Handle) : Nat → List MatchedMember → Link Bool
  | _, [] => pure true
  | index, member :: rest => do
      match ← resultSlot results index with
      | none => pure false
      | some slot => do
          let reflected ← reflectMember env member
          initMemberName slot reflected
          fillResults env results (index + 1) rest

/-- The text of a string object, if there is one. -/
def optionalString : Option Handle → Link (Option String)
  | none => pure none
  | some handle => some <$> stringValue handle

/-- What an enumeration is asked for. -/
structure EnumerationRequest where
  clazz : Option Handle
  name : Option Handle
  signature : Option Handle
  flags : MatchFlags
  caller : Option Handle
  /-- Number of matches that are only counted. -/
  skip : Int32
  results : Option Handle

/-- A caller, if one is given, is given by a class object. -/
def EnumerationRequest.callerFits (r : EnumerationRequest) : Link Bool := do
  match r.caller with
  | none => pure true
  | some caller => pure (← classOfObject caller).isSome

/-- The class and the array of results with its length, if the arguments make
    sense. An interface is not asked for fields. -/
def EnumerationRequest.check (r : EnumerationRequest) : Link (Option (Class × Handle × Nat)) := do
  match r.clazz, r.results with
  | some clazz, some results =>
      match ← classOfObject clazz with
      | none => pure none
      | some c => do
          if !(← r.callerFits) then pure none
          else if c.isInterface && r.flags.fields then pure none
          else
            match (← read results).array? with
            | some a => pure (some (c, results, a.elements.size))
            | none => pure none
  | some clazz, none => do
      let _ ← classOfObject clazz
      pure none
  | none, _ => pure none

/-- Enumerate the members of a class. -/
def enumerateMembers (env : Environment) (r : EnumerationRequest) : Link Enumeration := do
  match ← r.check with
  | none => pure .badArguments
  | some (c, results, capacity) => do
      let name ← optionalString r.name
      let signature ← optionalString r.signature
      if name == some "" || signature == some "" then pure (.found 0)
      else
        let filter := MemberFilter.make name signature r.flags
        let members := (← classes).matchingMembers c filter r.flags
        let wanted := (members.drop r.skip.toInt.toNat).take capacity
        if ← fillResults env results 0 wanted then pure (.found members.length)
        else pure .badSlot

end Linkage
