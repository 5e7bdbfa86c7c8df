import Linkage.Lookup
import Linkage.MemberName.Initialization

/-! # Resolving member names

    Resolution looks up the member that a member name describes by class, name,
    type and reference kind, and stores its identity and target. A member name
    that has a target is resolved already and is left alone.

    A speculative resolution reports every failure by absence. -/

namespace Linkage

open Link

/-- The class that is searched for a class object. Arrays have the members of
    `java/lang/Object`, and primitive classes have none. -/
def searchedClass (clazz : Handle) : Link (Option Class) := do
  match ← classOfObject clazz with
  | none => pure none
  | some c =>
      if c.isPrimitive then pure none
      else if c.isArray then some <$> coreClass ClassDeclaration.objectName
      else pure (some c)

/-- The class on whose behalf a member is looked up, if one is given. -/
def callerClass : Option Handle → Link (Option Class)
  | none => pure none
  | some classObject => do some <$> orFail (← classOfObject classObject) .callerNotAClass

/-- Store what a member name has been resolved to. Name and type remain. -/
def commitMember (mn : Handle) (flags : MemberFlags) (clazz : Handle) (member : MemberRef)
    (vmtarget : Nat) : Link Unit := do
  let vmindex ← identify member
  updateMemberName mn fun m =>
    { m with flags := flags.encode, clazz := some clazz, vmindex, vmtarget }

/-- The reference kind of a resolved method reference: a method that an interface
    reference finds in a class is called by virtual dispatch. -/
def ReferenceKind.toDeclaring (kind : ReferenceKind) (declaring : Class) : ReferenceKind :=
  if kind = .invokeInterface ∧ ¬ declaring.isInterface then .invokeVirtual else kind

/-- The member kind of a method reference fits its name: constructors are called
    `<init>` and nothing else is, and class initializers are not referred to. -/
def MemberKind.fits (kind : MemberKind) (name : String) : Bool :=
  (name == Method.constructorName) == (kind == .constructor)
    && name != Method.classInitializerName

/-- Resolve the name of a method or constructor. The answer is whether there is
    one. -/
def resolveMethod (mn : Handle) (c : Class) (kind : MemberKind) (name signature : String)
    (referenceKind : ReferenceKind) (caller : Option Class) (speculative : Bool) :
    Link Bool := do
  if !kind.fits name then pure false
  else
    let found ←
      ofExcept ((← classes).linkMethod c name signature referenceKind caller speculative)
    match found with
    | none => pure false
    | some r => do
        let declaring ← classAt r.owner
        let m ← orFail (declaring.method? r.index) .methodSlotOutOfRange
        let flags := m.memberFlags kind (referenceKind.toDeclaring declaring)
        commitMember mn flags declaring.classObject (.method r) r.target
        pure true

/-- Resolve the name of a field. The answer is whether there is one. -/
def resolveField (mn : Handle) (c : Class) (name signature : String)
    (referenceKind : ReferenceKind) (caller : Option Class) (speculative : Bool) :
    Link Bool := do
  let found ←
    ofExcept ((← classes).linkField c name signature referenceKind caller speculative)
  match found with
  | none => pure false
  | some (r, referenceKind) => do
      let declaring ← classAt r.owner
      let f ← orFail (declaring.field? r.index) .fieldSlotOutOfRange
      commitMember mn (f.memberFlags referenceKind) declaring.classObject (.field r) f.target
      pure true

/-- Resolve a member name. The answer is whether there is such a member. -/
def resolveMember (mn : Handle) (caller : Option Handle) (speculative : Bool) : Link Bool := do
  let m ← readMemberName mn
  if m.vmtarget != 0 then pure true
  else
    let flags := MemberFlags.decode m.flags
    let referenceKind ← orFail flags.referenceKind .memberWithoutReferenceKind
    match m.name, m.type, m.clazz with
    | some name, some type, some clazz =>
        match ← searchedClass clazz with
        | none => pure false
        | some c => do
            let caller ← callerClass caller
            let name ← stringValue name
            let signature ← typeSignature type
            match flags.kind with
            | some .method =>
                resolveMethod mn c .method name signature referenceKind caller speculative
            | some .constructor =>
                resolveMethod mn c .constructor name signature referenceKind caller speculative
            | some .field => resolveField mn c name signature referenceKind caller speculative
            | _ => pure false
    | _, _, _ => pure false

/-- The error for a member that does not exist. -/
def MemberFlags.resolutionFailure (f : MemberFlags) : LinkError :=
  match f.kind with
  | some .field => .fieldResolutionFailed
  | some .method => .methodResolutionFailed
  | some .constructor => .methodResolutionFailed
  | _ => .resolutionFailed

/-- Resolve a member name on behalf of `caller`. The answer is the member name
    itself, or nothing if a speculative resolution fails. -/
def resolveMemberName (mn : Handle) (caller : Option Handle) (speculative : Bool) :
    Link (Option Handle) := do
  match ← attempt (resolveMember mn caller speculative) with
  | .ok true => pure (some mn)
  | .ok false =>
      if speculative then pure none
      else do
        let m ← readMemberName mn
        fail (MemberFlags.decode m.flags).resolutionFailure
  | .error e => if speculative then pure none else fail e

/-! ## Questions to resolved member names -/

/-- A resolved member name of a static or instance field, as asked for. -/
def resolvedField (mn : Handle) (wantStatic : Bool) : Link MemberName := do
  let m ← readMemberName mn
  let flags := MemberFlags.decode m.flags
  if m.clazz.isNone || !m.isResolved then fail .memberNotResolved
  else if flags.kind != some .field || flags.isStatic != wantStatic then
    fail (.notAField wantStatic)
  else pure m

/-- The target as a signed number. -/
def MemberName.offset (m : MemberName) : Int64 :=
  (UInt64.ofNat m.vmtarget).toInt64

/-- The offset of a resolved instance field. -/
def objectFieldOffset (mn : Handle) : Link Int64 := do
  pure (← resolvedField mn false).offset

/-- The offset of a resolved static field. -/
def staticFieldOffset (mn : Handle) : Link Int64 := do
  pure (← resolvedField mn true).offset

/-- The object that holds a resolved static field: the class object of its class. -/
def staticFieldBase (mn : Handle) : Link Handle := do
  orFail (← resolvedField mn true).clazz .memberNotResolved

/-- The position in a dispatch table; -1 for none. -/
def Dispatch.position : Dispatch → Int64
  | .direct => -1
  | .virtual index => Int64.ofNat index.toNat
  | .interface index => Int64.ofNat index.toNat

/-- What the member name stands for inside the machine: for a field its offset and
    class, for a method its position in a dispatch table and the member name. -/
def vmInfo (mn : Handle) (m : MemberName) : Link (Int64 × Option Handle) := do
  if m.vmindex == 0 then fail .memberNotResolved
  else
    match ← member? m.vmindex with
    | some (.field _) => pure (m.offset, m.clazz)
    | some (.method r) => do
        let c ← classAt r.owner
        match c.method? r.index with
        | some method => pure (method.dispatch.position, some mn)
        | none => pure (-1, some mn)
    | none => fail .unknownIdentity

/-- A new array with the two parts of `vmInfo`. -/
def memberVMInfo (mn : Handle) : Link Handle := do
  let m ← readMemberName mn
  let (index, second) ← vmInfo mn m
  let object ← coreClass ClassDeclaration.objectName
  let info ← newArray object.id 2
  let index ← allocate (.long index)
  update info fun a => (a.setElement 0 (some index)).setElement 1 second
  pure info

end Linkage
