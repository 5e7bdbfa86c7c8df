import Linkage.Reflection

/-! # Filling member names

    * `initMemberName` fills a member name from a reflection object.
    * `expandMemberName` recovers the symbolic parts of a member name whose
      identity is known. -/

namespace Linkage

open Link

/-! ## From a reflection object -/

/-- The flags in the name of a declared method or constructor. -/
def Method.memberFlags (m : Method) (kind : MemberKind) (referenceKind : ReferenceKind) :
    MemberFlags :=
  { kind := some kind
    referenceKind := some referenceKind
    modifiers := m.access &&& MemberFlags.methodModifiers
    callerSensitive := m.callerSensitive }

/-- The flags in the name of a declared field. -/
def Field.memberFlags (f : Field) (referenceKind : ReferenceKind) : MemberFlags :=
  MemberFlags.make .field referenceKind (f.access &&& MemberFlags.fieldModifiers)

/-- The class that a reflection object gives as declaring. -/
def declaringClass (classObject : Handle) : Link Class := do
  orFail (← classOfObject classObject) .declaringClassNotAClass

/-- Fill a member name from a reflected field. -/
def initFromField (mn : Handle) (r : ReflectedField) : Link Unit := do
  let c ← declaringClass r.declaringClass
  let f ← orFail (c.field? r.slot) .fieldSlotOutOfRange
  let kind : ReferenceKind := if f.isStatic then .getStatic else .getField
  let vmindex ← identify (.field { owner := c.id, index := r.slot })
  updateMemberName mn fun _ =>
    { flags := (f.memberFlags kind).encode
      name := some r.name
      type := some r.type
      clazz := some r.declaringClass
      vmindex
      vmtarget := f.target }

/-- Fill a member name from a reflected method. -/
def initFromMethod (mn : Handle) (r : ReflectedMethod) : Link Unit := do
  let c ← declaringClass r.declaringClass
  let m ← orFail (c.method? r.slot) .methodSlotOutOfRange
  let target : MethodRef := { owner := c.id, index := r.slot }
  let vmindex ← identify (.method target)
  updateMemberName mn fun _ =>
    { flags := (m.memberFlags .method m.referenceKind).encode
      name := r.name
      type := some r.signature
      clazz := some r.declaringClass
      vmindex
      vmtarget := target.target }

/-- Fill a member name from a reflected constructor. -/
def initFromConstructor (mn : Handle) (r : ReflectedMethod) : Link Unit := do
  let c ← declaringClass r.declaringClass
  let m ← orFail (c.method? r.slot) .methodSlotOutOfRange
  let target : MethodRef := { owner := c.id, index := r.slot }
  let vmindex ← identify (.method target)
  updateMemberName mn fun _ =>
    { flags := (m.memberFlags .constructor .invokeSpecial).encode
      name := none
      type := some r.signature
      clazz := some r.declaringClass
      vmindex
      vmtarget := target.target }

/-- Fill the member name `mn` from the reflection object `reflected`. -/
def initMemberName (mn reflected : Handle) : Link Unit := do
  match ← read reflected with
  | .field r => initFromField mn r
  | .method r => initFromMethod mn r
  | .constructor r => initFromConstructor mn r
  | _ => fail .unknownReflection

/-! ## From the identity -/

/-- The handle, or else the one that the action makes. -/
def orMake (present : Option Handle) (make : Link Handle) : Link Handle :=
  match present with
  | some handle => pure handle
  | none => make

/-- Recover name and type of a field. -/
def expandField (env : Environment) (mn : Handle) (m : MemberName) : Link Unit := do
  if m.clazz.isNone || m.vmindex == 0 then fail .fieldNotExpandable
  else
    match ← member? m.vmindex with
    | some (.field r) => do
        let c ← classAt r.owner
        let f ← orFail (c.field? r.index) .fieldSlotOutOfRange
        let name ← orMake m.name (intern f.name)
        let type ← orMake m.type (do pure (← classOfType env f.type).classObject)
        updateMemberName mn fun m => { m with name := some name, type := some type }
    | _ => fail .fieldNotExpandable

/-- Recover name, type and class of a method or constructor. -/
def expandMethod (mn : Handle) (m : MemberName) : Link Unit := do
  if m.vmindex == 0 then fail .memberNotExpandable
  else
    match ← member? m.vmindex with
    | some (.method r) => do
        let c ← classAt r.owner
        let method ← orFail (c.method? r.index) .methodSlotOutOfRange
        let name ← orMake m.name (intern method.name)
        let type ← orMake m.type (intern method.descriptor.render)
        updateMemberName mn fun m =>
          { m with
            name := some name
            type := some type
            clazz := some (m.clazz.getD c.classObject) }
    | _ => fail .memberNotExpandable

/-- Recover the missing symbolic parts of the member name `mn`. -/
def expandMemberName (env : Environment) (mn : Handle) : Link Unit := do
  let m ← readMemberName mn
  match (MemberFlags.decode m.flags).kind with
  | some .field => expandField env mn m
  | some .method => expandMethod mn m
  | some .constructor => expandMethod mn m
  | _ => fail .memberNotExpandable

end Linkage
