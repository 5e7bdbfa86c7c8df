import Linkage.Class.Table
import Linkage.Declaration.Basic
import Linkage.LinkError

/-! # Layout of declared classes

    From a declaration and its supertypes: the table of interfaces, the offsets of
    fields and the dispatch of methods.

    * Instance fields continue the layout of the superclass, static fields are
      numbered from 0.
    * A method that can be overridden takes over the vtable position of the first
      inherited method with its name and descriptor, or else a new position. The
      methods of an interface are numbered in the order of declaration. -/

namespace Linkage

/-! ## Interfaces -/

/-- Add an interface unless it is there. -/
def insertInterface (itable : List ClassId) (id : ClassId) : List ClassId :=
  if itable.contains id then itable else itable ++ [id]

/-- All interfaces of a class with the given direct supertypes. -/
def interfaceTable (superclass : Option Class) (interfaces : List Class) : List ClassId :=
  let own := interfaces.flatMap (fun i => i.id :: i.itable)
  let inherited :=
    match superclass with
    | some s => s.itable
    | none => []
  (own ++ inherited).foldl insertInterface []

/-- All superclasses of a class with the given superclass, the root first. -/
def superclassChain : Option Class → List ClassId
  | some s => s.superclasses ++ [s.id]
  | none => []

/-! ## Fields -/

/-- The fields laid out so far. -/
structure FieldLayout where
  fields : Array Field
  instanceSize : Nat
  staticSlots : Nat

namespace FieldLayout

/-- No fields yet, after those of the superclass. -/
def start (superclass : Option Class) : FieldLayout :=
  { fields := #[]
    instanceSize :=
      match superclass with
      | some s => s.instanceSize
      | none => Field.headerSize
    staticSlots := 0 }

/-- Lay out one more field. -/
def add (l : FieldLayout) (d : FieldDeclaration) : Except LinkError FieldLayout :=
  match TypeDescriptor.parse? d.descriptor with
  | none => .error (.badFieldDescriptor d.descriptor)
  | some type =>
      let field (slot : Nat) : Field := { access := d.access, name := d.name, type, slot }
      if d.access.has Access.staticFlag then
        .ok
          { l with
            fields := l.fields.push (field l.staticSlots)
            staticSlots := l.staticSlots + 1 }
      else
        .ok
          { l with
            fields := l.fields.push (field l.instanceSize)
            instanceSize := l.instanceSize + Field.slotSize }

end FieldLayout

/-! ## Methods -/

/-- No dispatch slot is needed to call the method. -/
def Method.isDirect (m : Method) : Bool :=
  m.isStatic || m.isPrivate || m.isInitializer

/-- The method that a class `className` declares, before it gets a dispatch slot. -/
def Method.declared (className : String) (d : MethodDeclaration)
    (descriptor : MethodDescriptor) : Method :=
  { access := d.access
    name := d.name
    descriptor
    dispatch := .direct
    callerSensitive := d.callerSensitive
    native :=
      if d.access.has Access.nativeFlag then Native.find? className d.name descriptor.render
      else none }

/-- A position of a vtable under construction. -/
inductive VtableSlot where
  | inherited (m : MethodRef)
  | own (index : UInt16)
  deriving DecidableEq, Repr

/-- The methods laid out so far. -/
structure MethodLayout where
  methods : Array Method
  vtable : Array VtableSlot

namespace MethodLayout

/-- No methods yet. A class starts with the vtable of its superclass, an interface
    with an empty one. -/
def start (superclass : Option Class) (isInterface : Bool) : MethodLayout :=
  { methods := #[]
    vtable :=
      match superclass with
      | some s => if isInterface then #[] else s.vtable.map VtableSlot.inherited
      | none => #[] }

/-- The method takes over this vtable position. -/
@[inline]
def takesOver (table : ClassTable) (m : Method) : VtableSlot → Bool
  | .inherited r =>
      match table.method? r with
      | some inherited => m.overrides inherited
      | none => false
  | .own _ => false

/-- The position of method number `index` in the vtable, and the vtable with it. -/
def assign (table : ClassTable) (vtable : Array VtableSlot) (m : Method) (index : UInt16) :
    Nat × Array VtableSlot :=
  match vtable.findIdx? (takesOver table m) with
  | some slot => (slot, vtable.setIfInBounds slot (.own index))
  | none => (vtable.size, vtable.push (.own index))

/-- Lay out one more method of the class `className`. -/
def add (table : ClassTable) (className : String) (isInterface : Bool) (l : MethodLayout)
    (d : MethodDeclaration) : Except LinkError MethodLayout :=
  match MethodDescriptor.parse? d.descriptor with
  | none => .error (.badMethodDescriptor d.descriptor)
  | some descriptor =>
      let index := UInt16.ofNat l.methods.size
      let m := Method.declared className d descriptor
      if m.isDirect then .ok { l with methods := l.methods.push m }
      else if isInterface then
        .ok { l with methods := l.methods.push { m with dispatch := .interface index } }
      else
        let (slot, vtable) := assign table l.vtable m index
        .ok
          { methods := l.methods.push { m with dispatch := .virtual (UInt16.ofNat slot) }
            vtable }

end MethodLayout

/-! ## The class -/

/-- The layout of a class, up to its place in the table and its class object. -/
structure Layout where
  declaration : ClassDeclaration
  superclass : Option Class
  interfaces : List Class
  fields : FieldLayout
  methods : MethodLayout

namespace Layout

/-- Lay out a declared class with the given supertypes. -/
def ofDeclaration (table : ClassTable) (d : ClassDeclaration) (superclass : Option Class)
    (interfaces : List Class) : Except LinkError Layout := do
  let isInterface := d.access.has Access.interfaceFlag
  let fields ← d.fields.foldlM FieldLayout.add (FieldLayout.start superclass)
  let methods ←
    d.methods.foldlM (MethodLayout.add table d.name isInterface)
      (MethodLayout.start superclass isInterface)
  pure { declaration := d, superclass, interfaces, fields, methods }

/-- The parts of a layout are folds over the declared members. -/
theorem ofDeclaration_eq_ok {table : ClassTable} {d : ClassDeclaration}
    {superclass : Option Class} {interfaces : List Class} {layout : Layout}
    (h : ofDeclaration table d superclass interfaces = .ok layout) :
    layout.declaration = d ∧ layout.superclass = superclass ∧ layout.interfaces = interfaces ∧
      d.fields.foldlM FieldLayout.add (FieldLayout.start superclass) = .ok layout.fields ∧
      d.methods.foldlM
        (MethodLayout.add table d.name (d.access.has Access.interfaceFlag))
        (MethodLayout.start superclass (d.access.has Access.interfaceFlag)) =
          .ok layout.methods := by
  unfold ofDeclaration at h
  cases hf : d.fields.foldlM FieldLayout.add (FieldLayout.start superclass) with
  | error e => simp [hf, bind, Except.bind] at h
  | ok fields =>
    cases hm : d.methods.foldlM
        (MethodLayout.add table d.name (d.access.has Access.interfaceFlag))
        (MethodLayout.start superclass (d.access.has Access.interfaceFlag)) with
    | error e => simp [hf, hm, bind, Except.bind] at h
    | ok methods =>
      simp only [hf, hm, bind, Except.bind, pure, Except.pure, Except.ok.injEq] at h
      subst h
      exact ⟨rfl, rfl, rfl, rfl, rfl⟩

/-- The class at the given place, with the given class object. -/
def toClass (l : Layout) (id : ClassId) (classObject : Handle) : Class :=
  { id
    name := l.declaration.name
    access := l.declaration.access
    kind := .object
    superclass := l.superclass.map Class.id
    interfaces := l.interfaces.map Class.id
    superclasses := superclassChain l.superclass
    itable := interfaceTable l.superclass l.interfaces
    vtable :=
      l.methods.vtable.map fun
        | .inherited m => m
        | .own index => { owner := id, index }
    pool := ConstantPool.ofConstants l.declaration.constants
    bootstrapTable := l.declaration.bootstrap.flatMap BootstrapEntry.row
    fields := l.fields.fields
    methods := l.methods.methods
    instanceSize := l.fields.instanceSize
    staticSlots := l.fields.staticSlots
    classObject }

end Layout

end Linkage
