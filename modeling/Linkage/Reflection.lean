import Linkage.Signature

/-! # Reflection objects

    The objects that describe declared members to Java code. -/

namespace Linkage

open Link

/-- A reflected field. -/
def newReflectedField (env : Environment) (f : FieldRef) : Link Handle := do
  let c ← classAt f.owner
  let field ← orFail (c.field? f.index) .fieldSlotOutOfRange
  let type ← classOfType env field.type
  let name ← intern field.name
  allocate (.field
    { declaringClass := c.classObject
      slot := f.index
      name
      type := type.classObject
      modifiers := field.access })

/-- A reflected method. -/
def newReflectedMethod (m : MethodRef) : Link Handle := do
  let c ← classAt m.owner
  let method ← orFail (c.method? m.index) .methodSlotOutOfRange
  let name ← intern method.name
  let signature ← intern method.descriptor.render
  allocate (.method
    { declaringClass := c.classObject
      slot := m.index
      name := some name
      signature
      modifiers := method.access })

/-- A reflected constructor. It has no name of its own. -/
def newReflectedConstructor (m : MethodRef) : Link Handle := do
  let c ← classAt m.owner
  let method ← orFail (c.method? m.index) .methodSlotOutOfRange
  let signature ← intern method.descriptor.render
  allocate (.constructor
    { declaringClass := c.classObject
      slot := m.index
      name := none
      signature
      modifiers := method.access })

end Linkage
