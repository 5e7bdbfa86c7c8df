import Linkage.Access

/-! # Flags of member names

    A member name packs its kind, the kind of reference it is used for, the
    modifiers of the member and one more mark into a 32-bit word:

    | bits    | content                                      |
    |---------|----------------------------------------------|
    | 0 – 15  | modifiers                                    |
    | 16 – 19 | method, constructor, field, type (one bit each) |
    | 20      | caller sensitive                             |
    | 24 – 27 | reference kind, 0 for none                   |

    `MemberFlags.decode` and `MemberFlags.encode` convert between the word and
    the record. `MatchFlags` is the word that selects members in an enumeration,
    `LookupOptions` the one that directs a search. -/

namespace Linkage

/-! ## Reference kinds -/

/-- What a reference to a member is used for. -/
inductive ReferenceKind where
  | getField
  | getStatic
  | putField
  | putStatic
  | invokeVirtual
  | invokeStatic
  | invokeSpecial
  | newInvokeSpecial
  | invokeInterface
  deriving DecidableEq, Repr

namespace ReferenceKind

/-- Every reference kind, in the order of their numbers. -/
def all : List ReferenceKind :=
  [.getField, .getStatic, .putField, .putStatic, .invokeVirtual, .invokeStatic, .invokeSpecial,
   .newInvokeSpecial, .invokeInterface]

/-- The number of the kind. -/
def number : ReferenceKind → Nat
  | .getField => 1
  | .getStatic => 2
  | .putField => 3
  | .putStatic => 4
  | .invokeVirtual => 5
  | .invokeStatic => 6
  | .invokeSpecial => 7
  | .newInvokeSpecial => 8
  | .invokeInterface => 9

/-- The name of the kind. -/
def name : ReferenceKind → String
  | .getField => "getField"
  | .getStatic => "getStatic"
  | .putField => "putField"
  | .putStatic => "putStatic"
  | .invokeVirtual => "invokeVirtual"
  | .invokeStatic => "invokeStatic"
  | .invokeSpecial => "invokeSpecial"
  | .newInvokeSpecial => "newInvokeSpecial"
  | .invokeInterface => "invokeInterface"

/-- The kind with the given number. -/
def ofNumber? (n : Nat) : Option ReferenceKind :=
  all.find? (fun k => k.number == n)

/-- The kind with the given name. -/
def ofName? (name : String) : Option ReferenceKind :=
  all.find? (fun k => k.name == name)

/-- The reference is to a field. -/
def isField : ReferenceKind → Bool
  | .getField => true
  | .getStatic => true
  | .putField => true
  | .putStatic => true
  | _ => false

/-- The reference is to a static field. -/
def isStaticField : ReferenceKind → Bool
  | .getStatic => true
  | .putStatic => true
  | _ => false

/-- The reference stores into a field. -/
def isPut : ReferenceKind → Bool
  | .putField => true
  | .putStatic => true
  | _ => false

/-- The field reference in the same direction for a static or an instance field. -/
def forField (kind : ReferenceKind) (isStatic : Bool) : ReferenceKind :=
  match kind.isPut, isStatic with
  | true, true => .putStatic
  | true, false => .putField
  | false, true => .getStatic
  | false, false => .getField

end ReferenceKind

/-! ## Member kinds and the packed word -/

/-- What a member name stands for. -/
inductive MemberKind where
  | method
  | constructor
  | field
  | type
  deriving DecidableEq, Repr

namespace MemberKind

/-- Every kind. The first one whose bit is set in a word is its kind. -/
def all : List MemberKind :=
  [.method, .constructor, .field, .type]

/-- The bit of the kind, as a number. -/
def bit : MemberKind → Nat
  | .method => 0x00010000
  | .constructor => 0x00020000
  | .field => 0x00040000
  | .type => 0x00080000

end MemberKind

/-- The power of two `bit` has a one in the binary form of `word`. -/
def hasBit (word bit : Nat) : Bool :=
  word / bit % 2 == 1

/-- The 32-bit word of a signed number, as a natural number. -/
def wordOf (flags : Int32) : Nat :=
  flags.toUInt32.toNat

/-- The signed number of a 32-bit word. -/
def ofWord (word : Nat) : Int32 :=
  (UInt32.ofNat word).toInt32

/-- The content of a member name's flags. -/
structure MemberFlags where
  kind : Option MemberKind
  referenceKind : Option ReferenceKind
  modifiers : Access
  callerSensitive : Bool
  deriving DecidableEq, Repr

namespace MemberFlags

/-- The bit that marks a caller-sensitive method. -/
def callerSensitiveBit : Nat := 0x00100000

/-- The place value of the reference kind. -/
def referenceKindUnit : Nat := 0x01000000

/-- The modifiers that the name of a field carries. -/
def fieldModifiers : Access := 0x50DF

/-- The modifiers that the name of a method or constructor carries. -/
def methodModifiers : Access := 0x1DFF

/-- Flags of a member that is not caller sensitive. -/
def make (kind : MemberKind) (referenceKind : ReferenceKind) (modifiers : Access) : MemberFlags :=
  { kind := some kind, referenceKind := some referenceKind, modifiers, callerSensitive := false }

/-- The record that a word packs. -/
def decode (flags : Int32) : MemberFlags :=
  let word := wordOf flags
  { kind := MemberKind.all.find? (fun k => hasBit word k.bit)
    referenceKind := ReferenceKind.ofNumber? (word / referenceKindUnit % 16)
    modifiers := UInt16.ofNat (word % 0x10000)
    callerSensitive := hasBit word callerSensitiveBit }

/-- The word that packs a record. Its parts occupy different bits. -/
def encode (f : MemberFlags) : Int32 :=
  ofWord
    (f.modifiers.toNat
      + (match f.kind with | some k => k.bit | none => 0)
      + (match f.referenceKind with | some k => k.number * referenceKindUnit | none => 0)
      + (if f.callerSensitive then callerSensitiveBit else 0))

/-- The modifiers mark a static member. -/
def isStatic (f : MemberFlags) : Bool :=
  f.modifiers.has Access.staticFlag

end MemberFlags

/-! ## Selecting members -/

/-- Which members an enumeration selects and where it looks for them. -/
structure MatchFlags where
  methods : Bool := false
  constructors : Bool := false
  fields : Bool := false
  types : Bool := false
  superclasses : Bool := false
  interfaces : Bool := false
  deriving DecidableEq, Repr

namespace MatchFlags

/-- The flags set in a word. Other bits are ignored. -/
def ofBits (bits : Int32) : MatchFlags :=
  let word := wordOf bits
  { methods := hasBit word 0x00010000
    constructors := hasBit word 0x00020000
    fields := hasBit word 0x00040000
    types := hasBit word 0x00080000
    superclasses := hasBit word 0x00100000
    interfaces := hasBit word 0x00200000 }

/-- The word of the flags. -/
def toBits (f : MatchFlags) : Int32 :=
  ofWord
    ((if f.methods then 0x00010000 else 0)
      + (if f.constructors then 0x00020000 else 0)
      + (if f.fields then 0x00040000 else 0)
      + (if f.types then 0x00080000 else 0)
      + (if f.superclasses then 0x00100000 else 0)
      + (if f.interfaces then 0x00200000 else 0))

/-- The word has no bit without a meaning. -/
def isExact (bits : Int32) : Bool :=
  (ofBits bits).toBits == bits

end MatchFlags

/-! ## Directing a search -/

/-- How a member is searched for. -/
structure LookupOptions where
  /-- The class searched must not be an interface. -/
  virtual : Bool := false
  /-- A static method is wanted. -/
  static : Bool := false
  /-- The class searched must be an interface. -/
  interface : Bool := false
  /-- An interface is searched even where `virtual` forbids it. -/
  allowForwarding : Bool := false
  /-- Two concrete default methods are an error. -/
  detectConflicts : Bool := false
  /-- Missing and inaccessible members are reported by absence, not by an error. -/
  quiet : Bool := false
  /-- Methods are matched by name only. -/
  partialSignature : Bool := false
  deriving DecidableEq, Repr

namespace LookupOptions

/-- The options set in a word. Other bits are ignored. -/
def ofBits (bits : UInt32) : LookupOptions :=
  let word := bits.toNat
  { virtual := hasBit word 0x01
    static := hasBit word 0x02
    interface := hasBit word 0x04
    allowForwarding := hasBit word 0x08
    detectConflicts := hasBit word 0x10
    quiet := hasBit word 0x20
    partialSignature := hasBit word 0x40 }

/-- The word of the options. -/
def toBits (o : LookupOptions) : Nat :=
  (if o.virtual then 0x01 else 0) + (if o.static then 0x02 else 0)
    + (if o.interface then 0x04 else 0) + (if o.allowForwarding then 0x08 else 0)
    + (if o.detectConflicts then 0x10 else 0) + (if o.quiet then 0x20 else 0)
    + (if o.partialSignature then 0x40 else 0)

end LookupOptions

end Linkage
