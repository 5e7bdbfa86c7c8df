/-! # Access flags

    The flag words of classes, fields and methods. -/

namespace Linkage

/-- The access flags of a class, field or method. -/
abbrev Access : Type := UInt16

namespace Access

def publicFlag : Access := 0x0001
def privateFlag : Access := 0x0002
def protectedFlag : Access := 0x0004
def staticFlag : Access := 0x0008
def finalFlag : Access := 0x0010
def superFlag : Access := 0x0020
def varargsFlag : Access := 0x0080
def nativeFlag : Access := 0x0100
def interfaceFlag : Access := 0x0200
def abstractFlag : Access := 0x0400

/-- All bits of `flag` are set in `access`. -/
def has (access flag : Access) : Bool :=
  access &&& flag == flag

end Access

end Linkage
