/-! # Type and method descriptors

    A descriptor names a type in one word: `I`, `Ljava/lang/String;`, `[[J`; a
    method descriptor lists the types of the parameters and of the result:
    `(I[J)V`.

    * `TypeDescriptor.render` and `MethodDescriptor.render` write descriptors.
    * `TypeDescriptor.parse?` reads the descriptor of a field or parameter,
      `TypeDescriptor.parseReturn?` also that of a result, which may be `V`.
    * `MethodDescriptor.parse?` reads a method descriptor.

    All readers demand the whole word. -/

namespace Linkage

/-! ## Types -/

/-- The types that are not references. `void` is one of them: it has a class of
    its own and may stand as the result of a method. -/
inductive Primitive where
  | boolean
  | byte
  | char
  | short
  | int
  | long
  | float
  | double
  | void
  deriving DecidableEq, Repr

namespace Primitive

/-- Every primitive type, in the order in which their classes are defined. -/
def all : List Primitive :=
  [.boolean, .byte, .char, .short, .int, .long, .float, .double, .void]

/-- The letter that stands for the type in a descriptor. -/
def letter : Primitive → Char
  | .boolean => 'Z'
  | .byte => 'B'
  | .char => 'C'
  | .short => 'S'
  | .int => 'I'
  | .long => 'J'
  | .float => 'F'
  | .double => 'D'
  | .void => 'V'

/-- The name of the type's class. -/
def name : Primitive → String
  | .boolean => "boolean"
  | .byte => "byte"
  | .char => "char"
  | .short => "short"
  | .int => "int"
  | .long => "long"
  | .float => "float"
  | .double => "double"
  | .void => "void"

/-- The primitive type with the given letter. -/
def ofLetter? (c : Char) : Option Primitive :=
  all.find? (fun p => p.letter == c)

end Primitive

/-- A type as a descriptor names it. -/
inductive TypeDescriptor where
  | primitive (p : Primitive)
  | object (name : String)
  | array (component : TypeDescriptor)
  deriving DecidableEq, Repr

namespace TypeDescriptor

/-- Deepest array type that a descriptor may name. -/
def maxDimensions : Nat := 255

/-- The characters of the descriptor. -/
def chars : TypeDescriptor → List Char
  | .primitive p => [p.letter]
  | .object name => 'L' :: name.toList ++ [';']
  | .array component => '[' :: component.chars

/-- The descriptor as text. -/
def render (t : TypeDescriptor) : String :=
  String.ofList t.chars

/-- Number of array dimensions. -/
def dimensions : TypeDescriptor → Nat
  | .array component => component.dimensions + 1
  | _ => 0

/-- The primitive type, if it is one. -/
def primitive? : TypeDescriptor → Option Primitive
  | .primitive p => some p
  | _ => none

/-- The name under which the type's class is registered: the name of the
    primitive type, the name of the object type, the descriptor of the array
    type. -/
def className : TypeDescriptor → String
  | .primitive p => p.name
  | .object name => name
  | .array component => (array component).render

/-! ## Reading -/

/-- The characters that end the name of an object type. -/
def endsName (c : Char) : Bool :=
  c == ';' || c == ')'

/-- Read one type at the front, already inside `depth` array dimensions. `void`
    is accepted only where `allowVoid` says so, and never as a component. -/
def read? (allowVoid : Bool) (depth : Nat) :
    List Char → Option (TypeDescriptor × List Char)
  | [] => none
  | c :: rest =>
      if c = '[' then
        if depth = maxDimensions then none
        else (read? false (depth + 1) rest).map fun (t, rest) => (.array t, rest)
      else if c = 'L' then
        match rest.takeWhile (fun c => !endsName c), rest.dropWhile (fun c => !endsName c) with
        | n :: name, ';' :: rest => some (.object (String.ofList (n :: name)), rest)
        | _, _ => none
      else
        match Primitive.ofLetter? c with
        | some .void => if allowVoid then some (.primitive .void, rest) else none
        | some p => some (.primitive p, rest)
        | none => none

/-- The value read, provided that nothing is left over. -/
def complete? {α : Type} : Option (α × List Char) → Option α
  | some (a, []) => some a
  | _ => none

/-- The type of a field or parameter. -/
def parse? (text : String) : Option TypeDescriptor :=
  complete? (read? false 0 text.toList)

/-- The type of a result: a field type or `V`. -/
def parseReturn? (text : String) : Option TypeDescriptor :=
  complete? (read? true 0 text.toList)

end TypeDescriptor

/-! ## Methods -/

/-- The types of a method's parameters and of its result. -/
structure MethodDescriptor where
  parameters : List TypeDescriptor
  result : TypeDescriptor
  deriving DecidableEq, Repr

namespace MethodDescriptor

/-- The characters of the descriptor. -/
def chars (d : MethodDescriptor) : List Char :=
  '(' :: d.parameters.flatMap TypeDescriptor.chars ++ ')' :: d.result.chars

/-- The descriptor as text. -/
def render (d : MethodDescriptor) : String :=
  String.ofList d.chars

/-- Read types at the front as long as there is one, at most `limit` of them.
    Each takes at least one character, so the length of the text is limit
    enough. -/
def readParameters (limit : Nat) (text : List Char) :
    List TypeDescriptor × List Char :=
  match limit with
  | 0 => ([], text)
  | limit + 1 =>
      match TypeDescriptor.read? false 0 text with
      | none => ([], text)
      | some (t, rest) =>
          let (ts, rest) := readParameters limit rest
          (t :: ts, rest)

/-- The method descriptor that `text` spells. -/
def parse? (text : String) : Option MethodDescriptor :=
  match text.toList with
  | '(' :: rest =>
      match readParameters rest.length rest with
      | (parameters, ')' :: rest) =>
          (TypeDescriptor.complete? (TypeDescriptor.read? true 0 rest)).map fun result =>
            { parameters, result }
      | _ => none
  | _ => none

end MethodDescriptor

end Linkage
