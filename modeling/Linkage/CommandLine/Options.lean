/-! # Options of a command line

    `sortArguments` tells options from positional arguments. An option is written
    `--name`, with a value `--name value` or `--name=value`, and may have a short
    form of one letter. -/

namespace Linkage

/-! ## Reading numbers -/

/-- A natural number below `limit`; a plus sign is allowed. -/
def readNat? (limit : Nat) (text : String) : Option Nat :=
  let digits :=
    match text.toList with
    | '+' :: rest => rest
    | all => all
  if digits.isEmpty || !digits.all Char.isDigit then none
  else
    let value := digits.foldl (fun n c => 10 * n + (c.toNat - '0'.toNat)) 0
    if value < limit then some value else none

/-- A signed 32-bit number. -/
def readInt32? (text : String) : Option Int32 :=
  match text.toList with
  | '-' :: rest =>
      if rest.head? = some '+' then none
      else
        (readNat? 0x80000001 (String.ofList rest)).map (fun n => Int32.ofInt (-(n : Int)))
  | _ => (readNat? 0x80000000 text).map Int32.ofNat

/-! ## Reading arguments -/

/-- An option of the command line: its long name and whether it takes a value. -/
structure OptionSpec where
  name : String
  takesValue : Bool
  /-- The option may be given more than once. -/
  repeats : Bool := false
  /-- The letter of its short form. -/
  short : Option Char := none

/-- The arguments sorted out: the options given, with their values, and the
    positional arguments, each in order. -/
structure SortedArguments where
  options : List (String × String) := []
  positionals : List String := []

namespace SortedArguments

/-- The value of an option. -/
def value? (a : SortedArguments) (name : String) : Option String :=
  a.options.lookup name

/-- All values of an option. -/
def values (a : SortedArguments) (name : String) : List String :=
  (a.options.filter (fun o => o.1 == name)).map Prod.snd

/-- The option is given. -/
def has (a : SortedArguments) (name : String) : Bool :=
  (a.value? name).isSome

end SortedArguments

/-- The argument is not the name of an option: it does not start with a dash, or is
    nothing but a dash. -/
def isPlain (argument : String) : Bool :=
  argument.toList.head? != some '-' || argument == "-"

/-- Split a long option at the first `=`. -/
def splitOption (text : List Char) : String × Option String :=
  match text.span (fun c => c != '=') with
  | (name, _ :: value) => (String.ofList name, some (String.ofList value))
  | (name, []) => (String.ofList name, none)

/-- Add an option to those given, unless it is there and may not be repeated. -/
def addOption (spec : OptionSpec) (value : String) (given : List (String × String)) :
    Option (List (String × String)) :=
  if given.any (fun o => o.1 == spec.name) && !spec.repeats then none
  else some (given ++ [(spec.name, value)])

/-- An option as it stands on the command line, with the value attached to it. -/
def readOption? (specs : List OptionSpec) (argument : String) :
    Option (OptionSpec × Option String) :=
  match argument.toList with
  | '-' :: '-' :: text =>
      let (name, value) := splitOption text
      (specs.find? (fun s => s.name == name)).map (fun s => (s, value))
  | '-' :: letter :: text =>
      let value :=
        match text with
        | [] => none
        | '=' :: rest => some (String.ofList rest)
        | _ => some (String.ofList text)
      (specs.find? (fun s => s.short == some letter)).map (fun s => (s, value))
  | _ => none

/-- Sort the arguments out. With `stopAtPlain` everything from the first plain
    argument on is positional. After `--` all arguments are positional. -/
def sortArguments (specs : List OptionSpec) (stopAtPlain : Bool) :
    List (String × String) → List String → List String → Option SortedArguments
  | options, positionals, [] => some { options, positionals }
  | options, positionals, argument :: rest =>
      if isPlain argument then
        if stopAtPlain then some { options, positionals := positionals ++ argument :: rest }
        else sortArguments specs stopAtPlain options (positionals ++ [argument]) rest
      else if argument == "--" then
        if stopAtPlain then none else some { options, positionals := positionals ++ rest }
      else
        match readOption? specs argument with
        | none => none
        | some (spec, some value) =>
            if spec.takesValue then
              (addOption spec value options).bind fun options =>
                sortArguments specs stopAtPlain options positionals rest
            else none
        | some (spec, none) =>
            if spec.takesValue then
              match rest with
              | value :: rest =>
                  if isPlain value then
                    (addOption spec value options).bind fun options =>
                      sortArguments specs stopAtPlain options positionals rest
                  else none
              | [] => none
            else
              (addOption spec "" options).bind fun options =>
                sortArguments specs stopAtPlain options positionals rest

/-- The number of a value, or the default if the option is not given. -/
def readOr? {α : Type} (read : String → Option α) (default : α) : Option String → Option α
  | none => some default
  | some text => read text

/-- One more than the largest size. -/
def sizeLimit : Nat := 0x10000000000000000

end Linkage
