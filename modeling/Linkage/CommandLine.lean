import Linkage.CommandLine.Options
import Linkage.CoreClasses
import Linkage.Describe
import Linkage.Natives

/-! # The command line

    `members`, `resolve` and `bootstrap-args` over a class path.

    * `Invocation.parse?` reads the arguments.
    * `Invocation.run` carries them out on a fresh machine and gives the lines to
      print or the error. -/

namespace Linkage

open Link

/-- The options of the command `members`. -/
structure MembersOptions where
  name : Option String := none
  signature : Option String := none
  /-- Fields instead of methods and constructors. -/
  fields : Bool := false
  supers : Bool := false
  interfaces : Bool := false
  skip : Int32 := 0
  /-- Number of members that are shown. -/
  max : Nat := 32

/-- A command. -/
inductive Command where
  | members (className : String) (options : MembersOptions)
  | resolve (className name descriptor : String) (kind : ReferenceKind) (speculative : Bool)
  | bootstrapArguments (className : String) (index : UInt16) (resolve : Bool)

/-- What the command line asks for. -/
structure Invocation where
  /-- The directories of the class path. -/
  directories : List String
  heap : HeapConfig
  command : Command

/-! ## Reading the command line -/

namespace Command

/-- Read the arguments of `members`. -/
def parseMembers? (args : List String) : Option Command := do
  let a ← sortArguments
    [{ name := "name", takesValue := true }, { name := "sig", takesValue := true },
     { name := "fields", takesValue := false }, { name := "supers", takesValue := false },
     { name := "interfaces", takesValue := false }, { name := "skip", takesValue := true },
     { name := "max", takesValue := true }]
    false [] [] args
  let skip ← readOr? readInt32? 0 (a.value? "skip")
  let max ← readOr? (readNat? sizeLimit) 32 (a.value? "max")
  match a.positionals with
  | [className] =>
      some (.members className
        { name := a.value? "name"
          signature := a.value? "sig"
          fields := a.has "fields"
          supers := a.has "supers"
          interfaces := a.has "interfaces"
          skip
          max })
  | _ => none

/-- Read the arguments of `resolve`. -/
def parseResolve? (args : List String) : Option Command := do
  let a ← sortArguments
    [{ name := "kind", takesValue := true }, { name := "speculative", takesValue := false }]
    false [] [] args
  let kind ← readOr? ReferenceKind.ofName? .invokeVirtual (a.value? "kind")
  match a.positionals with
  | [className, name, descriptor] =>
      some (.resolve className name descriptor kind (a.has "speculative"))
  | _ => none

/-- Read the arguments of `bootstrap-args`. -/
def parseBootstrapArguments? (args : List String) : Option Command := do
  let a ← sortArguments [{ name := "no-resolve", takesValue := false }] false [] [] args
  match a.positionals with
  | [className, index] => do
      let index ← readNat? 0x10000 index
      some (.bootstrapArguments className (UInt16.ofNat index) (!a.has "no-resolve"))
  | _ => none

/-- Read a command and its arguments. -/
def parse? : List String → Option Command
  | "members" :: args => parseMembers? args
  | "resolve" :: args => parseResolve? args
  | "bootstrap-args" :: args => parseBootstrapArguments? args
  | _ => none

end Command

/-- Read the command line; nothing if it makes no sense. -/
def Invocation.parse? (args : List String) : Option Invocation := do
  let a ← sortArguments
    [{ name := "classpath", takesValue := true, repeats := true, short := some 'c' },
     { name := "heap-capacity", takesValue := true },
     { name := "gc-stress", takesValue := true }]
    true [] [] args
  let standard : HeapConfig := {}
  let capacity ← readOr? (readNat? sizeLimit) standard.capacity (a.value? "heap-capacity")
  let relocateEvery ← readOr? (readNat? sizeLimit) 0 (a.value? "gc-stress")
  let command ← Command.parse? a.positionals
  some
    { directories := a.values "classpath"
      heap := { capacity, relocateEvery }
      command }

/-! ## Carrying out commands -/

/-- Put a new member name into each place of an array. -/
def fillWithMemberNames (array : Handle) (length : Nat) : Link Unit := do
  let _ ← forEach
    (fun index => do
      let mn ← allocate (.memberName {})
      update array (Object.setElement index (some mn)))
    (List.range length)

/-- A new array of new member names. -/
def newMemberNameArray (length : Nat) : Link Handle := do
  let component ← coreClass CoreClasses.memberNameClass
  let array ← newArray component.id length
  fillWithMemberNames array length
  pure array

/-- Intern a text, if there is one. -/
def internOptional : Option String → Link (Option Handle)
  | none => pure none
  | some text => some <$> intern text

/-- The flags that the options of `members` stand for. -/
def MembersOptions.flags (o : MembersOptions) : MatchFlags :=
  { methods := !o.fields
    constructors := !o.fields
    fields := o.fields
    superclasses := o.supers
    interfaces := o.interfaces }

/-- List members of a class: how many match, then those shown. -/
def runMembers (env : Environment) (className : String) (o : MembersOptions) :
    Link (List String) := do
  let c ← loadClass env className
  let name ← internOptional o.name
  let signature ← internOptional o.signature
  let results ← newMemberNameArray o.max
  let outcome ← enumerateMembers env
    { clazz := some c.classObject
      name
      signature
      flags := o.flags
      caller := none
      skip := o.skip
      results := some results }
  let shown := min (outcome.code.toInt - max o.skip.toInt 0).toNat o.max
  let lines ← forEach describe ((← elements results).take shown)
  pure (s!"{outcome.code} matches" :: lines.map ("  " ++ ·))

/-- What kind of member a reference of some kind refers to. -/
def ReferenceKind.memberKind (kind : ReferenceKind) : MemberKind :=
  if kind.isField then .field
  else if kind = .newInvokeSpecial then .constructor
  else .method

/-- Resolve a member: the member name, its identity and its target. -/
def runResolve (env : Environment) (className name descriptor : String) (kind : ReferenceKind)
    (speculative : Bool) : Link (List String) := do
  let c ← loadClass env className
  let name ← intern name
  let type ← intern descriptor
  let mn ← allocate (.memberName
    { flags := (MemberFlags.make kind.memberKind kind 0).encode
      name := some name
      type := some type
      clazz := some c.classObject })
  match ← resolveMemberName mn none speculative with
  | some resolved => do
      let m ← readMemberName resolved
      let description ← describe (some resolved)
      let vmindex := hexadecimal m.vmindex
      let vmtarget := hexadecimal m.vmtarget
      pure [description, s!"  vmindex={vmindex} vmtarget={vmtarget}"]
  | none => pure ["not resolved"]

/-- The label of a bootstrap argument by its place in the buffer. -/
def argumentLabel (place : Nat) : String :=
  match place with
  | 0 => "bsm"
  | 1 => "name"
  | 2 => "type"
  | 3 => "count"
  | place + 4 => s!"arg{place}"

/-- Blanks before a text up to the given width. -/
def padLeft (width : Nat) (text : String) : String :=
  String.ofList (List.replicate (width - text.length) ' ') ++ text

/-- List the arguments of the bootstrap method of a dynamic constant. -/
def runBootstrapArguments (env : Environment) (className : String) (index : UInt16)
    (resolve : Bool) : Link (List String) := do
  let c ← loadClass env className
  match c.pool.get? index with
  | some (.dynamic number _ _) => do
      let count :=
        match c.bootstrapMethod? number with
        | some bootstrap => bootstrap.arguments.length
        | none => 0
      let object ← coreClass ClassDeclaration.objectName
      let buffer ← newArray object.id (count + 4)
      copyArguments env c
        { count := Int32.ofNat count
          index := Int32.ofNat index.toNat
          start := -4
          stop := Int32.ofNat count
          buffer
          position := 0
          resolve
          fallback := none }
      let values ← forEach describe (← elements buffer)
      pure (values.zipIdx.map fun (value, place) =>
        padLeft 6 (argumentLabel place) ++ ": " ++ value)
  | _ => fail (.noDynamicConstantAt c.name index)

/-- Carry out a command. The answer is the lines to print. -/
def Command.run (env : Environment) : Command → Link (List String)
  | .members className o => runMembers env className o
  | .resolve className name descriptor kind speculative =>
      runResolve env className name descriptor kind speculative
  | .bootstrapArguments className index resolving =>
      runBootstrapArguments env className index resolving

/-- Carry out a command line over a class path: the lines to print, or the failure. -/
def Invocation.run (i : Invocation) (classPath : ClassPath) : Except Failure (List String) := do
  let env : Environment := { classPath, invoker := none }
  let machine ← Machine.start env i.heap
  (i.command.run env machine).1

end Linkage
