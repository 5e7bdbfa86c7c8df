import Linkage.Constants
import Linkage.MemberName.Enumeration

/-! # Calls of native methods

    `runNative` carries out a native method. `invokeNative` calls one by name on a
    thread: an error does not end the call but becomes the pending exception of the
    thread. -/

namespace Linkage

open Link

/-! ## Arguments -/

/-- The arguments of a call. Missing ones read as null, 0 and false. -/
abbrev Arguments : Type := List Value

namespace Arguments

def ref (args : Arguments) (index : Nat) : Option Handle :=
  args[index]?.bind Value.asRef

def int (args : Arguments) (index : Nat) : Int32 :=
  (args[index]?.map Value.asInt).getD 0

def boolean (args : Arguments) (index : Nat) : Bool :=
  (args[index]?.map Value.asBool).getD false

/-- A reference that must not be null. -/
def required (args : Arguments) (index : Nat) (what : String) : Link Handle :=
  orFail (args.ref index) (.nullArgument what)

end Arguments

/-! ## The native methods -/

/-- Set the target of a call site. -/
def setCallSiteTarget (callSite target : Handle) : Link Unit := do
  match ← read callSite with
  | .callSite _ => update callSite (fun _ => .callSite (some target))
  | _ => fail .notACallSite

/-- The first two numbers of an array of numbers. -/
def indexInfo (info : Handle) : Link (Int32 × Int32) := do
  match ← read info with
  | .intArray (count :: index :: _) => pure (count, index)
  | _ => fail .badIndexInfo

/-- Copy bootstrap arguments as the arguments of the call ask for. -/
def copyOutBootstrapArguments (env : Environment) (args : Arguments) : Link Unit := do
  let caller ← args.required 0 "caller"
  let c ← orFail (← classOfObject caller) .nativeCallerNotAClass
  let info ← args.required 1 "indexInfo"
  let (count, index) ← indexInfo info
  let buffer ← args.required 4 "buf"
  copyArguments env c
    { count
      index
      start := args.int 2
      stop := args.int 3
      buffer
      position := args.int 5
      resolve := args.boolean 6
      fallback := args.ref 7 }

/-- Carry out a native method. The answer is what it returns, if anything. -/
def runNative (env : Environment) (native : Native) (args : Arguments) :
    Link (Option Value) := do
  match native with
  | .init => do
      let mn ← args.required 0 "mname"
      let target ← args.required 1 "target"
      initMemberName mn target
      pure none
  | .expand => do
      let mn ← args.required 0 "mname"
      expandMemberName env mn
      pure none
  | .resolve => do
      let mn ← orFail (args.ref 0) .nullMemberName
      let resolved ← resolveMemberName mn (args.ref 1) (args.boolean 2)
      pure (some (.ref resolved))
  | .getMembers => do
      let outcome ← enumerateMembers env
        { clazz := args.ref 0
          name := args.ref 1
          signature := args.ref 2
          flags := MatchFlags.ofBits (args.int 3)
          caller := args.ref 4
          skip := args.int 5
          results := args.ref 6 }
      pure (some (.int outcome.code))
  | .objectFieldOffset => do
      let mn ← args.required 0 "mname"
      let offset ← objectFieldOffset mn
      pure (some (.long offset))
  | .staticFieldOffset => do
      let mn ← args.required 0 "mname"
      let offset ← staticFieldOffset mn
      pure (some (.long offset))
  | .staticFieldBase => do
      let mn ← args.required 0 "mname"
      let base ← staticFieldBase mn
      pure (some (.ref (some base)))
  | .getMemberVMInfo =>
      match args.ref 0 with
      | none => pure (some (.ref none))
      | some mn => do
          let info ← memberVMInfo mn
          pure (some (.ref (some info)))
  | .setCallSiteTargetNormal => setTarget
  | .setCallSiteTargetVolatile => setTarget
  | .copyOutBootstrapArguments => do
      copyOutBootstrapArguments env args
      pure none
  | .clearCallSiteContext => pure none
  | .getNamedCon => pure (some (.int 0))
  | .registerNatives => pure none
where
  setTarget : Link (Option Value) := do
    let callSite ← args.required 0 "call site"
    let target ← args.required 1 "target"
    setCallSiteTarget callSite target
    pure none

/-! ## Threads -/

/-- A thread of Java code. -/
structure Thread where
  /-- The error of the last call that failed, until it is taken. -/
  pending : Option LinkError := none

/-- The implementation of a method of a class. -/
def Class.native? (c : Class) (name descriptor : String) : Option Native :=
  (c.methods.find? (fun m => m.isCalled name (some descriptor))).bind Method.native

/-- Call a native method by class, name and descriptor. -/
def callNative (env : Environment) (className name descriptor : String) (args : Arguments) :
    Link (Option Value) := do
  let c ← loadClass env className
  let native ←
    orFail (c.native? name descriptor) (.noNativeImplementation className name descriptor)
  runNative env native args

/-- Call a native method on a thread. A failed call leaves its error pending; a
    successful one leaves an older error pending. -/
def invokeNative (env : Environment) (thread : Thread) (className name descriptor : String)
    (args : Arguments) : Link (Option Value × Thread) := do
  match ← attempt (callNative env className name descriptor args) with
  | .ok value => pure (value, thread)
  | .error e => pure (none, { pending := some e })

end Linkage
