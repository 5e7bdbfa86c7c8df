/-! # Native methods

    The native methods that have an implementation. They all belong to the class
    `java/lang/invoke/MethodHandleNatives` and carry out linkage for the method
    handle library. -/

namespace Linkage

/-- A native method with an implementation. -/
inductive Native where
  | init
  | expand
  | resolve
  | getMembers
  | objectFieldOffset
  | staticFieldOffset
  | staticFieldBase
  | getMemberVMInfo
  | setCallSiteTargetNormal
  | setCallSiteTargetVolatile
  | copyOutBootstrapArguments
  | clearCallSiteContext
  | getNamedCon
  | registerNatives
  deriving DecidableEq, Repr

namespace Native

/-- The class that declares the native methods. -/
def owner : String := "java/lang/invoke/MethodHandleNatives"

/-- Every native method, in the order of declaration. -/
def all : List Native :=
  [.init, .expand, .resolve, .getMembers, .objectFieldOffset, .staticFieldOffset,
   .staticFieldBase, .getMemberVMInfo, .setCallSiteTargetNormal, .setCallSiteTargetVolatile,
   .copyOutBootstrapArguments, .clearCallSiteContext, .getNamedCon, .registerNatives]

/-- The name of the method. -/
def name : Native → String
  | .init => "init"
  | .expand => "expand"
  | .resolve => "resolve"
  | .getMembers => "getMembers"
  | .objectFieldOffset => "objectFieldOffset"
  | .staticFieldOffset => "staticFieldOffset"
  | .staticFieldBase => "staticFieldBase"
  | .getMemberVMInfo => "getMemberVMInfo"
  | .setCallSiteTargetNormal => "setCallSiteTargetNormal"
  | .setCallSiteTargetVolatile => "setCallSiteTargetVolatile"
  | .copyOutBootstrapArguments => "copyOutBootstrapArguments"
  | .clearCallSiteContext => "clearCallSiteContext"
  | .getNamedCon => "getNamedCon"
  | .registerNatives => "registerNatives"

/-- The descriptor of the method. -/
def descriptor : Native → String
  | .init => "(Ljava/lang/invoke/MemberName;Ljava/lang/Object;)V"
  | .expand => "(Ljava/lang/invoke/MemberName;)V"
  | .resolve =>
      "(Ljava/lang/invoke/MemberName;Ljava/lang/Class;Z)Ljava/lang/invoke/MemberName;"
  | .getMembers =>
      "(Ljava/lang/Class;Ljava/lang/String;Ljava/lang/String;ILjava/lang/Class;I"
        ++ "[Ljava/lang/invoke/MemberName;)I"
  | .objectFieldOffset => "(Ljava/lang/invoke/MemberName;)J"
  | .staticFieldOffset => "(Ljava/lang/invoke/MemberName;)J"
  | .staticFieldBase => "(Ljava/lang/invoke/MemberName;)Ljava/lang/Object;"
  | .getMemberVMInfo => "(Ljava/lang/invoke/MemberName;)Ljava/lang/Object;"
  | .setCallSiteTargetNormal =>
      "(Ljava/lang/invoke/CallSite;Ljava/lang/invoke/MethodHandle;)V"
  | .setCallSiteTargetVolatile =>
      "(Ljava/lang/invoke/CallSite;Ljava/lang/invoke/MethodHandle;)V"
  | .copyOutBootstrapArguments =>
      "(Ljava/lang/Class;[III[Ljava/lang/Object;IZLjava/lang/Object;)V"
  | .clearCallSiteContext => "(Ljava/lang/invoke/MethodHandleNatives$CallSiteContext;)V"
  | .getNamedCon => "(I[Ljava/lang/Object;)I"
  | .registerNatives => "()V"

/-- The native method with the given name. -/
def ofName? (name : String) : Option Native :=
  all.find? (fun n => n.name == name)

/-- The implementation of a method declared by some class. -/
def find? (className name descriptor : String) : Option Native :=
  if className = owner then all.find? (fun n => n.name == name && n.descriptor == descriptor)
  else none

end Native

end Linkage
