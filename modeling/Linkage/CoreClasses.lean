import Linkage.Loading

/-! # Classes defined at startup

    The classes that linkage itself refers to, in the order of definition, then
    the primitive classes and the class of arrays of objects. -/

namespace Linkage

namespace CoreClasses

open Access

/-- A class below `superclass` with the given access flags. -/
def derived (name : String) (access : Access) (superclass : String)
    (interfaces : List String) (fields : List FieldDeclaration)
    (methods : List MethodDeclaration) : ClassDeclaration :=
  { name, access, superclass := some superclass, interfaces, fields, methods }

/-- A field. -/
def field (access : Access) (name descriptor : String) : FieldDeclaration :=
  { access, name, descriptor }

/-- A method. -/
def method (access : Access) (name descriptor : String) : MethodDeclaration :=
  { access, name, descriptor }

def objectName : String := ClassDeclaration.objectName

def serializableName : String := "java/io/Serializable"

def object : ClassDeclaration :=
  { ClassDeclaration.root objectName with
    access := publicFlag
    methods :=
      [method publicFlag "<init>" "()V",
       method (publicFlag ||| nativeFlag) "hashCode" "()I",
       method publicFlag "equals" "(Ljava/lang/Object;)Z",
       method publicFlag "toString" "()Ljava/lang/String;",
       method (protectedFlag ||| nativeFlag) "clone" "()Ljava/lang/Object;"] }

def string : ClassDeclaration :=
  derived "java/lang/String" (publicFlag ||| finalFlag) objectName [serializableName]
    [field (privateFlag ||| finalFlag) "value" "[B"]
    [method publicFlag "<init>" "()V",
     method publicFlag "length" "()I",
     method publicFlag "intern" "()Ljava/lang/String;"]

def classClass : ClassDeclaration :=
  derived "java/lang/Class" (publicFlag ||| finalFlag) objectName [serializableName] []
    [method privateFlag "<init>" "()V",
     method publicFlag "getName" "()Ljava/lang/String;",
     { access := publicFlag ||| staticFlag
       name := "forName"
       descriptor := "(Ljava/lang/String;)Ljava/lang/Class;"
       callerSensitive := true }]

def number : ClassDeclaration :=
  derived "java/lang/Number" (publicFlag ||| abstractFlag) objectName [serializableName] []
    [method (publicFlag ||| abstractFlag) "intValue" "()I",
     method (publicFlag ||| abstractFlag) "longValue" "()J"]

/-- The class that boxes values with the given descriptor. -/
def box (name descriptor : String) : ClassDeclaration :=
  derived name (publicFlag ||| finalFlag) "java/lang/Number" []
    [field (privateFlag ||| finalFlag) "value" descriptor]
    [method publicFlag "intValue" "()I",
     method publicFlag "longValue" "()J"]

def executable : ClassDeclaration :=
  derived "java/lang/reflect/Executable" (publicFlag ||| abstractFlag)
    "java/lang/reflect/AccessibleObject" [] [] []

def reflectedField : ClassDeclaration :=
  derived "java/lang/reflect/Field" (publicFlag ||| finalFlag)
    "java/lang/reflect/AccessibleObject" []
    [field privateFlag "clazz" "Ljava/lang/Class;",
     field privateFlag "slot" "I",
     field privateFlag "name" "Ljava/lang/String;",
     field privateFlag "type" "Ljava/lang/Class;",
     field privateFlag "modifiers" "I"]
    []

/-- The class of reflected methods or constructors. -/
def reflectedExecutable (name : String) : ClassDeclaration :=
  derived name (publicFlag ||| finalFlag) "java/lang/reflect/Executable" []
    [field privateFlag "clazz" "Ljava/lang/Class;",
     field privateFlag "slot" "I",
     field privateFlag "signature" "Ljava/lang/String;",
     field privateFlag "modifiers" "I"]
    []

def methodType : ClassDeclaration :=
  derived "java/lang/invoke/MethodType" (publicFlag ||| finalFlag) objectName [serializableName]
    [field (privateFlag ||| finalFlag) "rtype" "Ljava/lang/Class;",
     field (privateFlag ||| finalFlag) "ptypes" "[Ljava/lang/Class;",
     field privateFlag "methodDescriptor" "Ljava/lang/String;"]
    [method publicFlag "toMethodDescriptorString" "()Ljava/lang/String;"]

def memberNameClass : String := "java/lang/invoke/MemberName"

def memberName : ClassDeclaration :=
  derived memberNameClass finalFlag objectName []
    [field privateFlag "clazz" "Ljava/lang/Class;",
     field privateFlag "name" "Ljava/lang/String;",
     field privateFlag "type" "Ljava/lang/Object;",
     field privateFlag "flags" "I",
     field privateFlag "method" "Ljava/lang/invoke/ResolvedMethodName;"]
    [method publicFlag "<init>" "()V",
     method publicFlag "getName" "()Ljava/lang/String;"]

def methodHandleClass : String := "java/lang/invoke/MethodHandle"

/-- A native method that takes and gives any values. -/
def polymorphic (access : Access) (name : String) : MethodDeclaration :=
  method (access ||| nativeFlag ||| varargsFlag) name "([Ljava/lang/Object;)Ljava/lang/Object;"

def methodHandle : ClassDeclaration :=
  derived methodHandleClass (publicFlag ||| abstractFlag) objectName []
    [field (privateFlag ||| finalFlag) "type" "Ljava/lang/invoke/MethodType;"]
    [polymorphic (publicFlag ||| finalFlag) "invokeExact",
     polymorphic (publicFlag ||| finalFlag) "invoke",
     polymorphic finalFlag "invokeBasic",
     polymorphic staticFlag "linkToVirtual",
     polymorphic staticFlag "linkToStatic",
     polymorphic staticFlag "linkToSpecial",
     polymorphic staticFlag "linkToInterface",
     method publicFlag "type" "()Ljava/lang/invoke/MethodType;"]

def callSite : ClassDeclaration :=
  derived "java/lang/invoke/CallSite" (publicFlag ||| abstractFlag) objectName []
    [field 0 "target" "Ljava/lang/invoke/MethodHandle;"]
    [method publicFlag "getTarget" "()Ljava/lang/invoke/MethodHandle;"]

def lookup : ClassDeclaration :=
  derived "java/lang/invoke/MethodHandles$Lookup" (publicFlag ||| finalFlag) objectName []
    [field (privateFlag ||| finalFlag) "lookupClass" "Ljava/lang/Class;"]
    []

def methodHandles : ClassDeclaration :=
  derived "java/lang/invoke/MethodHandles" publicFlag objectName [] []
    [{ access := publicFlag ||| staticFlag
       name := "lookup"
       descriptor := "()Ljava/lang/invoke/MethodHandles$Lookup;"
       callerSensitive := true }]

def callSiteContext : ClassDeclaration :=
  derived "java/lang/invoke/MethodHandleNatives$CallSiteContext" finalFlag objectName [] []
    [method privateFlag "<init>" "()V"]

def natives : ClassDeclaration :=
  derived Native.owner 0 objectName [] []
    (Native.all.map fun n => method (staticFlag ||| nativeFlag) n.name n.descriptor)

/-- The declared classes, in order. -/
def declarations : List ClassDeclaration :=
  [object,
   ClassDeclaration.interface "java/lang/Cloneable",
   ClassDeclaration.interface serializableName,
   string,
   classClass,
   number,
   box "java/lang/Integer" "I",
   box "java/lang/Long" "J",
   box "java/lang/Float" "F",
   box "java/lang/Double" "D",
   ClassDeclaration.plain "java/lang/reflect/AccessibleObject",
   executable,
   reflectedField,
   reflectedExecutable "java/lang/reflect/Method",
   reflectedExecutable "java/lang/reflect/Constructor",
   methodType,
   memberName,
   methodHandle,
   callSite,
   lookup,
   methodHandles,
   callSiteContext,
   natives]

end CoreClasses

open Link

/-- Define the core classes. -/
def defineCoreClasses (env : Environment) : Link Unit := do
  let _ ← forEach (defineClass env) CoreClasses.declarations
  let _ ← forEach definePrimitiveClass Primitive.all
  let _ ← loadClass env "[Ljava/lang/Object;"

/-- A machine with the core classes. A heap that is too small for their class
    objects is a failure. -/
def Machine.start (env : Environment) (config : HeapConfig) : Except Failure Machine :=
  match defineCoreClasses env (Machine.bare config) with
  | (.ok _, m) => .ok m
  | (.error e, _) => .error e

end Linkage
