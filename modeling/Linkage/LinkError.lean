import Linkage.ClassFile.Basic

/-! # Failures of linkage

    Every way in which linkage can fail, each with the Java class that reports it
    (`LinkError.kind`) and its wording (`LinkError.message?`). -/

namespace Linkage

/-- The Java classes that report failures. -/
inductive ErrorKind where
  | nullPointer
  | illegalArgument
  | internalError
  | linkageError
  | noSuchField
  | noSuchMethod
  | incompatibleClassChange
  | illegalAccess
  | noClassDefFound
  | classFormat
  | classCircularity
  | bootstrapMethod
  | arrayIndexOutOfBounds
  | outOfMemory
  deriving DecidableEq, Repr

/-- The name of the Java class. -/
def ErrorKind.className : ErrorKind → String
  | .nullPointer => "java/lang/NullPointerException"
  | .illegalArgument => "java/lang/IllegalArgumentException"
  | .internalError => "java/lang/InternalError"
  | .linkageError => "java/lang/LinkageError"
  | .noSuchField => "java/lang/NoSuchFieldError"
  | .noSuchMethod => "java/lang/NoSuchMethodError"
  | .incompatibleClassChange => "java/lang/IncompatibleClassChangeError"
  | .illegalAccess => "java/lang/IllegalAccessError"
  | .noClassDefFound => "java/lang/NoClassDefFoundError"
  | .classFormat => "java/lang/ClassFormatError"
  | .classCircularity => "java/lang/ClassCircularityError"
  | .bootstrapMethod => "java/lang/BootstrapMethodError"
  | .arrayIndexOutOfBounds => "java/lang/ArrayIndexOutOfBoundsException"
  | .outOfMemory => "java/lang/OutOfMemoryError"

/-- Why linkage failed. Classes and members are given by name. -/
inductive LinkError where
  -- arguments
  | nullArgument (what : String)
  | notAClassObject
  | parameterNotAClass
  | resultNotAClass
  | callerNotAClass
  | unknownReflection
  | notACallSite
  | fieldNotExpandable
  -- objects that are not what they should be
  | nullMemberName
  | notAMemberName
  | notAString
  | typeWithoutSignature
  | declaringClassNotAClass
  | nativeCallerNotAClass
  | badIndexInfo
  | notAnArgumentBuffer
  | fieldSlotOutOfRange
  | methodSlotOutOfRange
  | memberNotExpandable
  | memberWithoutReferenceKind
  | memberNotResolved
  | notAField (wantStatic : Bool)
  | unknownIdentity
  | coreClassMissing (name : String)
  -- constants
  | notAClassConstant
  | notAStringConstant
  | notAMethodTypeConstant
  | notAMethodHandleConstant
  | notADynamicConstant
  | noDynamicConstantAt (owner : String) (index : UInt16)
  | invalidPoolIndex (owner : String) (index : UInt16)
  | poolIndexOutOfRange (owner : String) (index : UInt16)
  | notAMemberReference (tag : Option ConstantTag)
  -- bootstrap methods
  | noInvoker
  | bootstrapReturnedNull
  | bootstrapIndexOutOfRange
  | argumentCountMismatch (declared : Int32) (stored : Nat)
  | badArgumentRange (start stop position : Int32) (length : Nat)
  | argumentPoolIndexOutOfRange (index : Int32)
  | argumentsOfNoDynamicConstant (owner : String) (index : Int32)
  | noBootstrapMethod (owner : String) (index : UInt16)
  | argumentOutOfRange (index : Int)
  -- resolution and search
  | resolutionFailed
  | fieldResolutionFailed
  | methodResolutionFailed
  | noSuchField (owner name : String)
  | noSuchMethod (owner name signature : String)
  | isAnInterface (owner : String)
  | isNotAnInterface (owner : String)
  | staticMismatch (owner name : String) (isStatic : Bool)
  | conflictingDefaults (first second name : String)
  | inaccessible (caller owner name : String)
  | noNativeImplementation (owner name descriptor : String)
  -- loading and defining classes
  | classNotFound (name : String)
  | wrongName (name actual : String)
  | classCircularity (name : String)
  | cannotExtend (name superclass : String)
  | cannotImplement (name interface : String)
  | malformedFile (fault : FormatError)
  | badFieldDescriptor (descriptor : String)
  | badMethodDescriptor (descriptor : String)
  | invalidTypeDescriptor (descriptor : String)
  | invalidMethodDescriptor (descriptor : String)
  -- resources
  | arrayIndexOutOfBounds
  | outOfMemory

namespace LinkError

/-- The Java class that reports the failure. -/
def kind : LinkError → ErrorKind
  | .nullArgument _ => .nullPointer
  | .notAClassObject => .illegalArgument
  | .parameterNotAClass => .illegalArgument
  | .resultNotAClass => .illegalArgument
  | .callerNotAClass => .illegalArgument
  | .unknownReflection => .illegalArgument
  | .notACallSite => .illegalArgument
  | .fieldNotExpandable => .illegalArgument
  | .nullMemberName => .internalError
  | .notAMemberName => .internalError
  | .notAString => .internalError
  | .typeWithoutSignature => .internalError
  | .declaringClassNotAClass => .internalError
  | .nativeCallerNotAClass => .internalError
  | .badIndexInfo => .internalError
  | .notAnArgumentBuffer => .internalError
  | .fieldSlotOutOfRange => .internalError
  | .methodSlotOutOfRange => .internalError
  | .memberNotExpandable => .internalError
  | .memberWithoutReferenceKind => .internalError
  | .memberNotResolved => .internalError
  | .notAField _ => .internalError
  | .unknownIdentity => .internalError
  | .coreClassMissing _ => .internalError
  | .notAClassConstant => .internalError
  | .notAStringConstant => .internalError
  | .notAMethodTypeConstant => .internalError
  | .notAMethodHandleConstant => .internalError
  | .notADynamicConstant => .internalError
  | .noDynamicConstantAt _ _ => .internalError
  | .invalidPoolIndex _ _ => .linkageError
  | .poolIndexOutOfRange _ _ => .linkageError
  | .notAMemberReference _ => .linkageError
  | .noInvoker => .bootstrapMethod
  | .bootstrapReturnedNull => .bootstrapMethod
  | .bootstrapIndexOutOfRange => .internalError
  | .argumentCountMismatch _ _ => .internalError
  | .badArgumentRange _ _ _ _ => .linkageError
  | .argumentPoolIndexOutOfRange _ => .linkageError
  | .argumentsOfNoDynamicConstant _ _ => .linkageError
  | .noBootstrapMethod _ _ => .linkageError
  | .argumentOutOfRange _ => .linkageError
  | .resolutionFailed => .linkageError
  | .fieldResolutionFailed => .noSuchField
  | .methodResolutionFailed => .noSuchMethod
  | .noSuchField _ _ => .noSuchField
  | .noSuchMethod _ _ _ => .noSuchMethod
  | .isAnInterface _ => .incompatibleClassChange
  | .isNotAnInterface _ => .incompatibleClassChange
  | .staticMismatch _ _ _ => .incompatibleClassChange
  | .conflictingDefaults _ _ _ => .incompatibleClassChange
  | .inaccessible _ _ _ => .illegalAccess
  | .noNativeImplementation _ _ _ => .linkageError
  | .classNotFound _ => .noClassDefFound
  | .wrongName _ _ => .noClassDefFound
  | .classCircularity _ => .classCircularity
  | .cannotExtend _ _ => .incompatibleClassChange
  | .cannotImplement _ _ => .incompatibleClassChange
  | .malformedFile _ => .classFormat
  | .badFieldDescriptor _ => .classFormat
  | .badMethodDescriptor _ => .classFormat
  | .invalidTypeDescriptor _ => .classFormat
  | .invalidMethodDescriptor _ => .classFormat
  | .arrayIndexOutOfBounds => .arrayIndexOutOfBounds
  | .outOfMemory => .outOfMemory

/-- The wording of the failure. -/
def message? : LinkError → Option String
  | .nullArgument what => s!"{what} is null"
  | .notAClassObject => "not a class object"
  | .parameterNotAClass => "parameter type is not a class"
  | .resultNotAClass => "return type is not a class"
  | .callerNotAClass => "caller is not a class"
  | .unknownReflection => "unrecognized reflection object"
  | .notACallSite => "not a CallSite"
  | .fieldNotExpandable => "nothing to expand"
  | .nullMemberName => "mname is null"
  | .notAMemberName => "not a MemberName"
  | .notAString => "not a string"
  | .typeWithoutSignature =>
      "MemberName type is neither a MethodType, a String nor a Class"
  | .declaringClassNotAClass => "declaring class is not a class object"
  | .nativeCallerNotAClass => "caller is not a class"
  | .badIndexInfo => "bad index info"
  | .notAnArgumentBuffer => "bootstrap argument buffer is not an Object[]"
  | .fieldSlotOutOfRange => "field slot out of range"
  | .methodSlotOutOfRange => "method slot out of range"
  | .memberNotExpandable => "nothing to expand"
  | .memberWithoutReferenceKind => "obsolete MemberName format"
  | .memberNotResolved => "mname not resolved"
  | .notAField true => "not a static field"
  | .notAField false => "not an instance field"
  | .unknownIdentity => "unknown vmindex"
  | .coreClassMissing name => s!"core class {name} is missing"
  | .notAClassConstant => "not a class constant"
  | .notAStringConstant => "not a string constant"
  | .notAMethodTypeConstant => "not a method type constant"
  | .notAMethodHandleConstant => "not a method handle constant"
  | .notADynamicConstant => "not a dynamic constant"
  | .noDynamicConstantAt owner index => s!"{owner}: #{index} is not a dynamic constant"
  | .invalidPoolIndex owner index => s!"{owner}: invalid constant pool index {index}"
  | .poolIndexOutOfRange owner index => s!"{owner}: constant pool index {index} out of range"
  | .notAMemberReference (some tag) =>
      "expected a member reference, found Some(" ++ tag.name ++ ")"
  | .notAMemberReference none => "expected a member reference, found None"
  | .noInvoker => "no bootstrap method invoker installed"
  | .bootstrapReturnedNull => "bootstrap method returned null"
  | .bootstrapIndexOutOfRange => "bootstrap method index out of range"
  | .argumentCountMismatch declared stored =>
      s!"bootstrap argument count mismatch: {declared} declared, {stored} stored"
  | .badArgumentRange start stop position length =>
      s!"bad bootstrap argument range {start}..{stop} at {position} for length {length}"
  | .argumentPoolIndexOutOfRange index => s!"constant pool index {index} out of range"
  | .argumentsOfNoDynamicConstant owner index =>
      s!"{owner}: constant pool index {index} is not a dynamic constant"
  | .noBootstrapMethod owner index => s!"{owner}: no bootstrap method #{index}"
  | .argumentOutOfRange index => s!"bootstrap argument {index} out of range"
  | .resolutionFailed => "resolution failed"
  | .fieldResolutionFailed => "field resolution failed"
  | .methodResolutionFailed => "method resolution failed"
  | .noSuchField owner name => s!"{owner}.{name}"
  | .noSuchMethod owner name signature => s!"{owner}.{name}{signature}"
  | .isAnInterface owner => s!"{owner} is an interface"
  | .isNotAnInterface owner => s!"{owner} is not an interface"
  | .staticMismatch owner name true => s!"{owner}.{name} is static"
  | .staticMismatch owner name false => s!"{owner}.{name} is not static"
  | .conflictingDefaults first second name =>
      s!"conflicting default methods: {first}.{name} and {second}.{name}"
  | .inaccessible caller owner name => s!"{caller} cannot access {owner}.{name}"
  | .noNativeImplementation owner name descriptor =>
      s!"no native implementation for {owner}.{name}{descriptor}"
  | .classNotFound name => name
  | .wrongName name actual => s!"{name} (wrong name: {actual})"
  | .classCircularity name => name
  | .cannotExtend name superclass => s!"{name} cannot extend {superclass}"
  | .cannotImplement name interface => s!"{name} cannot implement class {interface}"
  | .malformedFile fault => fault.message
  | .badFieldDescriptor descriptor => s!"Could not parse field descriptor {descriptor}"
  | .badMethodDescriptor descriptor => s!"Could not parse method descriptor {descriptor}"
  | .invalidTypeDescriptor descriptor => s!"invalid type descriptor {descriptor}"
  | .invalidMethodDescriptor descriptor => s!"invalid method descriptor {descriptor}"
  | .arrayIndexOutOfBounds => none
  | .outOfMemory => "Java heap space"

/-- Kind and wording in one line. -/
def render (e : LinkError) : String :=
  match e.message? with
  | some text => e.kind.className ++ ": " ++ text
  | none => e.kind.className

end LinkError

end Linkage
