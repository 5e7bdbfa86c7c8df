import Linkage.Class.Table
import Linkage.LinkError

/-! # Searching for members

    Searches depend on the class table only.

    * A method is looked for in the class, then in its superclasses, the nearest
      first, then in its interfaces. Of the interface methods only the maximally
      specific ones count: those that no subinterface declares again. A concrete
      one is preferred.
    * A field is looked for in the class, then in its interfaces, then in its
      superclass, each searched in the same way.
    * What is found must be static or not, as asked for, and accessible to the
      caller if one is given.

    `linkMethod` and `linkField` derive what to ask for from a reference kind. -/

namespace Linkage

/-! ## Access -/

/-- Whether a member with the given flags, declared by `declaring`, is accessible
    to code of `caller`. -/
def isAccessible (declaring : Class) (access : Access) (caller : Class) : Bool :=
  if access.has Access.publicFlag then true
  else if access.has Access.privateFlag then declaring.id == caller.id
  else if declaring.package == caller.package then true
  else if access.has Access.protectedFlag then caller.isSubclassOf declaring.id
  else false

/-- What a search that finds nothing answers. -/
def LookupOptions.missing {α : Type} (options : LookupOptions) (e : LinkError) :
    Except LinkError (Option α) :=
  if options.quiet then .ok none else .error e

namespace ClassTable

variable (t : ClassTable)

/-! ## Methods -/

/-- The first method declared by a class that is called so. -/
def declaredMethod? (c : Class) (name : String) (descriptor : Option String) : Option MethodRef :=
  (c.findMethod? name descriptor).map (fun index => { owner := c.id, index })

/-- The method from the nearest superclass that declares one. -/
def superclassMethod? (c : Class) (name : String) (descriptor : Option String) :
    Option MethodRef :=
  c.superclasses.reverse.findSome? fun id =>
    (t.get? id).bind (fun s => declaredMethod? s name descriptor)

/-- The method that an interface offers to the classes below it: its first one
    that is called so, if it is neither static nor private. -/
def offeredMethod? (i : Class) (name : String) (descriptor : Option String) : Option MethodRef :=
  match declaredMethod? i name descriptor with
  | some r =>
      match i.method? r.index with
      | some m => if m.isStatic || m.isPrivate then none else some r
      | none => none
  | none => none

/-- The methods that the interfaces of a class offer, in the order of its interface
    table. -/
def interfaceMethods (c : Class) (name : String) (descriptor : Option String) :
    List MethodRef :=
  c.itable.filterMap fun id =>
    (t.get? id).bind (fun i => offeredMethod? i name descriptor)

/-- One of the methods is declared by another interface below that of `r`. -/
def isShadowed (methods : List MethodRef) (r : MethodRef) : Bool :=
  methods.any fun other =>
    other.owner != r.owner
      && (match t.get? other.owner with
          | some i => i.implements r.owner
          | none => false)

/-- The maximally specific interface methods. -/
def specificMethods (c : Class) (name : String) (descriptor : Option String) : List MethodRef :=
  let methods := t.interfaceMethods c name descriptor
  methods.filter (fun r => !t.isShadowed methods r)

/-- The method has a body. -/
def isConcrete (r : MethodRef) : Bool :=
  match t.method? r with
  | some m => !m.isAbstract
  | none => false

/-- The first concrete method, or else the first one. Two concrete ones are an error
    if conflicts are to be detected. -/
def chooseMethod (detectConflicts : Bool) (name : String) (methods : List MethodRef) :
    Except LinkError (Option MethodRef) :=
  match methods.filter t.isConcrete with
  | [] => .ok methods.head?
  | [r] => .ok (some r)
  | first :: second :: _ =>
      if detectConflicts then
        .error (.conflictingDefaults (t.nameOf first.owner) (t.nameOf second.owner) name)
      else .ok (some first)

/-- Search for a method. Initializers are not inherited. -/
def searchMethod (c : Class) (name : String) (signature : Option String)
    (options : LookupOptions) : Except LinkError (Option MethodRef) :=
  let descriptor := if options.partialSignature then none else signature
  match declaredMethod? c name descriptor with
  | some r => .ok (some r)
  | none =>
      if Method.isInitializerName name then .ok none
      else
        match t.superclassMethod? c name descriptor with
        | some r => .ok (some r)
        | none => t.chooseMethod options.detectConflicts name (t.specificMethods c name descriptor)

/-- Check a method that was found: it must be static or not, as asked for, and
    accessible to the caller. -/
def checkMethod (name : String) (caller : Option Class) (options : LookupOptions)
    (r : MethodRef) : Except LinkError (Option MethodRef) :=
  match t.get? r.owner, t.method? r with
  | some declaring, some m =>
      if options.static != m.isStatic then
        .error (.staticMismatch declaring.name name m.isStatic)
      else
        match caller with
        | some caller =>
            if isAccessible declaring m.access caller then .ok (some r)
            else options.missing (.inaccessible caller.name declaring.name name)
        | none => .ok (some r)
  | _, _ => .ok none

/-- Search for a method and check what is found. -/
def lookupMethod (c : Class) (name : String) (signature : Option String)
    (caller : Option Class) (options : LookupOptions) : Except LinkError (Option MethodRef) :=
  if options.virtual && c.isInterface && !options.allowForwarding then
    .error (.isAnInterface c.name)
  else if options.interface && !c.isInterface then .error (.isNotAnInterface c.name)
  else
    match t.searchMethod c name signature options with
    | .error e => .error e
    | .ok none => options.missing (.noSuchMethod c.name name (signature.getD ""))
    | .ok (some r) => t.checkMethod name caller options r

/-! ## Fields -/

/-- Search for a field, following at most `limit` supertypes. -/
def searchFieldWithin (name : String) (signature : Option String) : Nat → Class → Option FieldRef
  | 0, _ => none
  | limit + 1, c =>
      match c.findField? name signature with
      | some index => some { owner := c.id, index }
      | none =>
          (c.interfaces ++ c.superclass.toList).findSome? fun id =>
            (t.get? id).bind (searchFieldWithin name signature limit)

/-- Search for a field. Supertypes are defined before their subtypes, so the number
    of classes is limit enough. -/
def searchField (c : Class) (name : String) (signature : Option String) : Option FieldRef :=
  t.searchFieldWithin name signature t.size c

/-- Check a field that was found: it must be static or not, as asked for, and
    accessible to the caller. -/
def checkField (name : String) (caller : Option Class) (options : LookupOptions)
    (wantStatic : Bool) (r : FieldRef) : Except LinkError (Option FieldRef) :=
  match t.get? r.owner, t.field? r with
  | some declaring, some f =>
      if f.isStatic != wantStatic then
        options.missing (.staticMismatch declaring.name name f.isStatic)
      else
        match caller with
        | some caller =>
            if isAccessible declaring f.access caller then .ok (some r)
            else options.missing (.inaccessible caller.name declaring.name name)
        | none => .ok (some r)
  | _, _ => .ok none

/-- Search for a field and check what is found. -/
def lookupField (c : Class) (name : String) (signature : Option String)
    (caller : Option Class) (options : LookupOptions) (wantStatic : Bool) :
    Except LinkError (Option FieldRef) :=
  match t.searchField c name signature with
  | none => options.missing (.noSuchField c.name name)
  | some r => t.checkField name caller options wantStatic r

end ClassTable

/-! ## By reference kind -/

/-- How the method of a reference of the given kind is searched for. -/
def LookupOptions.ofReference (c : Class) (kind : ReferenceKind) (speculative : Bool) :
    LookupOptions :=
  match kind with
  | .invokeInterface => { interface := true, quiet := speculative }
  | .invokeStatic => { static := true, interface := c.isInterface, quiet := speculative }
  | .invokeSpecial =>
      { virtual := true, allowForwarding := true, detectConflicts := true, quiet := speculative }
  | _ => { virtual := true, quiet := speculative }

/-- The methods of method handles that are called with any signature. -/
def polymorphicMethods : List String :=
  ["invokeBasic", "linkToVirtual", "linkToStatic", "linkToSpecial", "linkToInterface"]

/-- The class has a method of that name which is called with any signature. -/
def Class.isPolymorphic (c : Class) (name : String) : Bool :=
  c.name == "java/lang/invoke/MethodHandle" && polymorphicMethods.contains name

namespace ClassTable

/-- The method of a reference. -/
def linkMethod (t : ClassTable) (c : Class) (name signature : String) (kind : ReferenceKind)
    (caller : Option Class) (speculative : Bool) : Except LinkError (Option MethodRef) :=
  let options := LookupOptions.ofReference c kind speculative
  if c.isPolymorphic name then
    t.lookupMethod c name none caller { options with partialSignature := true }
  else t.lookupMethod c name (some signature) caller options

/-- The field of a reference, an instance field if there is one and else a static
    one, with the reference kind that fits it. Why there is no instance field does
    not matter. -/
def linkField (t : ClassTable) (c : Class) (name signature : String) (kind : ReferenceKind)
    (caller : Option Class) (speculative : Bool) :
    Except LinkError (Option (FieldRef × ReferenceKind)) :=
  let lookup (wantStatic : Bool) : Except LinkError (Option FieldRef) :=
    t.lookupField c name (some signature) caller { quiet := speculative } wantStatic
  match lookup false with
  | .ok (some f) => .ok (some (f, kind.forField false))
  | _ =>
      match lookup true with
      | .ok (some f) => .ok (some (f, kind.forField true))
      | .ok none => .ok none
      | .error e => .error e

end ClassTable

end Linkage
