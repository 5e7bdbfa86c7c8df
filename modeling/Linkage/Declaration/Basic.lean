import Linkage.Class.Basic
import Linkage.ClassFile.Annotation

/-! # Declarations of classes

    What has to be said to define a class, written by hand or taken from a class
    file. Supertypes are given by name, types of members by descriptor. -/

namespace Linkage

/-- The declaration of a field. -/
structure FieldDeclaration where
  access : Access
  name : String
  descriptor : String
  deriving DecidableEq, Repr

/-- The declaration of a method. -/
structure MethodDeclaration where
  access : Access
  name : String
  descriptor : String
  callerSensitive : Bool := false
  deriving DecidableEq, Repr

/-- The declaration of a class. -/
structure ClassDeclaration where
  name : String
  access : Access := 0
  superclass : Option String := none
  interfaces : List String := []
  fields : List FieldDeclaration := []
  methods : List MethodDeclaration := []
  /-- The constants; the first one gets index 1. -/
  constants : List PoolEntry := []
  bootstrap : List BootstrapEntry := []

namespace ClassDeclaration

/-- The class at the top of the hierarchy. -/
def objectName : String := "java/lang/Object"

/-- A class without a superclass. -/
def root (name : String) : ClassDeclaration :=
  { name }

/-- A public class below `java/lang/Object`. -/
def plain (name : String) : ClassDeclaration :=
  { name, access := Access.publicFlag ||| Access.superFlag, superclass := some objectName }

/-- A public interface. -/
def interface (name : String) : ClassDeclaration :=
  { name
    access := Access.publicFlag ||| Access.interfaceFlag ||| Access.abstractFlag
    superclass := some objectName }

/-! ## From a class file -/

/-- The reference with the given class slot and name-and-type slot. -/
def symbolicRef (file : ClassFile) (owner nameAndType : UInt16) :
    Except FormatError SymbolicRef := do
  let (name, descriptor) ← file.nameAndType nameAndType
  pure { owner, name, descriptor }

/-- The constant at `index` with its own indices followed. Names of modules and
    packages are of no use here and become empty texts. -/
def poolEntry (file : ClassFile) (index : UInt16) : Constant → Except FormatError PoolEntry
  | .utf8 text => pure (.utf8 text)
  | .integer bits => pure (.integer bits.toInt32)
  | .float bits => pure (.float bits)
  | .long high low => pure (.long (WordPair.ofClassFile high low))
  | .double high low => pure (.double (WordPair.ofClassFile high low))
  | .classRef name => PoolEntry.classRef <$> file.utf8 name
  | .stringRef value => PoolEntry.stringRef <$> file.utf8 value
  | .methodType descriptor => PoolEntry.methodType <$> file.utf8 descriptor
  | .methodHandle kind reference =>
      match ReferenceKind.ofNumber? kind.toNat with
      | some kind => pure (.methodHandle kind reference)
      | none => throw (.constantPool index)
  | .fieldref owner nt => PoolEntry.fieldref <$> symbolicRef file owner nt
  | .methodref owner nt => PoolEntry.methodref <$> symbolicRef file owner nt
  | .interfaceMethodref owner nt => PoolEntry.interfaceMethodref <$> symbolicRef file owner nt
  | .nameAndType _ _ => do
      let (name, descriptor) ← file.nameAndType index
      pure (.nameAndType name descriptor)
  | .dynamic bootstrap nt => do
      let (name, descriptor) ← file.nameAndType nt
      pure (.dynamic bootstrap name descriptor)
  | .invokeDynamic bootstrap nt => do
      let (name, descriptor) ← file.nameAndType nt
      pure (.invokeDynamic bootstrap name descriptor)
  | .moduleName _ => pure (.utf8 "")
  | .packageName _ => pure (.utf8 "")
  | .hole => pure .hole

/-- The constants of a file, without the holes after wide ones: the pool of a
    class puts them back. -/
def poolEntries (file : ClassFile) : Except FormatError (List PoolEntry) :=
  ((file.pool.toList.zipIdx 1).filter (fun (c, _) => c != .hole)).mapM
    (fun (c, index) => poolEntry file (UInt16.ofNat index) c)

/-- The declaration of a field of a file. -/
def fieldOf (file : ClassFile) (f : Member) : Except FormatError FieldDeclaration := do
  let name ← file.utf8 f.nameIndex
  let descriptor ← file.utf8 f.descriptorIndex
  pure { access := f.access, name, descriptor }

/-- The declaration of a method of a file. -/
def methodOf (file : ClassFile) (m : Member) : Except FormatError MethodDeclaration := do
  let name ← file.utf8 m.nameIndex
  let descriptor ← file.utf8 m.descriptorIndex
  let callerSensitive ← file.isCallerSensitive m.attributes
  pure { access := m.access, name, descriptor, callerSensitive }

/-- The class that a file declares. -/
def ofFile (file : ClassFile) : Except FormatError ClassDeclaration := do
  let name ← file.className file.thisClass
  let superclass ←
    if file.superClass = 0 then pure none else some <$> file.className file.superClass
  let interfaces ← file.interfaces.mapM file.className
  let fields ← file.fields.mapM (fieldOf file)
  let methods ← file.methods.mapM (methodOf file)
  let constants ← poolEntries file
  pure
    { name, access := file.access, superclass, interfaces, fields, methods, constants
      bootstrap := file.bootstrapMethods }

end ClassDeclaration

end Linkage
