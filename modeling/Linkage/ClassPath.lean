import Linkage.Text.Utf8

/-! # Class paths

    The directories that are searched for class files, each with its files. -/

namespace Linkage

open Text (Bytes)

/-- A directory: the files below it by relative path. -/
abbrev Directory : Type := List (String × Bytes)

namespace Directory

/-- A path without empty components: `a//b` is `a/b`. -/
def collapse : List Char → List Char
  | [] => []
  | c :: rest =>
      let rest := collapse rest
      if c = '/' && rest.head? == some '/' then rest else c :: rest

/-- The file at a path. -/
def read? (d : Directory) (path : String) : Option Bytes :=
  (d.find? (fun (file, _) => collapse file.toList == collapse path.toList)).map Prod.snd

end Directory

/-- The directories of a class path, in search order. -/
structure ClassPath where
  directories : List Directory

namespace ClassPath

/-- The path of the file that declares a class: dots separate like slashes. -/
def fileName (className : String) : String :=
  String.ofList (className.toList.map (fun c => if c = '.' then '/' else c)) ++ ".class"

/-- The file that declares a class, from the first directory that has one. -/
def find? (p : ClassPath) (className : String) : Option Bytes :=
  p.directories.findSome? (fun d => d.read? (fileName className))

/-- Number of bytes of all files. -/
def size (p : ClassPath) : Nat :=
  (p.directories.flatMap (fun d => d.flatMap Prod.snd)).length

end ClassPath

end Linkage
