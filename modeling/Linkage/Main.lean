import Linkage.CommandLine

/-! # The program

    Reads the class files that a command asks for and prints its result. -/

namespace Linkage

/-- The place of a file below a directory. An absolute path stays as it is. -/
def filePath (directory path : String) : String :=
  if path.toList.head? = some '/' then path else directory ++ "/" ++ path

/-- The directory with one more file, if there is such a file. -/
def readInto (root : String) (path : String) (files : Directory) : IO Directory := do
  try
    let bytes ← IO.FS.readBinFile (filePath root path)
    pure (files ++ [(path, bytes.data.toList)])
  catch _ => pure files

/-- Carry out a command line. The files of a class are read when the command fails
    because the class is not found, and the command starts again; `read` lists the
    classes whose files have been read. -/
partial def perform (i : Invocation) (directories : List Directory) (read : List String) :
    IO UInt32 := do
  match i.run { directories } with
  | .ok lines => do
      for line in lines do
        IO.println line
      pure 0
  | .error (.thrown e) =>
      match e with
      | .classNotFound name =>
          if read.contains name then reportError e
          else do
            let path := ClassPath.fileName name
            let directories ←
              (i.directories.zip directories).mapM fun (root, files) => readInto root path files
            perform i directories (name :: read)
      | _ => reportError e
  | .error _ => pure 1
where
  reportError (e : LinkError) : IO UInt32 := do
    IO.eprintln e.render
    pure 1

end Linkage

def main (args : List String) : IO UInt32 := do
  match Linkage.Invocation.parse? args with
  | some i => Linkage.perform i (i.directories.map fun _ => []) []
  | none => do
      IO.eprintln
        "usage: [-c DIR]... [--heap-capacity N] [--gc-stress N] members|resolve|bootstrap-args ..."
      pure 2
