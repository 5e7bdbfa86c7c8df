import Linkage.ClassPath
import Linkage.Machine.Basic

/-! # The environment of a machine

    What actions find around the machine: they read it and never change it. -/

namespace Linkage

/-- Runs bootstrap methods. It is given the class on whose behalf it runs and an
    array of the bootstrap method, the name, the type, the number of static
    arguments and the static arguments. The answer may be null. -/
abbrev Invoker : Type := Class → Handle → Link (Option Handle)

/-- The environment. -/
structure Environment where
  /-- Where class files are looked for. -/
  classPath : ClassPath
  /-- What runs bootstrap methods, if anything does. -/
  invoker : Option Invoker

end Linkage
