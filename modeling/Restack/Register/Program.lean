/-
# Register programs

Classes with their fields, methods and bodies, as handed to the converter.
-/
import Restack.Register.Instruction

namespace Restack.Register

/-- Where an exception goes: a caught class, or any when absent, and a label. -/
structure CatchClause where
  catches : Option String
  handler : Label

/-- A guarded range of a body and its clauses in order of priority. -/
structure TryRange where
  start : Label
  stop : Label
  clauses : List CatchClause

/-- A body: how many registers it has, its instructions with the marks between
them, and its guarded ranges in order of priority. -/
structure Code where
  registers : Nat
  instructions : List Instruction
  tries : List TryRange

structure Field where
  access : UInt32
  name : String
  descriptor : String
  initial : Option Value
  annotations : List AttachedNote

structure Method where
  access : UInt32
  ref : MethodRef
  annotations : List AttachedNote := []
  /-- One list per declared parameter. -/
  parameterAnnotations : List (List AttachedNote) := []
  code : Option Code

structure Class where
  access : UInt32
  name : String
  superclass : Option String
  interfaces : List String := []
  sourceFile : Option String := none
  annotations : List AttachedNote := []
  fields : List Field := []
  methods : List Method

/-- All classes of a program and the version of the format they came in. -/
structure Program where
  version : Nat
  classes : List Class

end Restack.Register
