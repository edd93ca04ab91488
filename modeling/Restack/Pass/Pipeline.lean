/-
# Passes and their order

A pass changes a method and tells whether it did. A stage is a pass, possibly
with others that run once behind it when it changed something. The standard
order is the one that every converted body goes through.
-/
import Restack.Pass.Copies
import Restack.Pass.DeadCode
import Restack.Pass.FilledArray
import Restack.Pass.Labels
import Restack.Pass.Null
import Restack.Pass.PhiCopies
import Restack.Pass.Reflection
import Restack.Pass.TypeInference

namespace Restack

inductive Pass where
  | cleanLabel
  | deadCode
  | removeLocal
  | removeConstant
  | zero
  | npe
  | newObject
  | fillArray
  | unssa
  | multiArray
  | voidInvoke
  | typeInfer
deriving DecidableEq

namespace Pass

def name : Pass → String
  | cleanLabel => "clean_label"
  | deadCode => "dead_code"
  | removeLocal => "remove_local"
  | removeConstant => "remove_constant"
  | zero => "zero"
  | npe => "npe"
  | newObject => "new_object"
  | fillArray => "fill_array"
  | unssa => "unssa"
  | multiArray => "multi_array"
  | voidInvoke => "void_invoke"
  | typeInfer => "type_infer"

def all : List Pass :=
  [cleanLabel, deadCode, removeLocal, removeConstant, zero, npe, newObject, fillArray, unssa,
    multiArray, voidInvoke, typeInfer]

def transform (p : Pass) (m : Ir.Method) : Except Failure (Ir.Method × Bool) :=
  match p with
  | cleanLabel => .ok (cleanLabels m)
  | deadCode => .ok (removeDead m)
  | removeLocal => .ok (removeCopies m)
  | removeConstant => .ok (removeConstants m)
  | zero => .ok (placeNulls m)
  | npe => .ok (throwOnNull m)
  | newObject => .ok (constructObjects m)
  | fillArray => fillArrays m
  | unssa => .ok (replacePhis m)
  | multiArray => .ok (foldReflection m)
  | voidInvoke => .ok (splitVoidCalls m)
  | typeInfer => .ok (inferTypes m)

def apply (p : Pass) (m : Ir.Method) : Except Failure (Ir.Method × Bool) :=
  (p.transform m).mapError (·.inStage p.name)

def applyAll (ps : List Pass) (m : Ir.Method) : Except Failure Ir.Method :=
  ps.foldlM (fun m p => do .ok (← p.apply m).1) m

end Pass

/-- A pass and those that run once when it changed something. -/
structure Stage where
  pass : Pass
  follow : List Pass := []

namespace Stage

def run (s : Stage) (m : Ir.Method) : Except Failure Ir.Method := do
  let (m, changed) ← s.pass.apply m
  if changed then Pass.applyAll s.follow m else .ok m

/-- The name of the pass, then those of its followers behind it and a question mark. -/
def names (s : Stage) : List String :=
  s.pass.name :: s.follow.map fun f => s.pass.name ++ "?" ++ f.name

end Stage

abbrev Pipeline := List Stage

namespace Pipeline

open Pass

def cleanup : List Pass := [deadCode, removeLocal, removeConstant]

/-- The order that every converted body goes through. -/
def standard : Pipeline :=
  ⟨cleanLabel, []⟩ :: cleanup.map (⟨·, []⟩) ++ [⟨zero, []⟩, ⟨npe, cleanup⟩] ++
    ([newObject, fillArray, unssa, multiArray, voidInvoke] ++ cleanup ++ [typeInfer]).map (⟨·, []⟩)

def run (p : Pipeline) (m : Ir.Method) : Except Failure Ir.Method :=
  p.foldlM (fun m s => s.run m) m

def stageNames (p : Pipeline) : List String := p.flatMap Stage.names

end Pipeline

end Restack
