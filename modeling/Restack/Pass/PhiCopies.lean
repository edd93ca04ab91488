/-
# Phis as copies

Each phi is replaced by copies through a new local of its own: every
predecessor assigns its operand to that local, and the block begins by copying
it into the destination. Where the predecessor may throw into the block the copy
goes in front of the last statement that can throw.
-/
import Restack.Ir.Graph

namespace Restack.Pass

open Ir

/-- Puts a statement in front of the last one that can throw, at the end if
none can. -/
def insertBeforeLastThrow (copy : Stmt) (stmts : List Stmt) : List Stmt :=
  let after := (stmts.reverse.takeWhile (!Stmt.canThrow ·)).length
  if after == stmts.length then stmts ++ [copy]
  else
    let before := stmts.length - after - 1
    stmts.take before ++ copy :: stmts.drop before

/-- Assigns the operand that comes from a predecessor. -/
def copyIn (b : BlockId) (carrier : Local) (m : Method) (source : BlockId) (v : Value) : Method :=
  let copy := Stmt.assign carrier (.value v)
  let raises := (m.exceptionalSuccessors source).contains b
  m.modifyBlock source fun block => { block with
    stmts := if raises && !block.terminator.isThrow then insertBeforeLastThrow copy block.stmts
      else block.stmts ++ [copy] }

/-- Spreads one phi over the predecessors; gives the copy for the block's head. -/
def spreadPhi (b : BlockId) (m : Method) (p : Phi) : Stmt × Method :=
  let (carrier, m) := m.freshLocal
  let m := p.operands.foldl (fun m o => copyIn b carrier m o.1 o.2) m
  (.assign p.dst (.value (.var carrier)), m)

def spreadPhis (b : BlockId) (m : Method) : List Phi → List Stmt × Method
  | [] => ([], m)
  | p :: rest =>
    let (head, m) := spreadPhi b m p
    let (heads, m) := spreadPhis b m rest
    (head :: heads, m)

/-- Puts statements at the head, behind the read of a caught exception. -/
def insertHeads (heads : List Stmt) : List Stmt → List Stmt
  | .assign l .caught :: rest => .assign l .caught :: heads ++ rest
  | stmts => heads ++ stmts

def replacePhisOf (m : Method) (b : BlockId) : Method × Bool :=
  match m.block? b with
  | none => (m, false)
  | some block =>
    if block.phis.isEmpty then (m, false)
    else
      let m := m.setBlock b { block with phis := [] }
      let (heads, m) := spreadPhis b m block.phis
      (m.modifyBlock b fun block => { block with stmts := insertHeads heads block.stmts }, true)

def replacePhis (m : Method) : Method × Bool :=
  m.layout.foldl (fun (m, changed) b =>
    let (m, here) := replacePhisOf m b
    (m, changed || here)) (m, false)

end Restack.Pass
