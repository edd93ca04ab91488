/-
# Copies and constants

A local with one definition that copies another such local, or holds a
constant, is replaced by what it stands for everywhere, and its definition goes.
Phis that merge one value beside themselves go the same way, again and again
until none is left.
-/
import Restack.Ir.Graph

namespace Restack.Pass

open Ir

def isSingle (defs : Array Nat) (l : Local) : Bool := defs.getD l.index 0 == 1

/-- How many definitions local number `i` has, at position `i`. -/
def defCounts (m : Method) : Array Nat :=
  m.defs.foldl (fun counts l => counts.modify l.index (· + 1)) (Array.replicate m.locals.size 0)

/-- The copy that a statement makes between locals defined once. -/
def copy? (defs : Array Nat) : Stmt → Option (Local × Value)
  | .assign dst (.value (.var src)) =>
    if dst != src && isSingle defs dst && isSingle defs src then some (dst, .var src) else none
  | _ => none

/-- The constant that a statement gives to a local defined once. -/
def constant? (defs : Array Nat) : Stmt → Option (Local × Value)
  | .assign dst (.value (.const c)) => if isSingle defs dst then some (dst, .const c) else none
  | _ => none

/-- Takes the statements that `pick` recognises out, and gives what they stand for. -/
def extract (m : Method) (pick : Stmt → Option (Local × Value)) : Method × Substitution :=
  (m.mapBlocks fun _ block => { block with stmts := block.stmts.filter fun s => (pick s).isNone },
    (m.stmts.filterMap pick).reverse)

def addDistinct (vs : List Value) (v : Value) : List Value :=
  if vs.any fun w => v.agrees w then vs else vs ++ [v]

/-- The distinct values that a phi merges, itself left out. -/
def merged (σ : Substitution) (p : Phi) : List Value :=
  ((p.operands.map fun o => σ.resolve o.2).filter fun v => !v.isVar p.dst).foldl addDistinct []

/-- Drops the phis of a list that merge one value. -/
def dropPhis (σ : Substitution) : List Phi → List Phi × Substitution
  | [] => ([], σ)
  | p :: rest =>
    match merged σ p with
    | [v] => dropPhis ((p.dst, v) :: σ) rest
    | _ =>
      let (kept, σ) := dropPhis σ rest
      (p :: kept, σ)

def dropRound (m : Method) (σ : Substitution) : Method × Substitution :=
  m.numbered.foldl (fun (m, σ) (b, block) =>
    let (phis, σ) := dropPhis σ block.phis
    (m.setBlock b { block with phis }, σ)) (m, σ)

/-- Rounds until one finds nothing; each other one removes a phi. -/
def dropRounds : Nat → Method → Substitution → Method × Substitution
  | 0, m, σ => (m, σ)
  | fuel + 1, m, σ =>
    let (smaller, larger) := dropRound m σ
    if larger.length == σ.length then (m, σ) else dropRounds fuel smaller larger

def phiCount (m : Method) : Nat := total (m.blockList.map fun block => block.phis.length)

def removeCopies (m : Method) : Method × Bool :=
  let (m, σ) := extract m (copy? (defCounts m))
  let (m, σ) := dropRounds (phiCount m + 1) m σ
  (m.substitute σ, !σ.isEmpty)

def removeConstants (m : Method) : Method × Bool :=
  let (m, σ) := extract m (constant? (defCounts m))
  (m.substitute σ, !σ.isEmpty)

end Restack.Pass
