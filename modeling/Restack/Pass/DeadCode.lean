/-
# Dead code

Blocks that no path reaches are dropped, and so are phis and pure definitions
that nothing live reads; an unread definition with an effect keeps the effect.
What statements with effects and terminators read is live, and so is what a
live phi or pure definition reads.
-/
import Restack.Ir.Graph

namespace Restack.Pass

open Ir

/-- What a phi or a pure definition of a local reads. -/
def pureReads (m : Method) : List (Local × List Local) :=
  m.blockList.flatMap fun block =>
    (block.phis.map fun p => (p.dst, localsOf (p.operands.map (·.2)))) ++
      block.stmts.filterMap fun
        | .assign dst e => if e.isPure then some (dst, localsOf e.values) else none
        | _ => none

def isPureDef : Stmt → Bool
  | .assign _ e => e.isPure
  | _ => false

/-- Locals read by terminators and by statements other than pure definitions. -/
def demanded (m : Method) : List Local :=
  m.blockList.flatMap fun block =>
    localsOf ((block.stmts.filter (!isPureDef ·)).flatMap Stmt.values ++ block.terminator.values)

/-- Closes a set of locals under what they read, taking one off the work list
at each step. -/
def spread (reads : Array (List Local)) : Nat → List Local → Array Bool → Array Bool
  | 0, _, live => live
  | _ + 1, [], live => live
  | fuel + 1, l :: work, live =>
    if live.getD l.index true then spread reads fuel work live
    else spread reads fuel (reads.getD l.index [] ++ work) (live.setIfInBounds l.index true)

/-- Whether local number `i` is live, at position `i`. -/
def liveLocals (m : Method) : Array Bool :=
  let pairs := pureReads m
  let start := demanded m
  let reads := pairs.foldl (fun reads (l, ls) => reads.modify l.index (· ++ ls))
    (Array.replicate m.locals.size [])
  let fuel := start.length + total (pairs.map fun p => p.2.length) + 1
  spread reads fuel start (Array.replicate m.locals.size false)

/-- The statement with unread results dropped. -/
def trimmed (live : Local → Bool) : Stmt → Option Stmt
  | .assign dst e => if live dst then some (.assign dst e) else if e.isPure then none else some (.effect e)
  | .effect e => if e.isPure then none else some (.effect e)
  | s => some s

/-- Whether trimming leaves a statement alone. -/
def isKept (live : Local → Bool) : Stmt → Bool
  | .assign dst _ => live dst
  | .effect e => !e.isPure
  | _ => true

def removeDead (m : Method) : Method × Bool :=
  let (m, shrunk) := m.removeUnreachable
  let m := m.pruneEdges
  let table := liveLocals m
  let live (l : Local) : Bool := table.getD l.index false
  let changed := m.blockList.any fun block =>
    block.phis.any (fun p => !live p.dst) || block.stmts.any (!isKept live ·)
  let m := m.mapBlocks fun _ block => { block with
    phis := block.phis.filter fun p => live p.dst
    stmts := block.stmts.filterMap (trimmed live) }
  (m, shrunk || changed)

end Restack.Pass
