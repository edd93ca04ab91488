/-
# Removing jumps

Two steps, repeated while one of them applies: a block that only jumps
elsewhere is left out, and a block with a single predecessor that jumps to it is
glued to that predecessor. Neither touches the entry or a handler, and blocks
under a trap are not glued.
-/
import Restack.Ir.Graph

namespace Restack.Pass

open Ir

/-- Gives the value that came from `old` to each of `sources` instead. -/
def Phi.reroute (old : BlockId) (sources : List BlockId) (p : Phi) : Phi :=
  match p.operands.lookup old with
  | none => p
  | some v => { p with
      operands := p.operands.eraseP (·.1 == old) ++ sources.map (·, v) }

/-- The target and the normal predecessors of a block that can be left out. -/
def skippable? (m : Method) (edges : List (BlockId × List BlockId)) (b : BlockId) :
    Option (BlockId × List BlockId) := do
  if b == m.entry || m.isHandler b then none
  let target ← (← m.block? b).emptyGoto?
  if target == b then none
  let sources := m.normalPredecessors b
  if sources.isEmpty then none
  let joins := (m.block? target).any fun block => !block.phis.isEmpty
  if joins && sources.any (Method.sourcesIn edges target).contains then none
  some (target, sources)

def skip (m : Method) (b target : BlockId) (sources : List BlockId) : Method :=
  let m := sources.foldl (fun m source => m.modifyBlock source fun block =>
    { block with terminator := block.terminator.retarget b target }) m
  let m := m.modifyBlock target fun block =>
    { block with phis := block.phis.map (Phi.reroute b sources) }
  (m.eraseBlock b).pruneEdges

def skipFirst? (m : Method) : Option Method :=
  let edges := m.edges
  m.layout.findSome? fun b =>
    (skippable? m edges b).map fun (target, sources) => skip m b target sources

/-- The block that can be glued to the end of another. -/
def gluable? (m : Method) (edges : List (BlockId × List BlockId)) (b : BlockId) :
    Option (BlockId × Block) := do
  let .goto next := (← m.block? b).terminator | none
  if next == b || next == m.entry || m.isHandler next then none
  if (Method.sourcesIn edges next).length != 1 then none
  if m.isCovered b || m.isCovered next then none
  let block ← m.block? next
  if block.phis.isEmpty then some (next, block) else none

def glue (m : Method) (b next : BlockId) (absorbed : Block) : Method :=
  let m := (m.eraseBlock next).modifyBlock b fun block =>
    { block with stmts := block.stmts ++ absorbed.stmts, terminator := absorbed.terminator }
  m.mapBlocks fun _ block => { block with
    phis := block.phis.map fun p => { p with
      operands := p.operands.map fun o => if o.1 = next then (b, o.2) else o } }

def glueFirst? (m : Method) : Option Method :=
  let edges := m.edges
  m.layout.findSome? fun b =>
    (gluable? m edges b).map fun (next, block) => glue m b next block

def cleanLabelsWith : Nat → Method → Method × Bool
  | 0, m => (m, false)
  | fuel + 1, m =>
    match skipFirst? m <|> glueFirst? m with
    | some smaller => ((cleanLabelsWith fuel smaller).1, true)
    | none => (m, false)

def cleanLabels (m : Method) : Method × Bool := cleanLabelsWith m.layout.length m

end Restack.Pass
