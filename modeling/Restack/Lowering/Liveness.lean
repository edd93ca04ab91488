/-
# Live locals

A local is live where some path on reads it before it is defined again. A
statement that can throw may be followed by a handler, so what the handlers of a
block need is live in front of each of them. Sets of locals are lists, and only
membership counts.
-/
import Restack.Ir.Graph

namespace Restack.Lowering

open Ir

abbrev LocalSet := List Local

namespace LocalSet

def insert (s : LocalSet) (l : Local) : LocalSet := if s.contains l then s else l :: s

def addAll (s : LocalSet) (ls : List Local) : LocalSet := ls.foldl insert s

def remove (s : LocalSet) (l : Local) : LocalSet := s.filter (· != l)

def subset (s t : LocalSet) : Bool := s.all fun l => List.contains t l

def same (s t : LocalSet) : Bool := s.subset t && t.subset s

end LocalSet

/-- The locals live in front of a statement, given those live behind it and
those that the handlers need. -/
def liveBefore (handlers : LocalSet) (s : Stmt) (live : LocalSet) : LocalSet :=
  let rest := match s.def? with
    | some dst => live.remove dst
    | none => live
  let read := rest.addAll (localsOf s.values)
  if s.canThrow then read.addAll handlers else read

def liveAtEnd (handlers : LocalSet) (t : Terminator) (out : LocalSet) : LocalSet :=
  let read := out.addAll (localsOf t.values)
  if t.isThrow then read.addAll handlers else read

/-- The locals live in front of each of the statements, in order, and last
those live behind them. -/
def liveAlong (handlers : LocalSet) (atEnd : LocalSet) : List Stmt → List LocalSet
  | [] => [atEnd]
  | s :: rest =>
    let later := liveAlong handlers atEnd rest
    liveBefore handlers s (later.headD []) :: later

/-- What is live at the entry of block number `i`, at position `i`. -/
abbrev LiveIn := Array LocalSet

def LiveIn.of (live : LiveIn) (b : BlockId) : LocalSet := live.getD b.index []

def LiveIn.union (live : LiveIn) (bs : List BlockId) : LocalSet :=
  bs.foldl (fun s b => s.addAll (live.of b)) []

def blockLiveness (m : Method) (live : LiveIn) (b : BlockId) (block : Block) : List LocalSet :=
  let handlers := live.union (m.exceptionalSuccessors b)
  let atEnd := liveAtEnd handlers block.terminator (live.union (m.successors b))
  liveAlong handlers atEnd block.stmts

/-- Recomputes the blocks from the last of the layout to the first; tells
whether a set grew. -/
def livenessRound (m : Method) (live : LiveIn) : LiveIn × Bool :=
  m.layout.reverse.foldl (fun (live, changed) b =>
    match m.block? b with
    | none => (live, changed)
    | some block =>
      let entry := (blockLiveness m live b block).headD []
      if entry.same (live.of b) then (live, changed)
      else (live.setIfInBounds b.index entry, true)) (live, false)

def livenessWith (m : Method) : Nat → LiveIn → LiveIn
  | 0, live => live
  | fuel + 1, live =>
    let (next, changed) := livenessRound m live
    if changed then livenessWith m fuel next else next

/-- The live sets at the entries of all blocks. Each round but the last adds a
local to a block. -/
def liveIn (m : Method) : LiveIn :=
  livenessWith m (m.blocks.size * m.locals.size + 1) (Array.replicate m.blocks.size [])

end Restack.Lowering
