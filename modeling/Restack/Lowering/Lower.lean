/-
# From the intermediate form to stack code

Blocks are emitted in layout order, each between a start and an end label. A
handler begins with its exception label, so that normal jumps go past the store of
the exception. A covered block that can throw has a throws label in front of its
first statement that can: the exception table opens there.
-/
import Restack.Lowering.Code

namespace Restack.Lowering

open Ir
open Stack (Instruction TryCatch Body)

/-- Where block number `i` stands in the layout, at position `i`. -/
def layoutPositions (m : Method) : Array (Option Nat) :=
  m.layout.zipIdx.foldl (fun table (b, i) => table.setIfInBounds b.index (some i))
    (Array.replicate m.blocks.size none)

/-- The frame in which the code of a method runs. -/
abbrev frameOf (m : Method) (slots : Slots) : Frame := ⟨m, slots, layoutPositions m⟩

/-- The entry of a handler and the statements left for the block proper. -/
def handlerEntry (f : Frame) (position : Nat) (stmts : List Stmt) :
    Except Failure (List Instruction × List Stmt) :=
  let entered := Instruction.label (exceptionLabel position)
  match stmts with
  | .assign dst .caught :: rest => do .ok ([entered, ← store f dst], rest)
  | stmts => .ok ([entered, .simple .pop], stmts)

structure BlockCode where
  /-- The exception label and what takes the exception off the stack. -/
  entry : List Instruction
  /-- The part in front of the first statement that can throw. -/
  calm : List Instruction
  rest : List Instruction
  /-- Whether the rest is guarded by a trap. -/
  guarded : Bool

namespace BlockCode

def instructions (c : BlockCode) (position : Nat) : List Instruction :=
  c.entry ++ .label (startLabel position) :: c.calm ++
    (if c.guarded then [.label (throwsLabel position)] else []) ++ c.rest ++
    [.label (endLabel position)]

/-- Whether code stands between the start and the guarded part. -/
def hasCalm (c : BlockCode) : Bool := c.guarded && !c.calm.isEmpty

end BlockCode

def isGuarded (m : Method) (b : BlockId) (block : Block) : Bool := m.isCovered b && block.canThrow

def stmtsCode (f : Frame) (stmts : List Stmt) : Except Failure (List Instruction) := do
  .ok (← stmts.mapM (stmtCode f)).flatten

/-- The code of a block of the layout; `next` comes behind it. -/
def blockCode (f : Frame) (b : BlockId) (position : Nat) (next : Option BlockId) :
    Except Failure BlockCode :=
  match f.method.block? b with
  | none => fail (.missingBlock b)
  | some block => do
    let (entry, stmts) ←
      if f.method.isHandler b then handlerEntry f position block.stmts else .ok ([], block.stmts)
    let code : Except Failure BlockCode := do
      let calm ← stmtsCode f (stmts.takeWhile (!Stmt.canThrow ·))
      let rest ← stmtsCode f (stmts.dropWhile (!Stmt.canThrow ·))
      let ending ← terminatorCode f next block.terminator
      .ok ⟨entry, calm, rest ++ ending, isGuarded f.method b block⟩
    code.mapError (·.within ("block " ++ b.text))

/-- The codes of the blocks of a layout that starts at a position. -/
def blockCodes (f : Frame) : Nat → List BlockId → Except Failure (List BlockCode)
  | _, [] => .ok []
  | position, b :: rest => do
    let code ← blockCode f b position rest.head?
    .ok (code :: (← blockCodes f (position + 1) rest))

def guardedPositions (m : Method) (t : Trap) : List Nat :=
  m.layout.zipIdx.filterMap fun (b, i) =>
    if t.covered.contains b && (m.block? b).any Block.canThrow then some i else none

/-- Ranges of neighbouring positions, first and last; a position at which
`opens` holds starts a new one. -/
def rangesOf (opens : Nat → Bool) : List Nat → List (Nat × Nat)
  | [] => []
  | position :: rest =>
    match rangesOf opens rest with
    | (first, last) :: ranges =>
      if first = position + 1 && !opens first then (position, last) :: ranges
      else (position, position) :: (first, last) :: ranges
    | [] => [(position, position)]

/-- The entries of a trap: for each range its handlers in order. -/
def trapEntries (f : Frame) (opens : Nat → Bool) (t : Trap) : List TryCatch :=
  (rangesOf opens (guardedPositions f.method t)).flatMap fun (first, last) =>
    t.handlers.filterMap fun h => (f.position? h.target).map fun target =>
      { start := throwsLabel first
        stop := endLabel last
        handler := exceptionLabel target
        catches := h.catches.map Signature.internalName }

def lower (m : Method) : Except Failure Body := do
  let slots ← assignSlots m
  let f := frameOf m slots
  let codes ← blockCodes f 0 m.layout
  let calm := (codes.map BlockCode.hasCalm).toArray
  let opens (position : Nat) : Bool := calm.getD position false
  .ok {
    instructions := (codes.zipIdx.map fun (c, i) => c.instructions i).flatten
    tryCatches := m.traps.flatMap (trapEntries f opens) }

end Restack.Lowering
