/-
# The outline of a body

Where the blocks of a body begin and end, which edges join them and which traps
guard them, all before any value is looked at. A throwing instruction that writes
a register inside a guarded range gets a landing block behind it: the write
happens there, so a handler sees the registers as they were.

Blocks are numbered: the entry, one for each beginning, then the landings.
-/
import Restack.Failure
import Restack.Register.Program

namespace Restack.Lifting

open Register (Instruction Label Reg Code TryRange)
open Ir (BlockId Trap Handler)

/-- Whether the intermediate form of the instruction can raise. Class literals
and type tests fail on linkage problems only and count as pure. -/
def throws : Instruction → Bool
  | .constClass .. | .instanceOf .. => false
  | i => i.canThrow

/-- The register written by a throwing instruction itself, not by the move of a
result after it. -/
def throwingDest? (i : Instruction) : Option Reg :=
  if !throws i then none
  else match i with
    | .checkCast reg _ => some reg
    | .arrayLength dest _ | .newInstance dest _ | .newArray dest _ _ | .binary _ dest _ _
    | .binaryLiteral _ dest _ _ _ => some dest
    | .array op value _ _ | .instanceField op value _ _ | .staticField op value _ =>
      if op.isGet then some value else none
    | _ => none

structure Span where
  id : BlockId
  start : Nat
  stop : Nat
  landing : Option BlockId

structure Outline where
  /-- The instructions without marks and empty ones. -/
  instructions : Array Instruction
  /-- Where each label stands; the last mark of a name comes first. -/
  labels : List (Label × Nat)
  spans : List Span
  layout : List BlockId
  traps : List Trap
  edges : List (BlockId × BlockId)
  /-- Sources of the edges into block number `i` at position `i`, each once. -/
  sources : Array (List BlockId)

def entry : BlockId := ⟨0⟩

/-- Splits marks from instructions; a mark names the position of what follows it. -/
def separate : List Instruction → Nat → List Instruction × List (Label × Nat)
  | [], _ => ([], [])
  | .mark label :: rest, pos =>
    let (kept, labels) := separate rest pos
    (kept, labels ++ [(label, pos)])
  | .nop :: rest, pos => separate rest pos
  | i :: rest, pos =>
    let (kept, labels) := separate rest (pos + 1)
    (i :: kept, labels)

def position (labels : List (Label × Nat)) (label : Label) : Except Failure Nat :=
  match labels.lookup label with
  | some pos => .ok pos
  | none => fail (.unknownLabel label)

def rangeOf (labels : List (Label × Nat)) (t : TryRange) : Except Failure (Nat × Nat) := do
  .ok (← position labels t.start, ← position labels t.stop)

def inRange (range : Nat × Nat) (pos : Nat) : Bool := range.1 ≤ pos && pos < range.2

def isGuarded (ranges : List (Nat × Nat)) (pos : Nat) : Bool := ranges.any (inRange · pos)

/-- Positions at which blocks begin because of one instruction. -/
def beginningsOf (labels : List (Label × Nat)) (ranges : List (Nat × Nat)) (pos : Nat)
    (i : Instruction) : Except Failure (List Nat) := do
  let targets ← i.targets.mapM (position labels)
  .ok (if i.isBranch || (throws i && isGuarded ranges pos) then targets ++ [pos + 1] else targets)

def beginnings (labels : List (Label × Nat)) (ranges : List (Nat × Nat)) (tries : List TryRange)
    (instructions : Array Instruction) : Except Failure (List Nat) := do
  let handlers ← tries.mapM fun t => t.clauses.mapM fun c => position labels c.handler
  let inside ← instructions.toList.zipIdx.mapM fun (i, pos) => beginningsOf labels ranges pos i
  let all := 0 :: ranges.flatMap (fun r => [r.1, r.2]) ++ handlers.flatten ++ inside.flatten
  .ok ((List.range instructions.size).filter all.contains)

/-- Spans between neighbouring beginnings, numbered from `id`. -/
def spansFrom (size : Nat) : Nat → List Nat → List Span
  | _, [] => []
  | id, start :: rest => ⟨⟨id⟩, start, rest.head?.getD size, none⟩ :: spansFrom size (id + 1) rest

/-- Whether the last instruction of a span writes behind a landing. -/
def needsLanding (instructions : Array Instruction) (ranges : List (Nat × Nat)) (s : Span) : Bool :=
  match instructions[s.stop - 1]? with
  | some i => (throwingDest? i).isSome && isGuarded ranges (s.stop - 1)
  | none => false

/-- Gives landings to the spans that need one, numbered from `id`. -/
def withLandings (needs : Span → Bool) : Nat → List Span → List Span
  | _, [] => []
  | id, s :: rest =>
    if needs s then { s with landing := some ⟨id⟩ } :: withLandings needs (id + 1) rest
    else s :: withLandings needs id rest

def blockAt? (spans : List Span) (pos : Nat) : Option BlockId :=
  (spans.find? (·.start == pos)).map (·.id)

def blockOf (labels : List (Label × Nat)) (spans : List Span) (label : Label) :
    Except Failure BlockId := do
  match blockAt? spans (← position labels label) with
  | some b => .ok b
  | none => fail (.danglingLabel label)

/-- Normal edges of a span, those of its landing first. -/
def spanEdges (labels : List (Label × Nat)) (spans : List Span) (s : Span) (last : Instruction) :
    Except Failure (List (BlockId × BlockId)) := do
  let targets ← last.targets.mapM (blockOf labels spans)
  let next := (blockAt? spans s.stop).toList
  let jumps := targets.map (s.id, ·)
  if last.endsFlow then .ok jumps
  else match s.landing with
    | some landing => .ok ((s.id, landing) :: next.map (landing, ·) ++ jumps)
    | none => .ok (jumps ++ next.map (s.id, ·))

/-- The trap of a guarded range: the blocks in it that end by throwing. -/
def trapOf? (labels : List (Label × Nat)) (spans : List Span) (instructions : Array Instruction)
    (t : TryRange) (range : Nat × Nat) : Except Failure (Option Trap) := do
  let covered := (spans.filter fun s =>
    inRange range s.start && (instructions[s.stop - 1]?).any throws).map (·.id)
  if covered.isEmpty then .ok none
  else
    let handlers ← t.clauses.mapM fun c => do
      .ok (⟨c.catches, ← blockOf labels spans c.handler⟩ : Handler)
    .ok (some ⟨covered, handlers⟩)

def trapEdges (t : Trap) : List (BlockId × BlockId) :=
  t.covered.flatMap fun b => t.handlers.map fun h => (b, h.target)

namespace Outline

def size (o : Outline) : Nat := o.sources.size

def sourcesOf (o : Outline) (b : BlockId) : List BlockId := o.sources.getD b.index []

def targetsOf (o : Outline) (b : BlockId) : List BlockId :=
  ((o.edges.filter (·.1 == b)).map (·.2)).eraseDups

def blockOf (o : Outline) (label : Label) : Except Failure BlockId :=
  Lifting.blockOf o.labels o.spans label

/-- The block that starts at a position control falls to. -/
def blockAt (o : Outline) (pos : Nat) : Except Failure BlockId :=
  match blockAt? o.spans pos with
  | some b => .ok b
  | none => fail .fallsOffEnd

def first (o : Outline) : BlockId := (o.spans.head?.map (·.id)).getD entry

def ofCode (code : Code) : Except Failure Outline := do
  let (kept, labels) := separate code.instructions 0
  if kept.isEmpty then fail .emptyBody
  let instructions := kept.toArray
  let ranges ← code.tries.mapM (rangeOf labels)
  let starts ← beginnings labels ranges code.tries instructions
  let bare := spansFrom instructions.size 1 starts
  let spans := withLandings (needsLanding instructions ranges) (1 + bare.length) bare
  let landings := spans.filterMap (·.landing)
  let spanEdges ← spans.mapM fun s => match instructions[s.stop - 1]? with
    | some last => spanEdges labels spans s last
    | none => .ok []
  let traps ← (code.tries.zip ranges).mapM fun (t, range) =>
    trapOf? labels spans instructions t range
  let traps := traps.filterMap id
  let edges := (entry, ⟨1⟩) :: spanEdges.flatten ++ traps.flatMap trapEdges
  let count := 1 + spans.length + landings.length
  .ok {
    instructions, labels, spans, traps, edges
    layout := entry :: spans.flatMap fun s => s.id :: s.landing.toList
    sources := ((List.range count).map fun b =>
      ((edges.filter fun e => e.2.index == b).map (·.1)).eraseDups).toArray }

end Outline

end Restack.Lifting
