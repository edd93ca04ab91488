/-
# Slots

Every local gets a slot of the frame, a wide one also the slot behind it. The
parameters have the slots in which they arrive. Each of the other locals, in order
of appearance, takes the first slot behind the parameters that overlaps with no
local it is in conflict with: two locals are in conflict when one is defined where
the other is live.
-/
import Restack.Failure
import Restack.Lowering.Liveness

namespace Restack.Lowering

open Ir

/-- The slot of local number `i`, at position `i`. -/
abbrev Slots := Array (Option Nat)

def Slots.of? (s : Slots) (l : Local) : Option Nat := s.getD l.index none

def paramOffsets : Nat → List String → List Nat
  | _, [] => []
  | next, d :: rest => next :: paramOffsets (next + (Ty.ofDescriptor d).width) rest

def paramSlots (m : Method) : Nat :=
  total (m.params.toList.map fun d => (Ty.ofDescriptor d).width)

/-- Gives the parameters read by a statement the slots in which they arrive. -/
def pinParam (offsets : Array Nat) (slots : Slots) : Stmt → Except Failure Slots
  | .assign dst (.param i) =>
    match offsets[i]? with
    | some offset => .ok (slots.setIfInBounds dst.index (some offset))
    | none => fail (.parameterRange i)
  | _ => .ok slots

def pinParams (m : Method) : Except Failure Slots :=
  let offsets := (paramOffsets 0 m.params.toList).toArray
  m.layout.foldlM (fun slots b =>
    match m.block? b with
    | none => .ok slots
    | some block =>
      if block.phis.isEmpty then block.stmts.foldlM (pinParam offsets) slots
      else fail (.remainingPhis b)) (Array.replicate m.locals.size none)

def stmtLocals (s : Stmt) : List Local := s.def?.toList ++ localsOf s.values

/-- The locals in order of appearance, as often as they appear. -/
def appearances (m : Method) : List Local :=
  (m.layout.filterMap m.block?).flatMap fun block =>
    block.stmts.flatMap stmtLocals ++ localsOf block.terminator.values

/-- The pairs of a local and another that is live where it is defined; `after`
holds the live sets behind the statements. -/
def conflictsAlong : List Stmt → List LocalSet → List (Local × Local)
  | s :: rest, live :: after =>
    (match s.def? with
      | some dst => (live.filter (· != dst)).map (dst, ·)
      | none => []) ++ conflictsAlong rest after
  | _, _ => []

/-- The locals that local number `i` is in conflict with, at position `i`. -/
abbrev Conflicts := Array (List Local)

def conflicts (m : Method) : Conflicts :=
  let live := liveIn m
  let pairs := m.layout.flatMap fun b =>
    match m.block? b with
    | some block => conflictsAlong block.stmts ((blockLiveness m live b block).drop 1)
    | none => []
  pairs.foldl (fun g (a, b) => (g.modify a.index (b :: ·)).modify b.index (a :: ·))
    (Array.replicate m.locals.size [])

/-- The slot behind a range, which has to be a number of sixteen bits. -/
def slotBehind (slot width : Nat) : Except Failure Nat :=
  if slot + width < 65536 then .ok (slot + width) else fail .slotOverflow

def overlaps (slot width taken takenWidth : Nat) : Except Failure Bool := do
  if slot < (← slotBehind taken takenWidth) then
    .ok (taken < (← slotBehind slot width))
  else .ok false

/-- The first slot from `slot` on that overlaps with none of the ranges taken. -/
def firstFit (width : Nat) (taken : List (Nat × Nat)) : Nat → Nat → Except Failure Nat
  | 0, slot => .ok slot
  | fuel + 1, slot => do
    if ← taken.anyM fun t => overlaps slot width t.1 t.2 then firstFit width taken fuel (slot + 1)
    else .ok slot

/-- Places a local beside those already placed, from slot `first` on. No slot
behind all ranges taken is passed by. -/
def place (m : Method) (g : Conflicts) (first : Nat) (slots : Slots) (l : Local) :
    Except Failure Slots := do
  if (slots.of? l).isSome then .ok slots
  else
    let taken := (g.getD l.index []).filterMap fun n =>
      (slots.of? n).map fun slot => (slot, (m.localType n).width)
    let limit := (taken.map fun t => t.1 + t.2).foldl max 0
    let slot ← firstFit (m.localType l).width taken (limit + 1) first
    .ok (slots.setIfInBounds l.index (some slot))

def assignSlots (m : Method) : Except Failure Slots := do
  let pinned ← pinParams m
  let g := conflicts m
  (appearances m).foldlM (place m g (paramSlots m)) pinned

end Restack.Lowering
