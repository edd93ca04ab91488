/-
# Values of registers

What each register holds in each block, found on demand. A block that was not
written to asks its predecessors: a single one passes its answer on, several
are merged by a phi. While predecessors of a block are still to come the block
is open, and a read in it makes a phi without operands; closing the block gives
it one operand for each predecessor.

A phi is written into its block before its operands are read, so a read goes at
most once through each block: the number of blocks is enough fuel.
-/
import Restack.Lifting.Outline

namespace Restack.Lifting

open Register (Reg)
open Ir (BlockId Local Value Substitution)

/-- What is known of the registers in one block. In both lists the newest pair
comes first and the first one of a register counts. -/
structure Table where
  /-- The locals that instructions of the block wrote. -/
  written : List (Reg × Local) := []
  /-- What reads found at the entry of the block. -/
  entered : List (Reg × Value) := []
  /-- No predecessor is missing any more. -/
  closed : Bool := false
  /-- The block's instructions have been read. -/
  filled : Bool := false
  /-- Phis that wait for the block to be closed. -/
  waiting : List (Reg × Local) := []

/-- The value of a register at the end of what is known of the block. -/
def Table.value? (t : Table) (r : Reg) : Option Value :=
  match t.written.lookup r with
  | some l => some (.var l)
  | none => t.entered.lookup r

/-- A phi under consideration: its block and the register whose values it merges. -/
structure Merge where
  block : BlockId
  register : Reg
  operands : List (BlockId × Value)

structure Registers where
  /-- Number of locals handed out. -/
  locals : Nat
  /-- Table of block number `i` at position `i`. -/
  tables : Array Table
  /-- Phis by ascending local. -/
  merges : List (Local × Merge)
  /-- Phis whose operands are being read. -/
  growing : List Local
  /-- What stands for the phis that were removed. -/
  replaced : Substitution

/-- The order in which the blocks behind a filled one are looked at. The outline
does not settle it, and phis get their numbers by it. -/
structure ClosingOrder where
  arrange : BlockId → List BlockId → List BlockId
  perm : ∀ b targets, (arrange b targets).Perm targets

/-- The order of the outline. -/
def ClosingOrder.listed : ClosingOrder := ⟨fun _ targets => targets, fun _ _ => .refl _⟩

namespace Registers

def initial (blocks : Nat) : Registers where
  locals := 0
  tables := Array.replicate blocks {}
  merges := []
  growing := []
  replaced := []

def table (s : Registers) (b : BlockId) : Table := s.tables.getD b.index {}

def modifyTable (s : Registers) (b : BlockId) (f : Table → Table) : Registers :=
  { s with tables := s.tables.modify b.index f }

def freshLocal (s : Registers) : Local × Registers :=
  (⟨s.locals⟩, { s with locals := s.locals + 1 })

def write (s : Registers) (r : Reg) (l : Local) (b : BlockId) : Registers :=
  s.modifyTable b fun t => { t with written := (r, l) :: t.written }

def enter (s : Registers) (r : Reg) (v : Value) (b : BlockId) : Registers :=
  s.modifyTable b fun t => { t with entered := (r, v) :: t.entered }

def enterAll (s : Registers) (r : Reg) (v : Value) (bs : List BlockId) : Registers :=
  bs.foldl (fun s b => s.enter r v b) s

def await (s : Registers) (r : Reg) (phi : Local) (b : BlockId) : Registers :=
  s.modifyTable b fun t => { t with waiting := t.waiting ++ [(r, phi)] }

def merge? (s : Registers) (phi : Local) : Option Merge := s.merges.lookup phi

def resolve (s : Registers) (v : Value) : Value := s.replaced.resolve v

def newPhi (s : Registers) (r : Reg) (b : BlockId) : Local × Registers :=
  let (phi, s) := s.freshLocal
  let s : Registers := { s with merges := s.merges ++ [(phi, ⟨b, r, []⟩)] }
  (phi, s.enter r (.var phi) b)

def addOperand (s : Registers) (phi : Local) (source : BlockId) (v : Value) : Registers :=
  { s with merges := s.merges.map fun (l, m) =>
      if l = phi then (l, { m with operands := m.operands ++ [(source, v)] }) else (l, m) }

/-- The values that operands resolve to, the phi itself left out, each once. -/
def incoming (s : Registers) (phi : Local) (m : Merge) : List Value :=
  ((m.operands.map fun o => s.resolve o.2).filter fun v => !v.isVar phi).eraseDups

def readers (s : Registers) (phi : Local) : List Local :=
  (s.merges.filter fun (l, m) =>
    !s.growing.contains l && m.operands.any fun o => o.2.isVar phi).map (·.1)

/-- Replaces a phi that merges at most one value, and then those of its readers
that merge one value after that. Every step removes a phi. -/
def simplifyWith : Nat → Local → Registers → Value × Registers
  | 0, phi, s => (.var phi, s)
  | fuel + 1, phi, s =>
    match s.merge? phi with
    | none => (s.resolve (.var phi), s)
    | some m =>
      let replaceBy (v : Value) : Value × Registers :=
        let s := { s with
          merges := s.merges.filter (·.1 != phi)
          replaced := (phi, v) :: s.replaced }
        (v, (s.readers phi).foldl (fun s reader => (simplifyWith fuel reader s).2) s)
      match s.incoming phi m with
      | [] => replaceBy .zero
      | [v] => replaceBy v
      | _ => (.var phi, s)

def simplify (s : Registers) (phi : Local) : Value × Registers :=
  simplifyWith (s.merges.length + 1) phi s

/-- Where the search for a register's value ends. -/
inductive Found where
  | value (v : Value)
  /-- An open block. -/
  | open
  /-- Nothing is ever written. -/
  | unset
  /-- A block with several predecessors. -/
  | join

/-- Goes back through single predecessors; gives the blocks passed, the last
one first, the block it ends in and what it finds there. -/
def search (o : Outline) (s : Registers) (r : Reg) :
    Nat → List BlockId → BlockId → List BlockId × BlockId × Found
  | 0, passed, b => (passed, b, .unset)
  | fuel + 1, passed, b =>
    let t := s.table b
    match t.value? r with
    | some v => (passed, b, .value v)
    | none =>
      if !t.closed then (passed, b, .open)
      else match o.sourcesOf b with
        | [] => (passed, b, .unset)
        | [source] =>
          if source = b || passed.contains source then (passed, b, .unset)
          else search o s r fuel (b :: passed) source
        | _ => (passed, b, .join)

/-- Reads one operand for each source, then drops the phi if they agree. -/
def gather (read : BlockId → Registers → Value × Registers) (sources : List BlockId) (phi : Local)
    (s : Registers) : Value × Registers :=
  let s := { s with growing := phi :: s.growing }
  let s := sources.foldl (fun s source =>
    let (v, s) := read source s
    s.addOperand phi source v) s
  let s := { s with growing := s.growing.filter (· != phi) }
  s.simplify phi

/-- The value of a register at the end of what is known of a block; it is
recorded in the blocks gone through. -/
def readWith (o : Outline) (r : Reg) : Nat → BlockId → Registers → Value × Registers
  | 0, _, s => (.zero, s)
  | fuel + 1, b, s =>
    match search o s r (o.size + 1) [] b with
    | (passed, _, .value v) => (s.resolve v, s.enterAll r (s.resolve v) passed)
    | (passed, last, .unset) => (.zero, s.enterAll r .zero (last :: passed))
    | (passed, last, .open) =>
      let (phi, s) := s.newPhi r last
      (.var phi, (s.await r phi last).enterAll r (.var phi) passed)
    | (passed, last, .join) =>
      let (phi, s) := s.newPhi r last
      let (v, s) := gather (readWith o r fuel) (o.sourcesOf last) phi s
      (v, s.enterAll r v (last :: passed))

def read (s : Registers) (o : Outline) (b : BlockId) (r : Reg) : Value × Registers :=
  readWith o r (o.size + 1) b s

def readAll (s : Registers) (o : Outline) (b : BlockId) : List Reg → List Value × Registers
  | [] => ([], s)
  | r :: rest =>
    let (v, s) := s.read o b r
    let (vs, s) := s.readAll o b rest
    (v :: vs, s)

def close (s : Registers) (o : Outline) (b : BlockId) : Registers :=
  let t := s.table b
  if t.closed then s
  else
    let s := s.modifyTable b fun t => { t with closed := true, waiting := [] }
    t.waiting.foldl (fun s (r, phi) =>
      match s.merge? phi with
      | some m => (gather (readWith o r (o.size + 1)) (o.sourcesOf m.block) phi s).2
      | none => s) s

/-- Closes a block all of whose predecessors are filled. -/
def closeIfReady (s : Registers) (o : Outline) (b : BlockId) : Registers :=
  if (o.sourcesOf b).all fun p => (s.table p).filled then s.close o b else s

/-- Marks a block as filled and closes the ready blocks behind it that were
entered already. -/
def finishBlock (s : Registers) (order : ClosingOrder) (o : Outline) (b : BlockId) : Registers :=
  let s := s.modifyTable b fun t => { t with filled := true }
  (order.arrange b (o.targetsOf b)).foldl (fun s target =>
    let t := s.table target
    if t.filled || !t.waiting.isEmpty then s.closeIfReady o target else s) s

end Registers

end Restack.Lifting
