/-
# The graph of a method

Looking blocks up, following edges and keeping phis and traps in step with
them. A block that can throw has an edge to every handler of every trap that
covers it.
-/
import Restack.Ir.Basic
import Restack.Text.Basic

namespace Restack.Ir

namespace Method

def block? (m : Method) (b : BlockId) : Option Block := (m.blocks[b.index]?).join

def setBlock (m : Method) (b : BlockId) (block : Block) : Method :=
  { m with blocks := m.blocks.setIfInBounds b.index (some block) }

def modifyBlock (m : Method) (b : BlockId) (f : Block → Block) : Method :=
  { m with blocks := m.blocks.modify b.index (Option.map f) }

def eraseBlock (m : Method) (b : BlockId) : Method :=
  { m with
    blocks := m.blocks.setIfInBounds b.index none
    layout := m.layout.filter (· != b) }

/-- The blocks that exist, by ascending number. -/
def numbered (m : Method) : List (BlockId × Block) :=
  m.blocks.toList.zipIdx.filterMap fun (cell, i) => cell.map fun block => (⟨i⟩, block)

def blockList (m : Method) : List Block := m.blocks.toList.filterMap id

def mapBlocks (m : Method) (f : BlockId → Block → Block) : Method :=
  { m with blocks := m.blocks.mapIdx fun i cell => cell.map (f ⟨i⟩) }

def stmts (m : Method) : List Stmt := m.blockList.flatMap (·.stmts)

def mapValues (m : Method) (f : Value → Value) : Method :=
  m.mapBlocks fun _ block => block.mapValues f

def localType (m : Method) (l : Local) : Ty := m.locals.getD l.index .unknown

def freshLocal (m : Method) : Local × Method :=
  (⟨m.locals.size⟩, { m with locals := m.locals.push .unknown })

/-- The type a `return` expects, absent for a method without a result. -/
def returnTy? (m : Method) : Option Ty :=
  if m.returnType = "V" then none else some (.ofDescriptor m.returnType)

def defs (m : Method) : List Local :=
  m.blockList.flatMap fun block => block.phis.map (·.dst) ++ block.stmts.filterMap Stmt.def?

def uses (m : Method) : List Local :=
  m.blockList.flatMap fun block =>
    localsOf ((block.phis.flatMap fun p => p.operands.map (·.2)) ++
      block.stmts.flatMap Stmt.values ++ block.terminator.values)

def isHandler (m : Method) (b : BlockId) : Bool :=
  m.traps.any fun t => t.handlers.any (·.target == b)

def isCovered (m : Method) (b : BlockId) : Bool := m.traps.any (·.covered.contains b)

def successors (m : Method) (b : BlockId) : List BlockId :=
  match m.block? b with
  | some block => block.terminator.successors
  | none => []

/-- Handlers a block can throw into, in order of priority, each once. -/
def exceptionalSuccessors (m : Method) (b : BlockId) : List BlockId :=
  match m.block? b with
  | some block =>
    if block.canThrow then
      ((m.traps.filter (·.covered.contains b)).flatMap fun t => t.handlers.map (·.target)).eraseDups
    else []
  | none => []

def allSuccessors (m : Method) (b : BlockId) : List BlockId :=
  (m.successors b ++ m.exceptionalSuccessors b).eraseDups

def edges (m : Method) : List (BlockId × List BlockId) :=
  m.layout.map fun b => (b, m.allSuccessors b)

def sourcesIn (edges : List (BlockId × List BlockId)) (b : BlockId) : List BlockId :=
  edges.filterMap fun e => if e.2.contains b then some e.1 else none

def predecessors (m : Method) (b : BlockId) : List BlockId := sourcesIn m.edges b

def normalPredecessors (m : Method) (b : BlockId) : List BlockId :=
  m.layout.filter fun p => (m.successors p).contains b

def pruneEdges (m : Method) : Method :=
  let edges := m.edges
  let trimmed := m.mapBlocks fun b block =>
    if block.phis.isEmpty then block
    else
      let sources := sourcesIn edges b
      { block with phis := block.phis.map fun p =>
          { p with operands := p.operands.filter fun o => sources.contains o.1 } }
  let exists? (b : BlockId) : Bool := (m.block? b).isSome
  { trimmed with
    traps := (m.traps.map fun t =>
      { covered := t.covered.filter exists?
        handlers := t.handlers.filter fun h => exists? h.target : Trap }).filter
      fun t => !t.covered.isEmpty && !t.handlers.isEmpty }

/-- Depth-first search from a stack of blocks; each step takes one block off it. -/
def reachFrom (m : Method) : Nat → List BlockId → List BlockId → List BlockId
  | 0, _, seen => seen
  | _ + 1, [], seen => seen
  | fuel + 1, b :: stack, seen =>
    if (m.block? b).isNone || seen.contains b then m.reachFrom fuel stack seen
    else m.reachFrom fuel (m.allSuccessors b ++ stack) (b :: seen)

def reachable (m : Method) : List BlockId :=
  m.reachFrom (1 + total (m.numbered.map fun e => (m.allSuccessors e.1).length + 1)) [m.entry] []

/-- Drops the blocks that no path from the entry reaches; tells whether there were any. -/
def removeUnreachable (m : Method) : Method × Bool :=
  let kept := m.reachable
  if kept.length == m.blockList.length then (m, false)
  else
    let smaller := { m with
      blocks := m.blocks.mapIdx fun i cell => if kept.contains ⟨i⟩ then cell else none
      layout := m.layout.filter kept.contains }
    (smaller.pruneEdges, true)

end Method

abbrev Substitution := List (Local × Value)

/-- Follows a chain of replacements, at most `fuel` steps. -/
def Substitution.follow (σ : Substitution) : Nat → Value → Value
  | 0, v => v
  | fuel + 1, v =>
    match v with
    | .var l => match σ.lookup l with
      | some next => σ.follow fuel next
      | none => v
    | .const _ => v

/-- The end of the chain that starts at a value. -/
def Substitution.resolve (σ : Substitution) (v : Value) : Value := σ.follow (σ.length + 1) v

def Method.substitute (m : Method) (σ : Substitution) : Method :=
  if σ.isEmpty then m else m.mapValues σ.resolve

end Restack.Ir
