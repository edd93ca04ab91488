/-
# Constructing objects

An allocation and the constructor call that initialises the object become one
expression at the place of the call. The call is looked for behind the
allocation, in its block and on through jumps to blocks with no other
predecessor; nothing on the way, and no handler that it may throw into, may use
the object.
-/
import Restack.Ir.Graph

namespace Restack.Pass

open Ir

def readsLocal (block : Block) (l : Local) : Bool :=
  block.phis.any (·.uses l) || block.stmts.any (·.uses l) || block.terminator.uses l

/-- Whether a local is read in a handler that one of the blocks may throw into. -/
def usedInHandlers (m : Method) (blocks : List BlockId) (l : Local) : Bool :=
  (blocks.flatMap m.exceptionalSuccessors).any fun h =>
    (m.block? h).any fun block => readsLocal block l

def constructorCall? (l : Local) : Stmt → Option (Register.MethodRef × List Value)
  | .effect (.invoke .direct callee (object :: args)) =>
    if callee.name = "<init>" && object.isVar l then some (callee, args) else none
  | _ => none

/-- The first use of a local among statements, which are numbered from `i`. -/
inductive FirstUse where
  | none
  | constructed (index : Nat) (constructor : Register.MethodRef) (args : List Value)
  | other

def firstUse (l : Local) : Nat → List Stmt → FirstUse
  | _, [] => .none
  | i, s :: rest =>
    match constructorCall? l s with
    | some (constructor, args) => .constructed i constructor args
    | none => if s.uses l then .other else firstUse l (i + 1) rest

/-- Where an object is initialised: block, position and the call there. -/
structure Site where
  block : BlockId
  index : Nat
  constructor : Register.MethodRef
  args : List Value

/-- Looks for the constructor call from a position of a block on; `path` holds
the blocks gone through, this one first. -/
def findSite (m : Method) (edges : List (BlockId × List BlockId)) (l : Local) :
    Nat → List BlockId → BlockId → Nat → Option Site
  | 0, _, _, _ => none
  | fuel + 1, path, b, i =>
    match m.block? b with
    | none => none
    | some block =>
      if block.phis.any (·.uses l) then none
      else match firstUse l i (block.stmts.drop i) with
        | .constructed index constructor args =>
          if args.any (·.isVar l) || usedInHandlers m path l then none
          else some ⟨b, index, constructor, args⟩
        | .other => none
        | .none =>
          match block.terminator with
          | .goto next =>
            if path.contains next || m.isHandler next then none
            else if Method.sourcesIn edges next != [b] then none
            else findSite m edges l fuel (next :: path) next 0
          | _ => none

/-- Joins the allocation at a position of a block with its constructor call. -/
def constructAt? (m : Method) (edges : List (BlockId × List BlockId)) (b : BlockId) (i : Nat) :
    Option Method := do
  let block ← m.block? b
  let .assign l (.newInstance type) ← block.stmts[i]? | none
  let site ← findSite m edges l (m.blocks.size + 1) [b] b (i + 1)
  let joined := Stmt.assign l (.newObject type site.constructor site.args)
  let m := m.modifyBlock site.block fun block =>
    { block with stmts := block.stmts.set site.index joined }
  some (m.modifyBlock b fun block => { block with stmts := block.stmts.eraseIdx i })

/-- The position of the first allocation of a block from a position on. -/
def nextAllocation? (m : Method) (b : BlockId) (i : Nat) : Option Nat := do
  let block ← m.block? b
  let skipped ← (block.stmts.drop i).findIdx? fun
    | .assign _ (.newInstance _) => true
    | _ => false
  some (i + skipped)

/-- Goes through the allocations of a block from a position on; a step advances
or removes a statement. -/
def constructFrom (edges : List (BlockId × List BlockId)) (b : BlockId) :
    Nat → Nat → Method × Bool → Method × Bool
  | 0, _, state => state
  | fuel + 1, i, (m, changed) =>
    match nextAllocation? m b i with
    | none => (m, changed)
    | some i =>
      match constructAt? m edges b i with
      | some joined => constructFrom edges b fuel i (joined, true)
      | none => constructFrom edges b fuel (i + 1) (m, changed)

def constructObjects (m : Method) : Method × Bool :=
  let edges := m.edges
  m.layout.foldl (fun (m, changed) b =>
    let count := (m.block? b).elim 0 fun block => block.stmts.length
    constructFrom edges b count 0 (m, changed)) (m, false)

end Restack.Pass
