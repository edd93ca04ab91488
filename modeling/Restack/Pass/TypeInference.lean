/-
# Types of locals

Locals joined by copies or phis form a class and share a type. The type of a
class is found in rounds: first from what its definitions yield, then from what
its uses expect. Rounds end when nothing changes, or after eight of them. A class
that nothing tells about is long if a wide literal flows into it and int if not.
-/
import Restack.Ir.Typing

namespace Restack.Pass

open Ir

/-- The parent of local number `i`, at position `i`: a class is a tree, and the
number at its root is the class. -/
abbrev Classes := Array Nat

namespace Classes

def parent (c : Classes) (i : Nat) : Nat := c.getD i i

def hang (c : Classes) (i up : Nat) : Classes := c.setIfInBounds i up

/-- Climbs to the root above `i`, hanging each node that is passed one node
higher. No way up is longer than the number of nodes. -/
def climb : Nat → Classes → Nat → Nat × Classes
  | 0, c, i => (i, c)
  | fuel + 1, c, i =>
    if c.parent i = i then (i, c)
    else
      let up := c.parent (c.parent i)
      climb fuel (c.hang i up) up

def find (c : Classes) (l : Local) : Nat := (climb c.size c l.index).1

def union (c : Classes) (a b : Local) : Classes :=
  let (kept, c) := climb c.size c a.index
  let (gone, c) := climb c.size c b.index
  if kept = gone then c else c.hang gone kept

/-- Joins the classes of the locals of a copy. -/
def join (c : Classes) : Local × Value → Classes
  | (dst, .var src) => c.union dst src
  | (_, .const _) => c

end Classes

/-- Every copy of an operand into a local, by phis and statements. -/
def flows (m : Method) : List (Local × Value) :=
  m.blockList.flatMap fun block =>
    (block.phis.flatMap fun p => p.operands.map fun o => (p.dst, o.2)) ++
      block.stmts.filterMap fun
        | .assign dst (.value v) => some (dst, v)
        | _ => none

def classesOf (m : Method) : Classes :=
  (flows m).foldl Classes.join (Array.range m.locals.size)

/-- Classes into which a wide literal flows. -/
def wideClasses (m : Method) (c : Classes) : List Nat :=
  (flows m).filterMap fun
    | (dst, .const (.literal _ true)) => some (c.find dst)
    | _ => none

/-- An unknown type yields to any, and a plain object reference to any known one. -/
def joinTypes : Ty → Ty → Ty
  | .unknown, t | t, .unknown => t
  | .ref d, t => if d = "Ljava/lang/Object;" then t else .ref d
  | t, _ => t

/-- What definitions yield and uses expect of locals, in the order that counts. -/
def evidence (m : Method) : List (Local × Ty) :=
  m.defTypes ++ m.typedUses.filterMap fun
    | (.var l, some t) => some (l, t)
    | _ => none

/-- One round: the type of class number `i`, at position `i`. -/
def inferOnce (c : Classes) (m : Method) : Array Ty :=
  (evidence m).foldl (fun types (l, t) => types.modify (c.find l) (joinTypes · t))
    (Array.replicate m.locals.size .unknown)

def assignTypes (c : Classes) (types : Array Ty) (m : Method) : Method :=
  { m with locals := m.locals.mapIdx fun i _ => types.getD (c.find ⟨i⟩) .unknown }

def inferRounds (c : Classes) : Nat → Array Ty → Method → Method
  | 0, _, m => m
  | fuel + 1, types, m =>
    let next := inferOnce c m
    let m := assignTypes c next m
    if next == types then m else inferRounds c fuel next m

def withDefaults (c : Classes) (m : Method) : Method :=
  let wide := wideClasses m c
  { m with locals := m.locals.mapIdx fun i t =>
      if t.isKnown then t else if wide.contains (c.find ⟨i⟩) then .long else .int }

/-- The constant of an expected type with the bits of a literal. -/
def typedLiteral (bits : Int64) (wide : Bool) : Option Ty → Constant
  | some .int => .int bits.toInt32
  | some .long => .long bits
  | some .float => .float bits.toUInt64.toUInt32
  | some .double => .double bits.toUInt64
  | some (.ref _) =>
    if bits == 0 then .null else if wide then .long bits else .int bits.toInt32
  | _ => if wide then .long bits else .int bits.toInt32

def typedValue (v : Value) (expected : Option Ty) : Value :=
  match v with
  | .const (.literal bits wide) => .const (typedLiteral bits wide expected)
  | v => v

/-- Literals that flow into locals take the types of those. -/
def typeFlows (m : Method) : Method :=
  m.mapBlocks fun _ block => { block with
    phis := block.phis.map fun p => p.mapValues (typedValue · (some (m.localType p.dst)))
    stmts := block.stmts.map fun
      | .assign dst (.value v) => .assign dst (.value (typedValue v (some (m.localType dst))))
      | s => s }

def inferTypes (m : Method) : Method × Bool :=
  let c := classesOf m
  let start : Array Ty := Array.replicate m.locals.size .unknown
  let typed := withDefaults c (inferRounds c 8 start m)
  let after := (typeFlows typed).mapTypedUses typedValue
  (after, after.locals != m.locals || after.operands != m.operands)

end Restack.Pass
