/-
# Reflective allocations and calls without a result

`Array.newInstance` called on a known element type and on a literal of its
dimensions, which stands earlier in the same block, becomes a direct
allocation; the definitions that only the call read are dropped. A call without
a result defines nothing: a local that was to receive it gets zero when it is
read.
-/
import Restack.Ir.Graph

namespace Restack.Pass

open Ir

/-- How many operands read local number `i`, at position `i`. -/
def useCounts (m : Method) : Array Nat :=
  m.uses.foldl (fun counts l => counts.modify l.index (· + 1)) (Array.replicate m.locals.size 0)

def primitiveOfBox? (owner : String) : Option String :=
  [("Ljava/lang/Boolean;", "Z"), ("Ljava/lang/Byte;", "B"), ("Ljava/lang/Character;", "C"),
    ("Ljava/lang/Short;", "S"), ("Ljava/lang/Integer;", "I"), ("Ljava/lang/Long;", "J"),
    ("Ljava/lang/Float;", "F"), ("Ljava/lang/Double;", "D")].lookup owner

def reflectiveNew : Register.MethodRef :=
  ⟨"Ljava/lang/reflect/Array;", "newInstance", "(Ljava/lang/Class;[I)Ljava/lang/Object;"⟩

/-- Arguments of a reflective allocation: the class and the dimensions. -/
def reflectiveArgs? : Stmt → Option (Value × Value)
  | .assign _ (.invoke .static callee (type :: dims :: _)) =>
    if callee = reflectiveNew then some (type, dims) else none
  | _ => none

/-- The element type that a class operand names, and the local it was read into
if it is that of a box class. -/
def elementType? (defs : Array (Option Expr)) : Value → Option (String × Option Local)
  | .const (.type d) => some (d, none)
  | .var l => match defs.getD l.index none with
    | some (.getStatic field) =>
      if field.name = "TYPE" then (primitiveOfBox? field.owner).map (·, some l) else none
    | _ => none
  | _ => none

/-- The last definition of local number `i`, at position `i`. -/
def lastDefs (m : Method) : Array (Option Expr) :=
  m.stmts.foldl (fun defs s => match s with
    | .assign dst e => defs.setIfInBounds dst.index (some e)
    | _ => defs) (Array.replicate m.locals.size none)

/-- An array of the given dimensions. -/
def allocation (element : String) (dims : List Value) : Expr :=
  let type := String.ofList (List.replicate dims.length '[') ++ element
  match dims with
  | [size] => .newArray type size
  | _ => .newMultiArray type dims

/-- The direct form of a reflective allocation behind the statements `earlier`,
and the locals it read. -/
def directForm? (defs : Array (Option Expr)) (earlier : List Stmt) (s : Stmt) :
    Option (Stmt × List Local) := do
  let .assign dst _ := s | none
  let (type, dims) ← reflectiveArgs? s
  let (element, box) ← elementType? defs type
  let l ← dims.local?
  let .filledArray dimsType sizes ← defs.getD l.index none | none
  if dimsType != "[I" || sizes.isEmpty || !earlier.any (·.def? == some l) then none
  some (.assign dst (allocation element sizes), l :: box.toList)

/-- Replaces the reflective allocations of a block, whose statements so far are
`earlier`, the last first; gives the locals they read. -/
def directForms (defs : Array (Option Expr)) (earlier : List Stmt) :
    List Stmt → List Stmt × List Local
  | [] => (earlier.reverse, [])
  | s :: rest =>
    match directForm? defs earlier s with
    | some (direct, ls) =>
      let (stmts, more) := directForms defs (direct :: earlier) rest
      (stmts, ls ++ more)
    | none => directForms defs (s :: earlier) rest

def foldReflection (m : Method) : Method × Bool :=
  let defs := lastDefs m
  let counts := useCounts m
  let (after, reads) := m.numbered.foldl (fun (m, reads) (b, block) =>
    let (stmts, more) := directForms defs [] block.stmts
    (m.setBlock b { block with stmts }, reads ++ more)) (m, [])
  let dropped := reads.filter fun l => counts.getD l.index 0 == 1
  let keeps (s : Stmt) : Bool := !s.def?.any dropped.contains
  (after.mapBlocks fun _ block => { block with stmts := block.stmts.filter keeps },
    !reads.isEmpty)

def isVoidCall (e : Expr) : Bool := e.callReturn? == some "V"

/-- The call for its effect, then zero for a reader. -/
def splitVoid (counts : Array Nat) : Stmt → List Stmt
  | .assign dst e =>
    if isVoidCall e then
      .effect e :: if 0 < counts.getD dst.index 0 then [.assign dst (.value .zero)] else []
    else [.assign dst e]
  | s => [s]

def definesVoid : Stmt → Bool
  | .assign _ e => isVoidCall e
  | _ => false

def splitVoidCalls (m : Method) : Method × Bool :=
  let counts := useCounts m
  (m.mapBlocks fun _ block => { block with stmts := block.stmts.flatMap (splitVoid counts) },
    m.stmts.any definesVoid)

end Restack.Pass
