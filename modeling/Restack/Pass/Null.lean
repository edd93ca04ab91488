/-
# Null references

A zero literal becomes null where a reference is expected, where it is compared
with a reference, and where a phi merges it with one. After that, a block not
guarded by a trap that reads or calls through a constant null is cut there and
throws the exception that the access would raise.
-/
import Restack.Ir.Typing

namespace Restack.Pass

open Ir

def isZeroLiteral : Value → Bool
  | .const (.literal bits _) => bits == 0
  | _ => false

def nullIfZero (v : Value) : Value := if isZeroLiteral v then .const .null else v

def isReference (defs : Array (Option Ty)) : Value → Bool
  | .var l => (defs.getD l.index none).any Ty.isRef
  | .const c => c.ty.isRef

def Phi.withNulls (isRef : Value → Bool) (p : Phi) : Phi :=
  if p.operands.any fun o => isRef o.2 then p.mapValues nullIfZero else p

def Terminator.withNulls (isRef : Value → Bool) : Terminator → Terminator
  | .branch test first (some second) yes no =>
    if isRef first && isZeroLiteral second then .branch test first (some (.const .null)) yes no
    else if isRef second && isZeroLiteral first then .branch test (.const .null) (some second) yes no
    else .branch test first (some second) yes no
  | t => t

/-- The type of the last definition of local number `i`, at position `i`. -/
def definedTypes (m : Method) : Array (Option Ty) :=
  m.defTypes.foldl (fun types (l, t) => types.setIfInBounds l.index (some t))
    (Array.replicate m.locals.size none)

def placeNulls (m : Method) : Method × Bool :=
  let typed := m.mapTypedUses fun v expected => if expected.any Ty.isRef then nullIfZero v else v
  let isRef := isReference (definedTypes typed)
  let after := typed.mapBlocks fun _ block => { block with
    phis := block.phis.map (Phi.withNulls isRef)
    terminator := Terminator.withNulls isRef block.terminator }
  (after, after.operands != m.operands)

/-- The operand that a statement reads or calls through. -/
def dereferenced? : Stmt → Option Value
  | .assign _ e | .effect e => match e with
    | .getField _ object => some object
    | .arrayLength array | .arrayLoad _ array _ => some array
    | .invoke kind _ args => if kind.hasReceiver then args.head? else none
    | .invokePolymorphic _ _ args => args.head?
    | _ => none
  | .arrayStore _ array _ _ | .fillArrayData array _ => some array
  | .monitorEnter object | .monitorExit object => some object
  | .putField _ object _ => some object
  | .putStatic .. => none

def throughNull (s : Stmt) : Bool :=
  match dereferenced? s with
  | some (.const c) => c.isZero
  | _ => false

def nullPointerException : String := "Ljava/lang/NullPointerException;"

def newNullPointerException : Expr :=
  .newObject nullPointerException ⟨nullPointerException, "<init>", "()V"⟩ []

/-- Cuts a block at its first access through null. -/
def cutAtNull (m : Method) (b : BlockId) : Method × Bool :=
  match m.block? b with
  | none => (m, false)
  | some block =>
    if m.isCovered b || !block.stmts.any throughNull then (m, false)
    else
      let (l, m) := m.freshLocal
      let stmts := block.stmts.takeWhile (!throughNull ·) ++ [.assign l newNullPointerException]
      (m.setBlock b { block with stmts, terminator := .throw (.var l) }, true)

def throwOnNull (m : Method) : Method × Bool :=
  let (cut, changed) := m.layout.foldl (fun (m, changed) b =>
    let (m, here) := cutAtNull m b
    (m, changed || here)) (m, false)
  if changed then (cut.removeUnreachable.1.pruneEdges, true) else (cut, false)

end Restack.Pass
