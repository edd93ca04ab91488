/-
# Array literals

An array of constant size that is filled completely becomes one literal, at the
place of the last store. It is filled either by a table of exactly its size or
by stores to the positions 0, 1, … in order, with other statements between them
that do not use the array.
-/
import Restack.Ir.Typing
import Restack.Pass.Construction

namespace Restack.Pass

open Ir

structure SizedArray where
  dst : Local
  type : String
  size : Nat

def sizedArray? : Stmt → Option SizedArray
  | .assign dst (.newArray type (.const c)) =>
    match c.asInt? with
    | some n => if 0 < n then some ⟨dst, type, n.toNatClampNeg⟩ else none
    | none => none
  | _ => none

/-- The element part of an array type: what follows its first byte. -/
def elementPart (type : String) : Except Failure String :=
  match type.toList with
  | c :: rest =>
    if c.toNat < 128 then .ok (String.ofList rest) else fail (.indivisibleArrayType type)
  | [] => fail (.indivisibleArrayType type)

/-- What a statement behind a new array does with it. -/
inductive ArrayUse where
  | table (elements : List Int64)
  /-- Stores at the position that is next. -/
  | store (value : Value)
  | other
  | unrelated

/-- The use of an array of which the first `count` positions are stored. -/
def arrayUse (l : Local) (count : Nat) (s : Stmt) : ArrayUse :=
  match s with
  | .fillArrayData target data =>
    if target.isVar l && count == 0 then .table data.elements
    else if s.uses l then .other else .unrelated
  | .arrayStore _ target (.const index) v =>
    if target.isVar l && !v.isVar l && index.asInt? == some (Int32.ofNat count) then .store v
    else if s.uses l then .other else .unrelated
  | _ => if s.uses l then .other else .unrelated

/-- The statements behind a new array with the literal in place of its last
store and the other stores left out; none unless they fill it. `elements` were
stored so far. -/
def complete (a : SizedArray) (element : String) : List Value → List Stmt → Option (List Stmt)
  | _, [] => none
  | elements, s :: rest =>
    match arrayUse a.dst elements.length s with
    | .table data =>
      if data.length != a.size then none
      else (data.mapM (dataElement? element)).map fun cs =>
        .assign a.dst (.filledArray a.type (cs.map .const)) :: rest
    | .store v =>
      if elements.length + 1 == a.size then
        some (.assign a.dst (.filledArray a.type (elements ++ [v])) :: rest)
      else complete a element (elements ++ [v]) rest
    | .other => none
    | .unrelated => (complete a element elements rest).map (s :: ·)

/-- The literal form of a new array and the statements behind it. -/
def literal? (m : Method) (b : BlockId) (s : Stmt) (rest : List Stmt) :
    Except Failure (Option (List Stmt)) :=
  match sizedArray? s with
  | none => .ok none
  | some a =>
    if usedInHandlers m [b] a.dst then .ok none
    else do .ok (complete a (← elementPart a.type) [] rest)

/-- Turns the first array of a list of statements that is filled into a literal. -/
def fillFirst (m : Method) (b : BlockId) : List Stmt → Except Failure (Option (List Stmt))
  | [] => .ok none
  | s :: rest => do
    match ← literal? m b s rest with
    | some shorter => .ok (some shorter)
    | none => .ok ((← fillFirst m b rest).map (s :: ·))

/-- Repeats in one block; every step removes a statement. -/
def fillBlock (b : BlockId) : Nat → Method × Bool → Except Failure (Method × Bool)
  | 0, state => .ok state
  | fuel + 1, (m, changed) =>
    match m.block? b with
    | none => .ok (m, changed)
    | some block => do
      match ← fillFirst m b block.stmts with
      | some stmts => fillBlock b fuel (m.setBlock b { block with stmts }, true)
      | none => .ok (m, changed)

def fillArrays (m : Method) : Except Failure (Method × Bool) :=
  m.layout.foldlM (fun (m, changed) b =>
    let count := (m.block? b).elim 0 fun block => block.stmts.length
    fillBlock b (count + 1) (m, changed)) (m, false)

end Restack.Pass
