/-
# From registers to the intermediate form

`lift` reads a body block by block in the order of its outline, giving every
definition a new local. Parameters are defined in the entry block and lie in
the last registers. When all blocks are filled and closed, the remaining phis
are put in front of their blocks and the removed ones are substituted.
-/
import Restack.Access
import Restack.Lifting.Action
import Restack.Lifting.Registers

namespace Restack.Lifting

open Register (Instruction Reg)
open Ir (BlockId Local Stmt Terminator Block Phi)

/-- The state of a lift: register values, the result of the call just read, and
the blocks finished so far. -/
structure Progress where
  registers : Registers
  result : Option Local
  blocks : Array (Option Block)

structure Filling where
  stmts : List Stmt
  terminator : Option Terminator
  /-- A register write left to the landing block. -/
  deferred : Option (Reg × Local)

def Filling.empty : Filling := ⟨[], none, none⟩

/-- Puts statements and endings in front of what follows. -/
def Filling.append (a b : Filling) : Filling :=
  ⟨a.stmts ++ b.stmts, b.terminator <|> a.terminator, b.deferred <|> a.deferred⟩

namespace Progress

def setBlock (p : Progress) (b : BlockId) (block : Block) : Progress :=
  { p with blocks := p.blocks.setIfInBounds b.index (some block) }

/-- Carries an action out in a block. A call keeps its result when `kept`; a
definition is left to the landing block when `deferred`. -/
def act (p : Progress) (b : BlockId) (pos : Nat) (deferred kept : Bool) :
    Action → Except Failure (Filling × Progress)
  | .skip => .ok (.empty, { p with result := none })
  | .define dest expr =>
    let (l, s) := p.registers.freshLocal
    let stmt := Stmt.assign l expr
    if deferred then
      .ok (⟨[stmt], none, some (dest, l)⟩, { p with registers := s, result := none })
    else
      .ok (⟨[stmt], none, none⟩, { p with registers := s.write dest l b, result := none })
  | .call expr =>
    if kept then
      let (l, s) := p.registers.freshLocal
      .ok (⟨[.assign l expr], none, none⟩, { p with registers := s, result := some l })
    else .ok (⟨[.effect expr], none, none⟩, { p with result := none })
  | .takeResult dest =>
    match p.result with
    | some l =>
      .ok (.empty, { p with registers := p.registers.write dest l b, result := none })
    | none => fail (.strayResult pos)
  | .perform stmt => .ok (⟨[stmt], none, none⟩, { p with result := none })
  | .finish t => .ok (⟨[], some t, none⟩, { p with result := none })

end Progress

def takesResult (o : Outline) (pos : Nat) : Bool :=
  match o.instructions[pos]? with
  | some (.moveResult ..) => true
  | _ => false

/-- Reads the instructions of a span that stand from a position on. -/
def fillFrom (o : Outline) (span : Span) :
    Nat → List Instruction → Progress → Except Failure (Filling × Progress)
  | _, [], p => .ok (.empty, p)
  | pos, i :: rest, p => do
    let regs ← operands i
    let (vs, s) := p.registers.readAll o span.id regs
    let deferred := span.landing.isSome && rest.isEmpty
    let (head, p) ← { p with registers := s }.act span.id pos deferred (takesResult o (pos + 1))
      (← action o span.stop i vs)
    let (tail, p) ← fillFrom o span (pos + 1) rest p
    .ok (head.append tail, p)

def Outline.spanInstructions (o : Outline) (span : Span) : List Instruction :=
  (o.instructions.extract span.start span.stop).toList

def fillLanding (order : ClosingOrder) (o : Outline) (span : Span) (deferred : Option (Reg × Local))
    (landing : BlockId) (p : Progress) : Except Failure Progress := do
  let s := p.registers.closeIfReady o landing
  let next ← o.blockAt span.stop
  let s := match deferred with
    | some (r, l) => s.write r l landing
    | none => s
  let p := p.setBlock landing ⟨[], [], .goto next⟩
  .ok { p with registers := s.finishBlock order o landing }

/-- The terminator of a span's block: its own, or a jump to its landing or to
the block behind it. -/
def Outline.ending (o : Outline) (span : Span) : Option Terminator → Except Failure Terminator
  | some t => .ok t
  | none => match span.landing with
    | some landing => .ok (.goto landing)
    | none => do .ok (.goto (← o.blockAt span.stop))

def fillSpan (order : ClosingOrder) (o : Outline) (span : Span) (p : Progress) :
    Except Failure Progress := do
  let p := { p with registers := p.registers.closeIfReady o span.id }
  let (filling, p) ← fillFrom o span span.start (o.spanInstructions span) p
  let terminator ← o.ending span filling.terminator
  let p := p.setBlock span.id ⟨[], filling.stmts, terminator⟩
  let p := { p with registers := p.registers.finishBlock order o span.id }
  match span.landing with
  | some landing => fillLanding order o span filling.deferred landing p
  | none => .ok p

def paramWidth (descriptor : String) : Nat :=
  if descriptor = "J" || descriptor = "D" then 2 else 1

/-- Defines parameters from number `n` on in registers from `r` on. -/
def defineParams : Nat → Reg → List String → Registers → List Stmt × Registers
  | _, _, [], s => ([], s)
  | n, r, d :: rest, s =>
    let (l, s) := s.freshLocal
    let (stmts, s) := defineParams (n + 1) (r + paramWidth d) rest (s.write r l entry)
    (.assign l (.param n) :: stmts, s)

/-- Fills the entry block. A register count has sixteen bits. -/
def fillEntry (order : ClosingOrder) (o : Outline) (params : List String) (available : Nat)
    (p : Progress) : Except Failure Progress := do
  let needed := total (params.map paramWidth)
  if needed > 65535 then fail .parameterOverflow
  if needed > available then fail (.tooManyParameters needed available)
  let s := p.registers.close o entry
  let (stmts, s) := defineParams 0 (available - needed) params s
  let p := p.setBlock entry ⟨[], stmts, .goto o.first⟩
  .ok { p with registers := s.finishBlock order o entry }

/-- Puts the remaining phis, by ascending local, in front of their blocks. -/
def placePhis (s : Registers) (m : Ir.Method) : Ir.Method :=
  s.merges.foldl (fun m (dst, merge) =>
    let phi : Phi := ⟨dst, merge.operands.map fun o => (o.1, s.resolve o.2)⟩
    m.modifyBlock merge.block fun block => { block with phis := block.phis ++ [phi] }) m

/-- Lifts a body; blocks that are ready are closed in the given order. -/
def lift (method : Register.Method) (code : Register.Code) (order : ClosingOrder := .listed) :
    Except Failure Ir.Method := do
  let signature ← Signature.methodDescriptor method.ref.descriptor
  let isStatic := Access.Flags.has method.access Access.staticFlag
  let params := (if isStatic then [] else [method.ref.owner]) ++ signature.args.map (·.text)
  let o ← Outline.ofCode code
  let start : Progress := ⟨.initial o.size, none, Array.replicate o.size none⟩
  let p ← fillEntry order o params code.registers start
  let p ← o.spans.foldlM (fun p span => fillSpan order o span p) p
  let s := o.layout.foldl (fun s b => s.close o b) p.registers
  let m : Ir.Method := {
    owner := method.ref.owner
    name := method.ref.name
    descriptor := method.ref.descriptor
    isStatic
    params := params.toArray
    returnType := signature.result.text
    blocks := p.blocks
    layout := o.layout
    entry := entry
    traps := o.traps
    locals := Array.replicate s.locals .unknown }
  .ok ((placePhis s m).substitute s.replaced)

end Restack.Lifting
