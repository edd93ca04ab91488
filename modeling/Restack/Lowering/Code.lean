/-
# Code for statements

The stack code of one statement or terminator, given the slots of the locals
and the labels of the blocks. A statement leaves the stack as it found it; an
operand is always pushed by a single instruction. A copy between locals that
share a slot has no code.
-/
import Restack.Conversion.Constant
import Restack.Lowering.Opcodes
import Restack.Lowering.Slots
import Restack.Text.Basic

namespace Restack.Lowering

open Ir
open Signature (internalName)
open Stack (Instruction Opcode)

/-- What code generation knows of the method: its slots and, at position `i`,
where block number `i` stands in the layout. -/
structure Frame where
  method : Method
  slots : Slots
  positions : Array (Option Nat)

def startLabel (position : Nat) : Stack.Label := ⟨4 * position⟩

def endLabel (position : Nat) : Stack.Label := ⟨4 * position + 1⟩

/-- Where the machine enters a handler, the exception on the stack. -/
def exceptionLabel (position : Nat) : Stack.Label := ⟨4 * position + 2⟩

/-- Where the guarded part of a covered block begins. -/
def throwsLabel (position : Nat) : Stack.Label := ⟨4 * position + 3⟩

namespace Frame

def position? (f : Frame) (b : BlockId) : Option Nat := f.positions.getD b.index none

def target (f : Frame) (b : BlockId) : Except Failure Stack.Label :=
  match f.position? b with
  | some position => .ok (startLabel position)
  | none => fail (.unknownTarget b)

def slot (f : Frame) (l : Local) : Except Failure Nat :=
  match f.slots.of? l with
  | some slot => .ok slot
  | none => fail (.missingSlot l)

end Frame

/-! ## Operands -/

/-- The class object of a type; primitive ones are kept by their box classes. -/
def pushType (descriptor : String) : Instruction :=
  match boxOfPrimitive? descriptor with
  | some owner => .field .getstatic owner "TYPE" "Ljava/lang/Class;"
  | none => .ldc (.type descriptor)

def pushConstant : Constant → Except Failure Instruction
  | .literal bits true | .long bits => .ok (Stack.pushLong bits)
  | .literal bits false => .ok (Stack.pushInt bits.toInt32)
  | .int v => .ok (Stack.pushInt v)
  | .float bits => .ok (Stack.pushFloat bits)
  | .double bits => .ok (Stack.pushDouble bits)
  | .null => .ok (.simple .aconstNull)
  | .string s =>
    let bytes := Text.modifiedLength s
    if bytes > Text.maxConstantLength then fail (.longString bytes) else .ok (.ldc (.string s))
  | .type d => .ok (pushType d)
  | .methodType d => .ok (.ldc (.methodType d))
  | .methodHandle h => .ok (.ldc (.handle h))

def load (f : Frame) : Value → Except Failure Instruction
  | .var l => do .ok (.var (loadOpcode (f.method.localType l)) (← f.slot l))
  | .const c => pushConstant c

def store (f : Frame) (l : Local) : Except Failure Instruction := do
  .ok (.var (storeOpcode (f.method.localType l)) (← f.slot l))

/-- The instructions that push operands, then one that works on them. -/
def applied (f : Frame) (vs : List Value) (i : Instruction) : Except Failure (List Instruction) := do
  .ok ((← vs.mapM (load f)) ++ [i])

/-! ## Expressions -/

def newArray (type : String) : Instruction :=
  let element := stripBracket type
  match elementCode? element with
  | some code => .int .newarray code
  | none => .type .anewarray (internalName element)

def fieldCode (op : Opcode) (field : Register.FieldRef) : Instruction :=
  .field op (internalName field.owner) field.name field.descriptor

def bootstrapArgument (v : Register.Value) : Except Failure Stack.Constant :=
  match Conversion.constant? v with
  | some c => .ok c
  | none => fail (.bootstrapArgument v)

/-- Stores an element at a position of the array on the stack, which stays there. -/
def elementCode (f : Frame) (element : String) (v : Value) (i : Nat) :
    Except Failure (List Instruction) := do
  .ok [.simple .dup, Stack.pushInt (Int32.ofNat i), ← load f v, .simple (elementStore element)]

/-- The code that leaves the value of an expression on the stack. -/
def exprCode (f : Frame) (e : Expr) : Except Failure (List Instruction) :=
  match e with
  | .value v => do .ok [← load f v]
  | .param _ | .caught => fail (.unevaluable e)
  | .unary op v => do .ok ((← load f v) :: unaryCode op)
  | .binary op a b => applied f [a, b] (.simple (binaryOpcode op))
  | .compare kind a b => applied f [a, b] (.simple (comparisonOpcode kind))
  | .arrayLength a => applied f [a] (.simple .arraylength)
  | .arrayLoad op a i => applied f [a, i] (.simple (arrayOpcode op (f.method.valueType a)))
  | .instanceOf v type => applied f [v] (.type .instanceof (internalName type))
  | .checkCast v type => applied f [v] (.type .checkcast (internalName type))
  | .newInstance type => .ok [.type .new (internalName type)]
  | .newArray type size => applied f [size] (newArray type)
  | .filledArray type vs => do
    let stores ← vs.zipIdx.mapM fun (v, i) => elementCode f (stripBracket type) v i
    .ok (Stack.pushInt (Int32.ofNat vs.length) :: newArray type :: stores.flatten)
  | .newMultiArray type dims => do
    let pushes ← dims.mapM (load f)
    if dims.length > 255 then fail (.tooManyDimensions dims.length type)
    .ok (pushes ++ [.multiNewArray type dims.length])
  | .getField field object => applied f [object] (fieldCode .getfield field)
  | .getStatic field => .ok [fieldCode .getstatic field]
  | .invoke kind callee args =>
    applied f args (.method (invokeOpcode kind) (internalName callee.owner) callee.name
      callee.descriptor (kind == .interface))
  | .invokePolymorphic callee proto args =>
    applied f args (.method .invokevirtual (internalName callee.owner) callee.name proto false)
  | .invokeCustom site args => do
    let pushes ← args.mapM (load f)
    let bootstrap ← Conversion.handle site.bootstrap
    let arguments ← site.arguments.mapM bootstrapArgument
    .ok (pushes ++ [.invokeDynamic site.name site.descriptor bootstrap arguments])
  | .newObject type constructor args => do
    let call ← applied f args (.method .invokespecial (internalName constructor.owner)
      constructor.name constructor.descriptor false)
    .ok (.type .new (internalName type) :: .simple .dup :: call)

/-! ## Statements -/

def dropCode : Option Ty → List Instruction
  | some t => [.simple (if t.isWide then .pop2 else .pop)]
  | none => []

def fillCode (f : Frame) (array : Value) (element : String) (bits : Int64) (i : Nat) :
    Except Failure (List Instruction) :=
  match dataElement? element bits with
  | none => fail (.unfillableArray element)
  | some c => do
    let target ← load f array
    .ok [target, Stack.pushInt (Int32.ofNat i), ← pushConstant c, .simple (elementStore element)]

def sharesSlot (f : Frame) (dst src : Local) : Bool :=
  (f.slots.of? dst).isSome && f.slots.of? dst == f.slots.of? src

def assignCode (f : Frame) (dst : Local) (e : Expr) : Except Failure (List Instruction) := do
  let code ← exprCode f e
  .ok (code ++ [← store f dst])

def stmtCode (f : Frame) : Stmt → Except Failure (List Instruction)
  | .assign _ (.param _) => .ok []
  | .assign _ .caught => fail .strayException
  | .assign dst (.value (.var src)) =>
    if sharesSlot f dst src then .ok [] else assignCode f dst (.value (.var src))
  | .assign dst e => assignCode f dst e
  | .effect e => do .ok ((← exprCode f e) ++ dropCode (f.method.exprType? e))
  | .arrayStore op a i v => applied f [a, i, v] (.simple (arrayOpcode op (f.method.valueType a)))
  | .putField field object v => applied f [object, v] (fieldCode .putfield field)
  | .putStatic field v => applied f [v] (fieldCode .putstatic field)
  | .fillArrayData array data => do
    let element := fillElement (f.method.valueType array) data
    .ok (← data.elements.zipIdx.mapM fun (bits, i) => fillCode f array element bits i).flatten
  | .monitorEnter v => applied f [v] (.simple .monitorenter)
  | .monitorExit v => applied f [v] (.simple .monitorexit)

/-! ## Terminators -/

/-- A jump, left out when the target comes next. -/
def jumpCode (f : Frame) (next : Option BlockId) (b : BlockId) : Except Failure (List Instruction) :=
  if some b = next then .ok []
  else do .ok [.jump .goto (← f.target b)]

def firstCases (cases : List (Int32 × BlockId)) : List (Int32 × BlockId) :=
  cases.foldl (fun kept c => if kept.any (·.1 == c.1) then kept else kept ++ [c]) []

def sortedCases (cases : List (Int32 × BlockId)) : List (Int32 × BlockId) :=
  (firstCases cases).mergeSort fun a b => a.1 ≤ b.1

def keysFrom (first : Int32) (count : Nat) : List Int32 :=
  (List.range count).map fun i => first + Int32.ofNat i

/-- A dispatch on the value on the stack: a table when at most about half of it
is unused, a search otherwise. -/
def switchCode (f : Frame) (cases : List (Int32 × BlockId)) (default : BlockId) :
    Except Failure (List Instruction) := do
  let defaultLabel ← f.target default
  let sorted := sortedCases cases
  match sorted.head?, sorted.getLast? with
  | some (min, _), some (max, _) =>
    let span := max.toInt - min.toInt + 1
    if span ≤ 2 * sorted.length + 10 then
      let targets ← (keysFrom min span.toNat).mapM fun key =>
        match sorted.lookup key with
        | some b => f.target b
        | none => .ok defaultLabel
      .ok [.tableSwitch min max defaultLabel targets]
    else
      let targets ← sorted.mapM fun c => f.target c.2
      .ok [.lookupSwitch defaultLabel (sorted.map (·.1)) targets]
  | _, _ => .ok [.simple .pop, .jump .goto defaultLabel]

/-- The code of a terminator; `next` is the block behind it in the layout. -/
def terminatorCode (f : Frame) (next : Option BlockId) : Terminator → Except Failure (List Instruction)
  | .goto b => jumpCode f next b
  | .branch test first second yes no => do
    let operands := first :: second.toList
    let reference := operands.any fun v => (f.method.valueType v).isRef
    let pushes ← operands.mapM (load f)
    let op ← branchOpcode test second.isNone reference
    let taken ← f.target yes
    .ok (pushes ++ .jump op taken :: (← jumpCode f next no))
  | .switch v cases default => do .ok ((← load f v) :: (← switchCode f cases default))
  | .ret none => .ok [.simple .vreturn]
  | .ret (some v) =>
    match f.method.returnTy? with
    | none => fail .voidReturnsValue
    | some t => applied f [v] (.simple (returnOpcode t))
  | .throw v => applied f [v] (.simple .athrow)

end Restack.Lowering
