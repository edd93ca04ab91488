/-
# Stack instructions

Instructions of the stack machine with symbolic labels, and method bodies made
of them. The `push` functions give the shortest instruction that pushes a
constant.
-/
import Restack.Stack.Opcode
import Restack.Stack.Value

namespace Restack.Stack

structure Label where
  number : Nat
deriving DecidableEq

def Label.text (l : Label) : String := "L" ++ toString l.number

inductive Instruction where
  | label (l : Label)
  /-- No operand in the code. -/
  | simple (op : Opcode)
  /-- `bipush`, `sipush`, `newarray`. -/
  | int (op : Opcode) (operand : Int32)
  | var (op : Opcode) (slot : Nat)
  /-- `new`, `anewarray`, `checkcast`, `instanceof` over an internal name. -/
  | type (op : Opcode) (name : String)
  | field (op : Opcode) (owner name descriptor : String)
  | method (op : Opcode) (owner name descriptor : String) (isInterface : Bool)
  | invokeDynamic (name descriptor : String) (bootstrap : Handle) (arguments : List Constant)
  | jump (op : Opcode) (target : Label)
  | ldc (c : Constant)
  | iinc (slot : Nat) (increment : Int16)
  | tableSwitch (min max : Int32) (default : Label) (targets : List Label)
  | lookupSwitch (default : Label) (keys : List Int32) (targets : List Label)
  | multiNewArray (descriptor : String) (dimensions : Nat)

/-- The opcode under which an instruction is encoded; a label has none. -/
def Instruction.opcode? : Instruction → Option Opcode
  | .label _ => none
  | .simple op | .int op _ | .var op _ | .type op _ | .field op _ _ _ | .method op _ _ _ _
  | .jump op _ => some op
  | .invokeDynamic .. => some .invokedynamic
  | .ldc _ => some .ldc
  | .iinc .. => some .iinc
  | .tableSwitch .. => some .tableswitch
  | .lookupSwitch .. => some .lookupswitch
  | .multiNewArray .. => some .multianewarray

/-- An entry of the exception table; an absent class catches everything. -/
structure TryCatch where
  start : Label
  stop : Label
  handler : Label
  catches : Option String

structure Body where
  instructions : List Instruction
  tryCatches : List TryCatch

def Body.empty : Body := ⟨[], []⟩

def Body.opcodes (b : Body) : List Opcode := b.instructions.filterMap Instruction.opcode?

def pushInt (v : Int32) : Instruction :=
  if -1 ≤ v && v ≤ 5 then .simple (.iconst0 + UInt8.ofInt v.toInt)
  else if -128 ≤ v && v ≤ 127 then .int .bipush v
  else if -32768 ≤ v && v ≤ 32767 then .int .sipush v
  else .ldc (.int v)

def pushLong (v : Int64) : Instruction :=
  if v = 0 then .simple .lconst0
  else if v = 1 then .simple .lconst1
  else .ldc (.long v)

/-- Short forms exist for positive zero, one and two only. -/
def pushFloat (bits : UInt32) : Instruction :=
  if bits = 0 then .simple .fconst0
  else if bits = 0x3f800000 then .simple .fconst1
  else if bits = 0x40000000 then .simple .fconst2
  else .ldc (.float bits)

/-- Short forms exist for positive zero and one only. -/
def pushDouble (bits : UInt64) : Instruction :=
  if bits = 0 then .simple .dconst0
  else if bits = 0x3ff0000000000000 then .simple .dconst1
  else .ldc (.double bits)

end Restack.Stack
