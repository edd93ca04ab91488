/-
# The intermediate form

A method body as a graph of blocks. A block holds phis, statements and one
terminator; operands are locals or constants. A trap names the blocks that may
throw into an ordered list of handlers. The layout lists the blocks in the order
in which code is emitted.
-/
import Restack.Register.Instruction
import Restack.Stack.Value

namespace Restack.Ir

open Register (FieldRef MethodRef CallSite ArrayData Access Comparison Test InvokeKind UnaryOp BinaryOp)

structure Local where
  index : Nat
deriving DecidableEq

structure BlockId where
  index : Nat
deriving DecidableEq

inductive Constant where
  /-- Raw register bits whose type only the uses tell. -/
  | literal (bits : Int64) (wide : Bool)
  | int (v : Int32)
  | long (v : Int64)
  | float (bits : UInt32)
  | double (bits : UInt64)
  | null
  | string (s : String)
  | type (descriptor : String)
  | methodType (descriptor : String)
  | methodHandle (handle : Stack.Handle)
deriving DecidableEq

inductive Value where
  | var (v : Local)
  | const (c : Constant)
deriving DecidableEq

inductive Expr where
  | value (v : Value)
  /-- Incoming argument, the receiver first. -/
  | param (index : Nat)
  /-- The exception object at the entry of a handler. -/
  | caught
  | unary (op : UnaryOp) (v : Value)
  | binary (op : BinaryOp) (first second : Value)
  | compare (kind : Comparison) (first second : Value)
  | arrayLength (array : Value)
  | arrayLoad (op : Access) (array index : Value)
  | instanceOf (v : Value) (type : String)
  | checkCast (v : Value) (type : String)
  /-- Allocation without the constructor call. -/
  | newInstance (type : String)
  | newArray (type : String) (size : Value)
  | filledArray (type : String) (elements : List Value)
  | newMultiArray (type : String) (dims : List Value)
  | getField (field : FieldRef) (object : Value)
  | getStatic (field : FieldRef)
  | invoke (kind : InvokeKind) (method : MethodRef) (args : List Value)
  | invokePolymorphic (method : MethodRef) (proto : String) (args : List Value)
  | invokeCustom (site : CallSite) (args : List Value)
  /-- Allocation and constructor call in one. -/
  | newObject (type : String) (constructor : MethodRef) (args : List Value)

inductive Stmt where
  | assign (dst : Local) (expr : Expr)
  /-- Evaluated for its effect, the result is dropped. -/
  | effect (expr : Expr)
  | arrayStore (op : Access) (array index value : Value)
  | putField (field : FieldRef) (object value : Value)
  | putStatic (field : FieldRef) (value : Value)
  | fillArrayData (array : Value) (data : ArrayData)
  | monitorEnter (object : Value)
  | monitorExit (object : Value)

inductive Terminator where
  | goto (target : BlockId)
  /-- An absent second operand is zero or null. -/
  | branch (test : Test) (first : Value) (second : Option Value) (yes no : BlockId)
  | switch (value : Value) (cases : List (Int32 × BlockId)) (default : BlockId)
  | ret (value : Option Value)
  | throw (value : Value)

structure Phi where
  dst : Local
  /-- One operand per predecessor. -/
  operands : List (BlockId × Value)

structure Block where
  phis : List Phi
  stmts : List Stmt
  terminator : Terminator

/-- A caught class, or any when absent, and the block that receives it. -/
structure Handler where
  catches : Option String
  target : BlockId

structure Trap where
  covered : List BlockId
  handlers : List Handler

inductive Ty where
  | unknown
  | int
  | long
  | float
  | double
  | ref (descriptor : String)
deriving DecidableEq

structure Method where
  owner : String
  name : String
  descriptor : String
  isStatic : Bool
  /-- Parameter descriptors, the receiver first. -/
  params : Array String
  returnType : String
  /-- Block number `i` stands at position `i`; a removed block leaves a gap. -/
  blocks : Array (Option Block)
  layout : List BlockId
  entry : BlockId
  traps : List Trap
  /-- Type of local number `i` at position `i`. -/
  locals : Array Ty

/-! ## Constants and values -/

def Constant.isZero : Constant → Bool
  | .literal bits _ => bits == 0
  | .null => true
  | _ => false

def Constant.asInt? : Constant → Option Int32
  | .literal bits false => some bits.toInt32
  | .int v => some v
  | _ => none

/-- Whether two constants are the same operand; floating point numbers compare
by value, so a pattern that is not a number agrees with nothing. -/
def Constant.agrees : Constant → Constant → Bool
  | .float a, .float b => Decimal.Format.single.same a.toNat b.toNat
  | .double a, .double b => Decimal.Format.double.same a.toNat b.toNat
  | a, b => a == b

def Value.agrees : Value → Value → Bool
  | .const a, .const b => a.agrees b
  | a, b => a == b

def Value.local? : Value → Option Local
  | .var v => some v
  | .const _ => none

def Value.isVar (v : Value) (l : Local) : Bool := v.local? == some l

def Value.literal (bits : Int64) (wide : Bool) : Value := .const (.literal bits wide)

/-- What a register holds that was never written. -/
def Value.zero : Value := .literal 0 false

/-! ## Operands in evaluation order -/

def Expr.values : Expr → List Value
  | .value v | .unary _ v | .arrayLength v | .instanceOf v _ | .checkCast v _ | .newArray _ v
  | .getField _ v => [v]
  | .binary _ a b | .compare _ a b | .arrayLoad _ a b => [a, b]
  | .filledArray _ vs | .newMultiArray _ vs | .invoke _ _ vs | .invokePolymorphic _ _ vs
  | .invokeCustom _ vs | .newObject _ _ vs => vs
  | .param _ | .caught | .newInstance _ | .getStatic _ => []

/-- Replaces the operands, in order, by those of a list of the same length. -/
def Expr.withValues (e : Expr) (vs : List Value) : Expr :=
  match e, vs with
  | .value _, [v] => .value v
  | .unary op _, [v] => .unary op v
  | .binary op _ _, [a, b] => .binary op a b
  | .compare kind _ _, [a, b] => .compare kind a b
  | .arrayLength _, [v] => .arrayLength v
  | .arrayLoad op _ _, [a, i] => .arrayLoad op a i
  | .instanceOf _ type, [v] => .instanceOf v type
  | .checkCast _ type, [v] => .checkCast v type
  | .newArray type _, [v] => .newArray type v
  | .filledArray type _, vs => .filledArray type vs
  | .newMultiArray type _, vs => .newMultiArray type vs
  | .getField field _, [v] => .getField field v
  | .invoke kind method _, vs => .invoke kind method vs
  | .invokePolymorphic method proto _, vs => .invokePolymorphic method proto vs
  | .invokeCustom site _, vs => .invokeCustom site vs
  | .newObject type constructor _, vs => .newObject type constructor vs
  | e, _ => e

def Stmt.values : Stmt → List Value
  | .assign _ e | .effect e => e.values
  | .arrayStore _ a i v => [a, i, v]
  | .putField _ o v => [o, v]
  | .putStatic _ v => [v]
  | .fillArrayData a _ => [a]
  | .monitorEnter v | .monitorExit v => [v]

def Stmt.withValues (s : Stmt) (vs : List Value) : Stmt :=
  match s, vs with
  | .assign dst e, vs => .assign dst (e.withValues vs)
  | .effect e, vs => .effect (e.withValues vs)
  | .arrayStore op _ _ _, [a, i, v] => .arrayStore op a i v
  | .putField field _ _, [o, v] => .putField field o v
  | .putStatic field _, [v] => .putStatic field v
  | .fillArrayData _ data, [a] => .fillArrayData a data
  | .monitorEnter _, [v] => .monitorEnter v
  | .monitorExit _, [v] => .monitorExit v
  | s, _ => s

def Terminator.values : Terminator → List Value
  | .goto _ | .ret none => []
  | .branch _ first second _ _ => first :: second.toList
  | .switch v _ _ | .ret (some v) | .throw v => [v]

def Terminator.withValues (t : Terminator) (vs : List Value) : Terminator :=
  match t, vs with
  | .branch test _ (some _) yes no, [a, b] => .branch test a (some b) yes no
  | .branch test _ none yes no, [a] => .branch test a none yes no
  | .switch _ cases default, [v] => .switch v cases default
  | .ret (some _), [v] => .ret (some v)
  | .throw _, [v] => .throw v
  | t, _ => t

def Stmt.mapValues (f : Value → Value) (s : Stmt) : Stmt := s.withValues (s.values.map f)

def Terminator.mapValues (f : Value → Value) (t : Terminator) : Terminator :=
  t.withValues (t.values.map f)

def Phi.mapValues (f : Value → Value) (p : Phi) : Phi :=
  { p with operands := p.operands.map fun o => (o.1, f o.2) }

def Block.mapValues (f : Value → Value) (b : Block) : Block where
  phis := b.phis.map (Phi.mapValues f)
  stmts := b.stmts.map (Stmt.mapValues f)
  terminator := b.terminator.mapValues f

def localsOf (vs : List Value) : List Local := vs.filterMap Value.local?

/-! ## Effects -/

/-- Neither effect nor exception: droppable when unread. -/
def Expr.isPure : Expr → Bool
  | .value _ | .param _ | .caught | .unary .. | .compare .. | .instanceOf .. => true
  | .binary op _ _ => !op.isIntegralDivision
  | _ => false

def Expr.canThrow : Expr → Bool
  | .value _ | .param _ | .caught | .unary .. | .compare .. | .instanceOf .. => false
  | .binary op _ _ => op.isIntegralDivision
  | _ => true

/-- What follows the last closing parenthesis. -/
def returnDescriptor (descriptor : String) : String :=
  String.ofList (descriptor.toList.reverse.takeWhile (· != ')')).reverse

def Expr.callReturn? : Expr → Option String
  | .invoke _ method _ => some (returnDescriptor method.descriptor)
  | .invokePolymorphic _ proto _ => some (returnDescriptor proto)
  | .invokeCustom site _ => some (returnDescriptor site.descriptor)
  | _ => none

def Stmt.def? : Stmt → Option Local
  | .assign dst _ => some dst
  | _ => none

def Stmt.canThrow : Stmt → Bool
  | .assign _ e | .effect e => e.canThrow
  | _ => true

def Stmt.uses (s : Stmt) (l : Local) : Bool := s.values.any (·.isVar l)

def Terminator.uses (t : Terminator) (l : Local) : Bool := t.values.any (·.isVar l)

def Phi.uses (p : Phi) (l : Local) : Bool := p.operands.any fun o => o.2.isVar l

def Terminator.isThrow : Terminator → Bool
  | .throw _ => true
  | _ => false

def Block.canThrow (b : Block) : Bool := b.stmts.any Stmt.canThrow || b.terminator.isThrow

/-! ## Edges -/

/-- Targets in order, each once. -/
def Terminator.successors : Terminator → List BlockId
  | .goto target => [target]
  | .branch _ _ _ yes no => [yes, no].eraseDups
  | .switch _ cases default => (cases.map (·.2) ++ [default]).eraseDups
  | .ret _ | .throw _ => []

def Terminator.retarget (t : Terminator) (old new : BlockId) : Terminator :=
  let move (b : BlockId) : BlockId := if b = old then new else b
  match t with
  | .goto target => .goto (move target)
  | .branch test first second yes no => .branch test first second (move yes) (move no)
  | .switch v cases default => .switch v (cases.map fun c => (c.1, move c.2)) (move default)
  | t => t

/-- The target of a block that does nothing but jump. -/
def Block.emptyGoto? : Block → Option BlockId
  | ⟨[], [], .goto target⟩ => some target
  | _ => none

/-! ## Types -/

namespace Ty

def object : Ty := .ref "Ljava/lang/Object;"

def throwable : Ty := .ref "Ljava/lang/Throwable;"

def ofDescriptor (d : String) : Ty :=
  if ["I", "Z", "B", "C", "S"].contains d then .int
  else if d = "J" then .long
  else if d = "F" then .float
  else if d = "D" then .double
  else .ref d

def isWide : Ty → Bool
  | .long | .double => true
  | _ => false

def isRef : Ty → Bool
  | .ref _ => true
  | _ => false

def isKnown : Ty → Bool
  | .unknown => false
  | _ => true

def width (t : Ty) : Nat := if t.isWide then 2 else 1

def element? : Ty → Option Ty
  | .ref d => match d.toList with
    | '[' :: rest => some (ofDescriptor (String.ofList rest))
    | _ => none
  | _ => none

end Ty

end Restack.Ir
