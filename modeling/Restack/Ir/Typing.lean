/-
# Operand and result types

What an expression yields and what each operand of a statement or terminator is
expected to be. Expectations stand in the order of `values`, one for each
operand, and are absent where any type will do.
-/
import Restack.Signature.Descriptor

namespace Restack.Ir

open Register (UnaryOp BinaryOp Comparison Access)

/-- Argument types of a method descriptor, none when it does not parse. -/
def argumentTypes (descriptor : String) : List Ty :=
  match Signature.methodDescriptor descriptor with
  | .ok s => s.args.map fun a => .ofDescriptor a.text
  | .error _ => []

def unaryTypes : UnaryOp → Ty × Ty
  | .negateInt | .notInt | .intToByte | .intToChar | .intToShort => (.int, .int)
  | .negateLong | .notLong => (.long, .long)
  | .negateFloat => (.float, .float)
  | .negateDouble => (.double, .double)
  | .intToLong => (.int, .long)
  | .intToFloat => (.int, .float)
  | .intToDouble => (.int, .double)
  | .longToInt => (.long, .int)
  | .longToFloat => (.long, .float)
  | .longToDouble => (.long, .double)
  | .floatToInt => (.float, .int)
  | .floatToLong => (.float, .long)
  | .floatToDouble => (.float, .double)
  | .doubleToInt => (.double, .int)
  | .doubleToLong => (.double, .long)
  | .doubleToFloat => (.double, .float)

def binaryType : BinaryOp → Ty
  | .addInt | .subInt | .mulInt | .divInt | .remInt | .andInt | .orInt | .xorInt | .shlInt | .shrInt
  | .ushrInt => .int
  | .addLong | .subLong | .mulLong | .divLong | .remLong | .andLong | .orLong | .xorLong | .shlLong
  | .shrLong | .ushrLong => .long
  | .addFloat | .subFloat | .mulFloat | .divFloat | .remFloat => .float
  | .addDouble | .subDouble | .mulDouble | .divDouble | .remDouble => .double

def comparisonType : Comparison → Ty
  | .lessFloat | .greaterFloat => .float
  | .lessDouble | .greaterDouble => .double
  | .long => .long

/-- The element moved by an array access; the type of the array decides where
the operation leaves a choice. -/
def arrayElement (op : Access) (array : Ty) : Ty :=
  match op, array.element? with
  | .getObject, some (.ref d) | .putObject, some (.ref d) => .ref d
  | .getObject, _ | .putObject, _ => .object
  | .getWide, some .double | .putWide, some .double => .double
  | .getWide, _ | .putWide, _ => .long
  | .get, some .float | .put, some .float => .float
  | _, _ => .int

/-- A raw literal has no type of its own. -/
def Constant.ty : Constant → Ty
  | .literal .. => .unknown
  | .int _ => .int
  | .long _ => .long
  | .float _ => .float
  | .double _ => .double
  | .null => .object
  | .string _ => .ref "Ljava/lang/String;"
  | .type _ => .ref "Ljava/lang/Class;"
  | .methodType _ => .ref "Ljava/lang/invoke/MethodType;"
  | .methodHandle _ => .ref "Ljava/lang/invoke/MethodHandle;"

/-- The constant for one element of array contents, absent unless the elements
are primitive. -/
def dataElement? (descriptor : String) (bits : Int64) : Option Constant :=
  match Ty.ofDescriptor descriptor with
  | .int => some (.int bits.toInt32)
  | .long => some (.long bits)
  | .float => some (.float bits.toUInt64.toUInt32)
  | .double => some (.double bits.toUInt64)
  | _ => none

namespace Method

def valueType (m : Method) : Value → Ty
  | .var l => m.localType l
  | .const c => c.ty

/-- The type of an expression, absent for a call without a result. -/
def exprType? (m : Method) : Expr → Option Ty
  | .value v => some (m.valueType v)
  | .param i => some ((m.params[i]?.map Ty.ofDescriptor).getD .unknown)
  | .caught => some .throwable
  | .unary op _ => some (unaryTypes op).2
  | .binary op _ _ => some (binaryType op)
  | .compare .. | .arrayLength _ | .instanceOf .. => some .int
  | .arrayLoad op array _ => some (arrayElement op (m.valueType array))
  | .checkCast _ type | .newInstance type | .newArray type _ | .filledArray type _
  | .newMultiArray type _ | .newObject type _ _ => some (.ref type)
  | .getField field _ | .getStatic field => some (.ofDescriptor field.descriptor)
  | e => match e.callReturn? with
    | some d => if d = "V" then none else some (.ofDescriptor d)
    | none => none

/-- Cuts or extends a list of expectations to a number of operands. -/
def padded (types : List (Option Ty)) (count : Nat) : List (Option Ty) :=
  (types ++ List.replicate count none).take count

def exprExpectations (e : Expr) : List (Option Ty) :=
  let types : List (Option Ty) := match e with
    | .value _ | .param _ | .caught | .newInstance _ | .getStatic _ => []
    | .unary op _ => [some (unaryTypes op).1]
    | .binary op _ _ =>
      [some (binaryType op), some (if op.isShift then .int else binaryType op)]
    | .compare kind _ _ => [some (comparisonType kind), some (comparisonType kind)]
    | .arrayLength _ | .instanceOf .. | .checkCast .. => [some .object]
    | .arrayLoad .. => [some .object, some .int]
    | .newArray .. => [some .int]
    | .filledArray type vs => vs.map fun _ => (Ty.ref type).element?
    | .newMultiArray _ vs => vs.map fun _ => some .int
    | .getField field _ => [some (.ref field.owner)]
    | .invoke kind callee _ =>
      (if kind.hasReceiver then [some (.ref callee.owner)] else []) ++
        (argumentTypes callee.descriptor).map some
    | .invokePolymorphic callee proto _ =>
      some (.ref callee.owner) :: (argumentTypes proto).map some
    | .invokeCustom site _ => (argumentTypes site.descriptor).map some
    | .newObject _ constructor _ => (argumentTypes constructor.descriptor).map some
  padded types e.values.length

def stmtExpectations (m : Method) : Stmt → List (Option Ty)
  | .assign _ e | .effect e => exprExpectations e
  | .arrayStore op array _ _ =>
    [some .object, some .int, some (arrayElement op (m.valueType array))]
  | .putField field _ _ => [some (.ref field.owner), some (.ofDescriptor field.descriptor)]
  | .putStatic field _ => [some (.ofDescriptor field.descriptor)]
  | .fillArrayData .. | .monitorEnter _ | .monitorExit _ => [some .object]

/-- Each operand of a comparison is expected to be what the other is. -/
def terminatorExpectations (m : Method) : Terminator → List (Option Ty)
  | .goto _ | .ret none => []
  | .branch _ first (some second) _ _ =>
    let known (t : Ty) : Option Ty := if t.isKnown then some t else none
    [known (m.valueType second), known (m.valueType first)]
  | .branch _ _ none _ _ => [none]
  | .switch .. => [some .int]
  | .ret (some _) => [m.returnTy?]
  | .throw _ => [some .throwable]

/-- What each definition by a statement yields, in order, where that is known. -/
def defTypes (m : Method) : List (Local × Ty) :=
  m.stmts.filterMap fun
    | .assign dst e => match m.exprType? e with
      | some t => if t.isKnown then some (dst, t) else none
      | none => none
    | _ => none

/-- Operands of statements and terminators with what is expected of them, in
layout order. -/
def typedUses (m : Method) : List (Value × Option Ty) :=
  (m.layout.filterMap m.block?).flatMap fun block =>
    (block.stmts.flatMap fun s => s.values.zip (m.stmtExpectations s)) ++
      block.terminator.values.zip (m.terminatorExpectations block.terminator)

/-- Changes operands of statements and terminators according to what is
expected of them. -/
def mapTypedUses (m : Method) (f : Value → Option Ty → Value) : Method :=
  m.mapBlocks fun _ block =>
    { block with
      stmts := block.stmts.map fun s => s.withValues (s.values.zipWith f (m.stmtExpectations s))
      terminator := block.terminator.withValues
        (block.terminator.values.zipWith f (m.terminatorExpectations block.terminator)) }

def operands (m : Method) : List Value :=
  m.blockList.flatMap fun block =>
    (block.phis.flatMap fun p => p.operands.map (·.2)) ++ block.stmts.flatMap Stmt.values ++
      block.terminator.values

end Method

end Restack.Ir
