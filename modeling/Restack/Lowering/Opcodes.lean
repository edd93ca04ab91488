/-
# Opcodes for operations

Which instruction of the stack machine carries out an operation on operands of
known types.
-/
import Restack.Ir.Typing
import Restack.Stack.Instruction

namespace Restack.Lowering

open Ir (Ty arrayElement)
open Register (UnaryOp BinaryOp Comparison Access Test InvokeKind ArrayData)
open Stack (Opcode Instruction)

def loadOpcode : Ty → Opcode
  | .long => .lload
  | .float => .fload
  | .double => .dload
  | .ref _ => .aload
  | .int | .unknown => .iload

def storeOpcode : Ty → Opcode
  | .long => .lstore
  | .float => .fstore
  | .double => .dstore
  | .ref _ => .astore
  | .int | .unknown => .istore

def returnOpcode : Ty → Opcode
  | .long => .lreturn
  | .float => .freturn
  | .double => .dreturn
  | .ref _ => .areturn
  | .int | .unknown => .ireturn

/-- The class whose `TYPE` field holds the class object of a primitive type. -/
def boxOfPrimitive? (descriptor : String) : Option String :=
  [("Z", "java/lang/Boolean"), ("B", "java/lang/Byte"), ("C", "java/lang/Character"),
    ("S", "java/lang/Short"), ("I", "java/lang/Integer"), ("J", "java/lang/Long"),
    ("F", "java/lang/Float"), ("D", "java/lang/Double"), ("V", "java/lang/Void")].lookup descriptor

def unaryCode : UnaryOp → List Instruction
  | .notInt => [.simple .iconstM1, .simple .ixor]
  | .notLong => [Stack.pushLong (-1), .simple .lxor]
  | .negateInt => [.simple .ineg]
  | .negateLong => [.simple .lneg]
  | .negateFloat => [.simple .fneg]
  | .negateDouble => [.simple .dneg]
  | .intToLong => [.simple .i2l]
  | .intToFloat => [.simple .i2f]
  | .intToDouble => [.simple .i2d]
  | .longToInt => [.simple .l2i]
  | .longToFloat => [.simple .l2f]
  | .longToDouble => [.simple .l2d]
  | .floatToInt => [.simple .f2i]
  | .floatToLong => [.simple .f2l]
  | .floatToDouble => [.simple .f2d]
  | .doubleToInt => [.simple .d2i]
  | .doubleToLong => [.simple .d2l]
  | .doubleToFloat => [.simple .d2f]
  | .intToByte => [.simple .i2b]
  | .intToChar => [.simple .i2c]
  | .intToShort => [.simple .i2s]

def binaryOpcode : BinaryOp → Opcode
  | .addInt => .iadd
  | .subInt => .isub
  | .mulInt => .imul
  | .divInt => .idiv
  | .remInt => .irem
  | .andInt => .iand
  | .orInt => .ior
  | .xorInt => .ixor
  | .shlInt => .ishl
  | .shrInt => .ishr
  | .ushrInt => .iushr
  | .addLong => .ladd
  | .subLong => .lsub
  | .mulLong => .lmul
  | .divLong => .ldiv
  | .remLong => .lrem
  | .andLong => .land
  | .orLong => .lor
  | .xorLong => .lxor
  | .shlLong => .lshl
  | .shrLong => .lshr
  | .ushrLong => .lushr
  | .addFloat => .fadd
  | .subFloat => .fsub
  | .mulFloat => .fmul
  | .divFloat => .fdiv
  | .remFloat => .frem
  | .addDouble => .dadd
  | .subDouble => .dsub
  | .mulDouble => .dmul
  | .divDouble => .ddiv
  | .remDouble => .drem

def comparisonOpcode : Comparison → Opcode
  | .lessFloat => .fcmpl
  | .greaterFloat => .fcmpg
  | .lessDouble => .dcmpl
  | .greaterDouble => .dcmpg
  | .long => .lcmp

def arrayOpcode (op : Access) (array : Ty) : Opcode :=
  let element := arrayElement op array
  match op with
  | .get => if element = .float then .faload else .iaload
  | .getWide => if element = .double then .daload else .laload
  | .getObject => .aaload
  | .getBoolean | .getByte => .baload
  | .getChar => .caload
  | .getShort => .saload
  | .put => if element = .float then .fastore else .iastore
  | .putWide => if element = .double then .dastore else .lastore
  | .putObject => .aastore
  | .putBoolean | .putByte => .bastore
  | .putChar => .castore
  | .putShort => .sastore

def elementStore (descriptor : String) : Opcode :=
  ([("I", .iastore), ("J", .lastore), ("F", .fastore), ("D", .dastore), ("Z", .bastore),
    ("B", .bastore), ("C", .castore), ("S", .sastore)].lookup descriptor).getD .aastore

def elementCode? (descriptor : String) : Option Int32 :=
  [("Z", Stack.elementBoolean), ("C", Stack.elementChar), ("F", Stack.elementFloat),
    ("D", Stack.elementDouble), ("B", Stack.elementByte), ("S", Stack.elementShort),
    ("I", Stack.elementInt), ("J", Stack.elementLong)].lookup descriptor

def invokeOpcode : InvokeKind → Opcode
  | .virtual => .invokevirtual
  | .super | .direct => .invokespecial
  | .static => .invokestatic
  | .interface => .invokeinterface

/-- The jump taken when a test holds. References can only be equal or not. -/
def branchOpcode (test : Test) (againstZero reference : Bool) : Except Failure Opcode :=
  match reference, againstZero, test with
  | true, true, .eq => .ok .ifnull
  | true, true, .ne => .ok .ifnonnull
  | true, false, .eq => .ok .ifAcmpeq
  | true, false, .ne => .ok .ifAcmpne
  | true, _, test => fail (.orderedReferences test)
  | false, true, .eq => .ok .ifeq
  | false, true, .ne => .ok .ifne
  | false, true, .lt => .ok .iflt
  | false, true, .ge => .ok .ifge
  | false, true, .gt => .ok .ifgt
  | false, true, .le => .ok .ifle
  | false, false, .eq => .ok .ifIcmpeq
  | false, false, .ne => .ok .ifIcmpne
  | false, false, .lt => .ok .ifIcmplt
  | false, false, .ge => .ok .ifIcmpge
  | false, false, .gt => .ok .ifIcmpgt
  | false, false, .le => .ok .ifIcmple

/-- What follows the bracket of an array descriptor; any other text is kept. -/
def stripBracket (descriptor : String) : String :=
  match descriptor.toList with
  | '[' :: rest => String.ofList rest
  | _ => descriptor

/-- The element descriptor of an array to be filled, from its type or else from
the width of the contents. -/
def fillElement (array : Ty) (data : ArrayData) : String :=
  let byWidth :=
    if data.width = 1 then "B" else if data.width = 2 then "S" else if data.width = 8 then "J" else "I"
  match array with
  | .ref d => match d.toList with
    | '[' :: rest => String.ofList rest
    | _ => byWidth
  | _ => byWidth

end Restack.Lowering
