/-
# Register instructions

Instructions in symbolic form: registers are numbers, branch targets are labels
that stand between the instructions, and switch tables and array contents are
carried in place. An instruction knows whether it may throw, whether control can
pass it, where it may branch to and whether a call result may follow it; `text`
is its listing.
-/
import Restack.Register.Operation
import Restack.Register.Value

namespace Restack.Register

open Text

abbrev Reg := Nat

structure Label where
  name : String
deriving DecidableEq

def Label.text (l : Label) : String := ":" ++ l.name

/-- Contents for an array: element width in bytes and the elements, narrow ones
extended to the full width, wide ones as bit patterns. -/
structure ArrayData where
  width : UInt8
  elements : List Int64

inductive Instruction where
  | mark (label : Label)
  | nop
  | move (kind : MoveKind) (dest src : Reg)
  | moveResult (kind : MoveKind) (dest : Reg)
  | moveException (dest : Reg)
  | returnVoid
  | returnValue (kind : MoveKind) (src : Reg)
  | const (dest : Reg) (value : Int32)
  | constWide (dest : Reg) (value : Int64)
  | constString (dest : Reg) (value : String)
  | constClass (dest : Reg) (type : String)
  | constMethodHandle (dest : Reg) (handle : MethodHandle)
  | constMethodType (dest : Reg) (descriptor : String)
  | monitorEnter (src : Reg)
  | monitorExit (src : Reg)
  | checkCast (reg : Reg) (type : String)
  | instanceOf (dest src : Reg) (type : String)
  | arrayLength (dest array : Reg)
  | newInstance (dest : Reg) (type : String)
  | newArray (dest size : Reg) (type : String)
  | filledNewArray (args : List Reg) (type : String)
  | fillArrayData (array : Reg) (data : ArrayData)
  | throw (src : Reg)
  | goto (target : Label)
  | packedSwitch (src : Reg) (firstKey : Int32) (targets : List Label)
  | sparseSwitch (src : Reg) (cases : List (Int32 × Label))
  | compare (kind : Comparison) (dest first second : Reg)
  | branch (test : Test) (first second : Reg) (target : Label)
  | branchZero (test : Test) (src : Reg) (target : Label)
  | array (op : Access) (value array index : Reg)
  | instanceField (op : Access) (value object : Reg) (field : FieldRef)
  | staticField (op : Access) (value : Reg) (field : FieldRef)
  | invoke (kind : InvokeKind) (args : List Reg) (method : MethodRef)
  | invokePolymorphic (args : List Reg) (method : MethodRef) (proto : String)
  | invokeCustom (args : List Reg) (site : CallSite)
  | unary (op : UnaryOp) (dest src : Reg)
  | binary (op : BinaryOp) (dest first second : Reg)
  | binaryLiteral (op : BinaryOp) (dest src : Reg) (literal : Int32) (reverse : Bool)

namespace Instruction

def canThrow : Instruction → Bool
  | constClass .. | monitorEnter .. | monitorExit .. | checkCast .. | instanceOf ..
  | arrayLength .. | newInstance .. | newArray .. | filledNewArray .. | fillArrayData ..
  | throw .. | array .. | instanceField .. | staticField ..
  | invoke .. | invokePolymorphic .. | invokeCustom .. => true
  | binary op .. | binaryLiteral op .. => op.isIntegralDivision
  | _ => false

/-- Whether control never passes to the next instruction. -/
def endsFlow : Instruction → Bool
  | returnVoid | returnValue .. | throw .. | goto .. => true
  | _ => false

/-- Whether the instruction ends a straight line. -/
def isBranch (i : Instruction) : Bool :=
  i.endsFlow || match i with
    | branch .. | branchZero .. | packedSwitch .. | sparseSwitch .. => true
    | _ => false

def targets : Instruction → List Label
  | goto target => [target]
  | branch _ _ _ target => [target]
  | branchZero _ _ target => [target]
  | packedSwitch _ _ targets => targets
  | sparseSwitch _ cases => cases.map (·.2)
  | _ => []

/-- Whether the next instruction may pick up a result. -/
def hasResult : Instruction → Bool
  | invoke .. | invokePolymorphic .. | invokeCustom .. | filledNewArray .. => true
  | _ => false

def regText (r : Reg) : String := "v" ++ toString r

def regList (args : List Reg) : String := "\x7b" ++ commas (args.map regText) ++ "\x7d"

def line (mnemonic : String) (operands : List String) : String :=
  mnemonic ++ " " ++ commas operands

def text : Instruction → String
  | mark label => label.text
  | nop => "nop"
  | move kind dest src => line ("move" ++ kind.suffix) [regText dest, regText src]
  | moveResult kind dest => line ("move-result" ++ kind.suffix) [regText dest]
  | moveException dest => line "move-exception" [regText dest]
  | returnVoid => "return-void"
  | returnValue kind src => line ("return" ++ kind.suffix) [regText src]
  | const dest value => line "const" [regText dest, "#" ++ toString value.toInt]
  | constWide dest value => line "const-wide" [regText dest, "#" ++ toString value.toInt]
  | constString dest value => line "const-string" [regText dest, quoted value]
  | constClass dest type => line "const-class" [regText dest, type]
  | constMethodHandle dest handle => line "const-method-handle" [regText dest, handle.member.text]
  | constMethodType dest descriptor => line "const-method-type" [regText dest, descriptor]
  | monitorEnter src => line "monitor-enter" [regText src]
  | monitorExit src => line "monitor-exit" [regText src]
  | checkCast reg type => line "check-cast" [regText reg, type]
  | instanceOf dest src type => line "instance-of" [regText dest, regText src, type]
  | arrayLength dest source => line "array-length" [regText dest, regText source]
  | newInstance dest type => line "new-instance" [regText dest, type]
  | newArray dest size type => line "new-array" [regText dest, regText size, type]
  | filledNewArray args type => line "filled-new-array" [regList args, type]
  | fillArrayData target data =>
    line "fill-array-data"
      [regText target, toString data.elements.length ++ " x " ++ toString data.width.toNat]
  | throw src => line "throw" [regText src]
  | goto target => line "goto" [target.text]
  | packedSwitch src firstKey targets =>
    line "packed-switch"
      [regText src, toString firstKey.toInt ++ " +" ++ toString targets.length]
  | sparseSwitch src cases =>
    line "sparse-switch" [regText src, toString cases.length ++ " cases"]
  | compare kind dest first second =>
    line kind.mnemonic [regText dest, regText first, regText second]
  | branch test first second target =>
    line ("if-" ++ test.mnemonic) [regText first, regText second, target.text]
  | branchZero test src target => line ("if-" ++ test.mnemonic ++ "z") [regText src, target.text]
  | array op value source index =>
    line ("a" ++ op.name) [regText value, regText source, regText index]
  | instanceField op value object field =>
    line ("i" ++ op.name) [regText value, regText object, field.text]
  | staticField op value field => line ("s" ++ op.name) [regText value, field.text]
  | invoke kind args method => line kind.mnemonic [regList args, method.text]
  | invokePolymorphic args method proto =>
    line "invoke-polymorphic" [regList args, method.text, proto]
  | invokeCustom args site =>
    line "invoke-custom" [regList args, site.name ++ site.descriptor]
  | unary op dest src => line op.name [regText dest, regText src]
  | binary op dest first second => line op.name [regText dest, regText first, regText second]
  | binaryLiteral op dest src literal reverse =>
    line ((if reverse then "R" else "") ++ op.name ++ "/lit")
      [regText dest, regText src, "#" ++ toString literal.toInt]

end Instruction

end Restack.Register
