/-
# Listing

The text of a method in the intermediate form: a heading, then for each block
of the layout its number, its phis, its statements and its terminator. A
floating point operand is shown as the string of its kind and bit pattern.
-/
import Restack.Ir.Graph
import Restack.Text.Basic

namespace Restack.Ir

open Text

def Local.text (l : Local) : String := "a" ++ toString l.index

def BlockId.text (b : BlockId) : String := "B" ++ toString b.index

def Local.term (l : Local) : String := callTerm "LocalId" [toString l.index]

def BlockId.term (b : BlockId) : String := callTerm "BlockId" [toString b.index]

def floatText (f : Decimal.Format) (kind : String) (digits bits : Nat) : String :=
  kind ++ " " ++ if f.isNaN bits then "NaN" else hex digits bits

def Constant.term : Constant → String
  | .literal bits wide =>
    recordTerm "Literal" [("bits", toString bits.toInt), ("wide", boolTerm wide)]
  | .int v => callTerm "Int" [toString v.toInt]
  | .long v => callTerm "Long" [toString v.toInt]
  | .float bits => callTerm "String" [quoted (floatText .single "float" 8 bits.toNat)]
  | .double bits => callTerm "String" [quoted (floatText .double "double" 16 bits.toNat)]
  | .null => "Null"
  | .string s => callTerm "String" [quoted s]
  | .type d => callTerm "Type" [quoted d]
  | .methodType d => callTerm "MethodType" [quoted d]
  | .methodHandle h => callTerm "MethodHandle" [h.term]

def Value.term : Value → String
  | .var v => callTerm "Local" [v.term]
  | .const c => callTerm "Const" [c.term]

def Value.text : Value → String
  | .var v => v.text
  | .const (.literal bits wide) => toString bits.toInt ++ if wide then "L" else ""
  | .const (.string s) => quoted s
  | .const (.float bits) => quoted (floatText .single "float" 8 bits.toNat)
  | .const (.double bits) => quoted (floatText .double "double" 16 bits.toNat)
  | .const c => c.term

def valuesTerm (vs : List Value) : String := listTerm (vs.map Value.term)

def Expr.term : Expr → String
  | .value v => callTerm "Value" [v.term]
  | .param i => callTerm "Param" [toString i]
  | .caught => "CaughtException"
  | .unary op v => recordTerm "Unary" [("op", op.name), ("value", v.term)]
  | .binary op a b =>
    recordTerm "Binary" [("op", op.name), ("first", a.term), ("second", b.term)]
  | .compare kind a b =>
    recordTerm "Compare" [("kind", kind.name), ("first", a.term), ("second", b.term)]
  | .arrayLength a => callTerm "ArrayLength" [a.term]
  | .arrayLoad op a i =>
    recordTerm "ArrayLoad" [("op", op.name), ("array", a.term), ("index", i.term)]
  | .instanceOf v type => recordTerm "InstanceOf" [("value", v.term), ("class", quoted type)]
  | .checkCast v type => recordTerm "CheckCast" [("value", v.term), ("class", quoted type)]
  | .newInstance type => callTerm "NewInstance" [quoted type]
  | .newArray type size => recordTerm "NewArray" [("class", quoted type), ("size", size.term)]
  | .filledArray type vs =>
    recordTerm "FilledArray" [("class", quoted type), ("elements", valuesTerm vs)]
  | .newMultiArray type vs =>
    recordTerm "NewMultiArray" [("class", quoted type), ("dims", valuesTerm vs)]
  | .getField field o => recordTerm "GetField" [("field", field.term), ("object", o.term)]
  | .getStatic field => recordTerm "GetStatic" [("field", field.term)]
  | .invoke kind method vs =>
    recordTerm "Invoke" [("kind", kind.name), ("method", method.term), ("args", valuesTerm vs)]
  | .invokePolymorphic method proto vs =>
    recordTerm "InvokePolymorphic"
      [("method", method.term), ("proto", quoted proto), ("args", valuesTerm vs)]
  | .invokeCustom site vs =>
    recordTerm "InvokeCustom" [("call_site", site.term), ("args", valuesTerm vs)]
  | .newObject type constructor vs =>
    recordTerm "NewObject"
      [("class", quoted type), ("constructor", constructor.term), ("args", valuesTerm vs)]

def arrayDataTerm (data : Register.ArrayData) : String :=
  recordTerm "ArrayData"
    [("element_width", toString data.width.toNat),
      ("elements", listTerm (data.elements.map fun e => toString e.toInt))]

def Stmt.term : Stmt → String
  | .assign dst e => recordTerm "Assign" [("dst", dst.term), ("expr", e.term)]
  | .effect e => callTerm "Effect" [e.term]
  | .arrayStore op a i v =>
    recordTerm "ArrayStore"
      [("op", op.name), ("array", a.term), ("index", i.term), ("value", v.term)]
  | .putField field o v =>
    recordTerm "PutField" [("field", field.term), ("object", o.term), ("value", v.term)]
  | .putStatic field v => recordTerm "PutStatic" [("field", field.term), ("value", v.term)]
  | .fillArrayData a data =>
    recordTerm "FillArrayData" [("array", a.term), ("data", arrayDataTerm data)]
  | .monitorEnter v => callTerm "MonitorEnter" [v.term]
  | .monitorExit v => callTerm "MonitorExit" [v.term]

def Terminator.term : Terminator → String
  | .goto target => callTerm "Goto" [target.term]
  | .branch test first second yes no =>
    recordTerm "If"
      [("test", test.name), ("first", first.term), ("second", optionTerm (second.map Value.term)),
        ("then", yes.term), ("otherwise", no.term)]
  | .switch v cases default =>
    recordTerm "Switch"
      [("value", v.term), ("cases", listTerm (cases.map fun c => callTerm "" [toString c.1.toInt, c.2.term])),
        ("default", default.term)]
  | .ret v => callTerm "Return" [optionTerm (v.map Value.term)]
  | .throw v => callTerm "Throw" [v.term]

def Phi.text (p : Phi) : String :=
  p.dst.text ++ " = phi(" ++ commas (p.operands.map fun o => o.1.text ++ ": " ++ o.2.text) ++ ")"

def Block.lines (block : Block) : List String :=
  (block.phis.map Phi.text ++ block.stmts.map Stmt.term ++ [block.terminator.term]).map
    ("    " ++ ·)

/-- The lines of a method's listing. Only the names in its heading are written
as they are and can hold line ends. -/
def Method.listing (m : Method) : List String :=
  Text.lines (m.owner ++ "->" ++ m.name ++ m.descriptor ++ "\n") ++ m.layout.flatMap fun b =>
    match m.block? b with
    | some block => (b.text ++ ":") :: block.lines
    | none => []

/-- The type of a local: `?`, a primitive's letter, or `R:` and the descriptor. -/
def Ty.text : Ty → String
  | .unknown => "?"
  | .int => "I"
  | .long => "J"
  | .float => "F"
  | .double => "D"
  | .ref d => "R:" ++ d

end Restack.Ir
