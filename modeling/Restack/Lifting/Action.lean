/-
# What an instruction does

An instruction reads registers in a fixed order and then does one thing: it
defines a register, calls, takes up the result of a call, performs a statement
or ends its block. `operands` gives the registers and `action` the thing done
once their values are known.
-/
import Restack.Conversion.Constant
import Restack.Lifting.Outline

namespace Restack.Lifting

open Register (Instruction Reg)
open Ir (Value Expr Stmt Terminator)

/-- One register for each argument; a wide one is followed by a register that is passed over. -/
def argumentRegs (descriptor : String) : List Signature.TypeSig → List Reg → Except Failure (List Reg)
  | [], _ => .ok []
  | _ :: _, [] => fail (.missingArguments descriptor)
  | arg :: args, r :: regs => do
    .ok (r :: (← argumentRegs descriptor args (if arg.isWide then regs.drop 1 else regs)))

def callRegs (descriptor : String) (receiver : Bool) (regs : List Reg) :
    Except Failure (List Reg) := do
  let signature ← Signature.methodDescriptor descriptor
  if receiver then
    match regs with
    | [] => fail (.missingReceiver descriptor)
    | r :: rest => .ok (r :: (← argumentRegs descriptor signature.args rest))
  else argumentRegs descriptor signature.args regs

def operands : Instruction → Except Failure (List Reg)
  | .move _ _ src | .returnValue _ src | .monitorEnter src | .monitorExit src
  | .instanceOf _ src _ | .throw src | .packedSwitch src _ _ | .sparseSwitch src _
  | .branchZero _ src _ | .unary _ _ src | .binaryLiteral _ _ src _ _ => .ok [src]
  | .checkCast reg _ => .ok [reg]
  | .arrayLength _ source => .ok [source]
  | .newArray _ size _ => .ok [size]
  | .fillArrayData target _ => .ok [target]
  | .compare _ _ first second | .branch _ first second _ | .binary _ _ first second =>
    .ok [first, second]
  | .filledNewArray args _ => .ok args
  | .array op value source index => .ok (if op.isGet then [source, index] else [source, index, value])
  | .instanceField op value object _ => .ok (if op.isGet then [object] else [object, value])
  | .staticField op value _ => .ok (if op.isGet then [] else [value])
  | .invoke kind args method => callRegs method.descriptor kind.hasReceiver args
  | .invokePolymorphic args _ proto => callRegs proto true args
  | .invokeCustom args site => callRegs site.descriptor false args
  | .mark _ | .nop | .moveResult .. | .moveException _ | .returnVoid | .const .. | .constWide ..
  | .constString .. | .constClass .. | .constMethodHandle .. | .constMethodType ..
  | .newInstance .. | .goto _ => .ok []

inductive Action where
  | skip
  | define (dest : Reg) (expr : Expr)
  | call (expr : Expr)
  | takeResult (dest : Reg)
  | perform (stmt : Stmt)
  | finish (terminator : Terminator)

/-- Keys of a packed switch count up from the first and wrap around. -/
def packedKeys (first : Int32) {α : Type} (targets : List α) : List (Int32 × α) :=
  targets.zipIdx.map fun (t, i) => (first + Int32.ofNat i, t)

/-- What an instruction does with its operands; `stop` is the position control
falls to. -/
def action (o : Outline) (stop : Nat) (i : Instruction) (vs : List Value) : Except Failure Action :=
  match i, vs with
  | .move _ dest _, [v] => .ok (.define dest (.value v))
  | .moveResult _ dest, _ => .ok (.takeResult dest)
  | .moveException dest, _ => .ok (.define dest .caught)
  | .returnVoid, _ => .ok (.finish (.ret none))
  | .returnValue _ _, [v] => .ok (.finish (.ret (some v)))
  | .const dest value, _ => .ok (.define dest (.value (.literal value.toInt64 false)))
  | .constWide dest value, _ => .ok (.define dest (.value (.literal value true)))
  | .constString dest s, _ => .ok (.define dest (.value (.const (.string s))))
  | .constClass dest type, _ => .ok (.define dest (.value (.const (.type type))))
  | .constMethodHandle dest handle, _ => do
    .ok (.define dest (.value (.const (.methodHandle (← Conversion.handle handle)))))
  | .constMethodType dest d, _ => .ok (.define dest (.value (.const (.methodType d))))
  | .monitorEnter _, [v] => .ok (.perform (.monitorEnter v))
  | .monitorExit _, [v] => .ok (.perform (.monitorExit v))
  | .checkCast reg type, [v] => .ok (.define reg (.checkCast v type))
  | .instanceOf dest _ type, [v] => .ok (.define dest (.instanceOf v type))
  | .arrayLength dest _, [v] => .ok (.define dest (.arrayLength v))
  | .newInstance dest type, _ => .ok (.define dest (.newInstance type))
  | .newArray dest _ type, [size] => .ok (.define dest (.newArray type size))
  | .filledNewArray _ type, vs => .ok (.call (.filledArray type vs))
  | .fillArrayData _ data, [v] => .ok (.perform (.fillArrayData v data))
  | .throw _, [v] => .ok (.finish (.throw v))
  | .goto target, _ => do .ok (.finish (.goto (← o.blockOf target)))
  | .packedSwitch _ first targets, [v] => do
    .ok (.finish (.switch v (packedKeys first (← targets.mapM o.blockOf)) (← o.blockAt stop)))
  | .sparseSwitch _ cases, [v] => do
    let targets ← cases.mapM fun c => do .ok (c.1, ← o.blockOf c.2)
    .ok (.finish (.switch v targets (← o.blockAt stop)))
  | .compare kind dest _ _, [a, b] => .ok (.define dest (.compare kind a b))
  | .branch test _ _ target, [a, b] => do
    .ok (.finish (.branch test a (some b) (← o.blockOf target) (← o.blockAt stop)))
  | .branchZero test _ target, [a] => do
    .ok (.finish (.branch test a none (← o.blockOf target) (← o.blockAt stop)))
  | .array op value _ _, [a, i] => .ok (.define value (.arrayLoad op a i))
  | .array op _ _ _, [a, i, v] => .ok (.perform (.arrayStore op a i v))
  | .instanceField _ value _ field, [obj] => .ok (.define value (.getField field obj))
  | .instanceField _ _ _ field, [obj, v] => .ok (.perform (.putField field obj v))
  | .staticField _ value field, [] => .ok (.define value (.getStatic field))
  | .staticField _ _ field, [v] => .ok (.perform (.putStatic field v))
  | .invoke kind _ method, vs => .ok (.call (.invoke kind method vs))
  | .invokePolymorphic _ method proto, vs => .ok (.call (.invokePolymorphic method proto vs))
  | .invokeCustom _ site, vs => .ok (.call (.invokeCustom site vs))
  | .unary op dest _, [v] => .ok (.define dest (.unary op v))
  | .binary op dest _ _, [a, b] => .ok (.define dest (.binary op a b))
  | .binaryLiteral op dest _ literal reverse, [v] =>
    let c := Value.literal literal.toInt64 false
    .ok (.define dest (if reverse then .binary op c v else .binary op v c))
  | _, _ => .ok .skip

end Restack.Lifting
