/-
# What an instruction becomes

`Does` lists, for every kind of instruction, what it does once its operands have
values; `action_does` reads it off `action`. An instruction throws exactly when the
statement or terminator that it becomes can (`Does.throws_eq`), and the registers that
it then writes itself are known to the outline (`Does.throwingDest`).
-/
import Restack.Lifting.Lift
import Restack.Proofs.Outcome

namespace Restack.Lifting

open Register (Instruction Reg)
open Ir (Value Expr Stmt Terminator)
open List Outcome

/-- Instructions that stand in an outline: all but marks and empty ones. -/
def isProper : Instruction → Bool
  | .mark _ | .nop => false
  | _ => true

/-- What an instruction does with operands of given values. -/
inductive Does (o : Outline) (stop : Nat) : Instruction → List Value → Action → Prop
  | move {kind dest src v} : Does o stop (.move kind dest src) [v] (.define dest (.value v))
  | moveResult {kind dest} : Does o stop (.moveResult kind dest) [] (.takeResult dest)
  | moveException {dest} : Does o stop (.moveException dest) [] (.define dest .caught)
  | returnVoid : Does o stop .returnVoid [] (.finish (.ret none))
  | returnValue {kind src v} : Does o stop (.returnValue kind src) [v] (.finish (.ret (some v)))
  | const {dest value} :
      Does o stop (.const dest value) [] (.define dest (.value (.literal value.toInt64 false)))
  | constWide {dest value} :
      Does o stop (.constWide dest value) [] (.define dest (.value (.literal value true)))
  | constString {dest text} :
      Does o stop (.constString dest text) [] (.define dest (.value (.const (.string text))))
  | constClass {dest type} :
      Does o stop (.constClass dest type) [] (.define dest (.value (.const (.type type))))
  | constMethodHandle {dest handle converted} (converts : Conversion.handle handle = .ok converted) :
      Does o stop (.constMethodHandle dest handle) []
        (.define dest (.value (.const (.methodHandle converted))))
  | constMethodType {dest descriptor} :
      Does o stop (.constMethodType dest descriptor) []
        (.define dest (.value (.const (.methodType descriptor))))
  | monitorEnter {src v} : Does o stop (.monitorEnter src) [v] (.perform (.monitorEnter v))
  | monitorExit {src v} : Does o stop (.monitorExit src) [v] (.perform (.monitorExit v))
  | checkCast {reg type v} :
      Does o stop (.checkCast reg type) [v] (.define reg (.checkCast v type))
  | instanceOf {dest src type v} :
      Does o stop (.instanceOf dest src type) [v] (.define dest (.instanceOf v type))
  | arrayLength {dest src v} :
      Does o stop (.arrayLength dest src) [v] (.define dest (.arrayLength v))
  | newInstance {dest type} :
      Does o stop (.newInstance dest type) [] (.define dest (.newInstance type))
  | newArray {dest size type v} :
      Does o stop (.newArray dest size type) [v] (.define dest (.newArray type v))
  | filledNewArray {args type vs} :
      Does o stop (.filledNewArray args type) vs (.call (.filledArray type vs))
  | fillArrayData {target data v} :
      Does o stop (.fillArrayData target data) [v] (.perform (.fillArrayData v data))
  | throw {src v} : Does o stop (.throw src) [v] (.finish (.throw v))
  | goto {target b} (found : o.blockOf target = .ok b) :
      Does o stop (.goto target) [] (.finish (.goto b))
  | packedSwitch {src first targets v bs next} (found : targets.mapM o.blockOf = .ok bs)
      (default : o.blockAt stop = .ok next) :
      Does o stop (.packedSwitch src first targets) [v]
        (.finish (.switch v (packedKeys first bs) next))
  | sparseSwitch {src cases v bs next}
      (found : (cases.mapM fun c => do .ok (c.1, ← o.blockOf c.2)) = .ok bs)
      (default : o.blockAt stop = .ok next) :
      Does o stop (.sparseSwitch src cases) [v] (.finish (.switch v bs next))
  | compare {kind dest first second a b} :
      Does o stop (.compare kind dest first second) [a, b] (.define dest (.compare kind a b))
  | branch {test first second target a b yes no} (found : o.blockOf target = .ok yes)
      (next : o.blockAt stop = .ok no) :
      Does o stop (.branch test first second target) [a, b] (.finish (.branch test a (some b) yes no))
  | branchZero {test src target a yes no} (found : o.blockOf target = .ok yes)
      (next : o.blockAt stop = .ok no) :
      Does o stop (.branchZero test src target) [a] (.finish (.branch test a none yes no))
  | arrayGet {op value array index a i} (get : op.isGet = true) :
      Does o stop (.array op value array index) [a, i] (.define value (.arrayLoad op a i))
  | arrayPut {op value array index a i v} (put : op.isGet = false) :
      Does o stop (.array op value array index) [a, i, v] (.perform (.arrayStore op a i v))
  | fieldGet {op value object field a} (get : op.isGet = true) :
      Does o stop (.instanceField op value object field) [a] (.define value (.getField field a))
  | fieldPut {op value object field a v} (put : op.isGet = false) :
      Does o stop (.instanceField op value object field) [a, v] (.perform (.putField field a v))
  | staticGet {op value field} (get : op.isGet = true) :
      Does o stop (.staticField op value field) [] (.define value (.getStatic field))
  | staticPut {op value field v} (put : op.isGet = false) :
      Does o stop (.staticField op value field) [v] (.perform (.putStatic field v))
  | invoke {kind args method vs} :
      Does o stop (.invoke kind args method) vs (.call (.invoke kind method vs))
  | invokePolymorphic {args method proto vs} :
      Does o stop (.invokePolymorphic args method proto) vs (.call (.invokePolymorphic method proto vs))
  | invokeCustom {args site vs} :
      Does o stop (.invokeCustom args site) vs (.call (.invokeCustom site vs))
  | unary {op dest src v} : Does o stop (.unary op dest src) [v] (.define dest (.unary op v))
  | binary {op dest first second a b} :
      Does o stop (.binary op dest first second) [a, b] (.define dest (.binary op a b))
  | binaryLiteral {op dest src literal v} :
      Does o stop (.binaryLiteral op dest src literal false) [v]
        (.define dest (.binary op v (.literal literal.toInt64 false)))
  | binaryReversed {op dest src literal v} :
      Does o stop (.binaryLiteral op dest src literal true) [v]
        (.define dest (.binary op (.literal literal.toInt64 false) v))

section Lengths

variable {α : Type} {vs : List α}

lemma length_eq_zero (h : 0 = vs.length) : vs = [] := eq_nil_of_length_eq_zero h.symm

lemma length_eq_one (h : 1 = vs.length) : ∃ a, vs = [a] := length_eq_one_iff.1 h.symm

lemma length_eq_two (h : 2 = vs.length) : ∃ a b, vs = [a, b] := List.length_eq_two.1 h.symm

lemma length_eq_three (h : 3 = vs.length) : ∃ a b c, vs = [a, b, c] := List.length_eq_three.1 h.symm

end Lengths

variable {o : Outline} {stop : Nat} {i : Instruction} {a : Action}

lemma action_does {regs vs} (proper : isProper i = true)
    (read : operands i = .ok regs) (length : regs.length = vs.length)
    (does : action o stop i vs = .ok a) : Does o stop i vs a := by
  cases i with
  | mark => cases proper
  | nop => cases proper
  | filledNewArray | invoke | invokePolymorphic | invokeCustom =>
    cases Except.ok.inj does
    constructor
  | moveResult | moveException | returnVoid | const | constWide | constString | constClass
  | constMethodType | newInstance =>
    cases Except.ok.inj read
    obtain rfl := length_eq_zero length
    cases Except.ok.inj does
    constructor
  | move | returnValue | monitorEnter | monitorExit | checkCast | instanceOf | arrayLength | newArray
  | fillArrayData | throw | unary =>
    cases Except.ok.inj read
    obtain ⟨v, rfl⟩ := length_eq_one length
    cases Except.ok.inj does
    constructor
  | compare | binary =>
    cases Except.ok.inj read
    obtain ⟨a, b, rfl⟩ := length_eq_two length
    cases Except.ok.inj does
    constructor
  | constMethodHandle dest handle =>
    cases Except.ok.inj read
    obtain rfl := length_eq_zero length
    obtain ⟨converted, converts, does⟩ := bind_ok.1 does
    exact Except.ok.inj does ▸ .constMethodHandle converts
  | goto target =>
    cases Except.ok.inj read
    obtain rfl := length_eq_zero length
    obtain ⟨b, found, does⟩ := bind_ok.1 does
    exact Except.ok.inj does ▸ .goto found
  | packedSwitch src first targets =>
    cases Except.ok.inj read
    obtain ⟨v, rfl⟩ := length_eq_one length
    obtain ⟨bs, found, does⟩ := bind_ok.1 does
    obtain ⟨next, default, does⟩ := bind_ok.1 does
    exact Except.ok.inj does ▸ .packedSwitch found default
  | sparseSwitch src cases =>
    cases Except.ok.inj read
    obtain ⟨v, rfl⟩ := length_eq_one length
    obtain ⟨bs, found, does⟩ := bind_ok.1 does
    obtain ⟨next, default, does⟩ := bind_ok.1 does
    exact Except.ok.inj does ▸ .sparseSwitch found default
  | branch test first second target =>
    cases Except.ok.inj read
    obtain ⟨a, b, rfl⟩ := length_eq_two length
    obtain ⟨yes, found, does⟩ := bind_ok.1 does
    obtain ⟨no, next, does⟩ := bind_ok.1 does
    exact Except.ok.inj does ▸ .branch found next
  | branchZero test src target =>
    cases Except.ok.inj read
    obtain ⟨v, rfl⟩ := length_eq_one length
    obtain ⟨yes, found, does⟩ := bind_ok.1 does
    obtain ⟨no, next, does⟩ := bind_ok.1 does
    exact Except.ok.inj does ▸ .branchZero found next
  | array op value array index =>
    rw [operands] at read
    cases get : op.isGet with
    | true =>
      rw [get] at read
      cases Except.ok.inj read
      obtain ⟨a, b, rfl⟩ := length_eq_two length
      exact Except.ok.inj does ▸ .arrayGet get
    | false =>
      rw [get] at read
      cases Except.ok.inj read
      obtain ⟨a, b, c, rfl⟩ := length_eq_three length
      exact Except.ok.inj does ▸ .arrayPut get
  | instanceField op value object field =>
    rw [operands] at read
    cases get : op.isGet with
    | true =>
      rw [get] at read
      cases Except.ok.inj read
      obtain ⟨a, rfl⟩ := length_eq_one length
      exact Except.ok.inj does ▸ .fieldGet get
    | false =>
      rw [get] at read
      cases Except.ok.inj read
      obtain ⟨a, b, rfl⟩ := length_eq_two length
      exact Except.ok.inj does ▸ .fieldPut get
  | staticField op value field =>
    rw [operands] at read
    cases get : op.isGet with
    | true =>
      rw [get] at read
      cases Except.ok.inj read
      obtain rfl := length_eq_zero length
      exact Except.ok.inj does ▸ .staticGet get
    | false =>
      rw [get] at read
      cases Except.ok.inj read
      obtain ⟨a, rfl⟩ := length_eq_one length
      exact Except.ok.inj does ▸ .staticPut get
  | binaryLiteral op dest src literal reverse =>
    cases Except.ok.inj read
    obtain ⟨v, rfl⟩ := length_eq_one length
    cases reverse with
    | false => exact Except.ok.inj does ▸ .binaryLiteral
    | true => exact Except.ok.inj does ▸ .binaryReversed

/-- Applies a function to the operands of what is done. -/
def Action.mapValues (f : Value → Value) : Action → Action
  | .define dest e => .define dest (e.withValues (e.values.map f))
  | .call e => .call (e.withValues (e.values.map f))
  | .perform s => .perform (s.mapValues f)
  | .finish t => .finish (t.mapValues f)
  | a => a

lemma Does.map {vs} (does : Does o stop i vs a) {f}
    (fixes : ∀ c, f (.const c) = .const c) : Does o stop i (vs.map f) (a.mapValues f) := by
  have literal (bits : Int64) (wide : Bool) : f (.literal bits wide) = .literal bits wide := fixes _
  cases does
  all_goals simp only [Action.mapValues, Expr.values, Expr.withValues, Stmt.mapValues, Stmt.values,
    Stmt.withValues, Terminator.mapValues, Terminator.values, Terminator.withValues, map_cons,
    map_nil, Option.toList_some, Option.toList_none, literal, fixes]
  all_goals constructor <;> assumption

/-- Whether what is done can throw. -/
def Action.canThrow : Action → Bool
  | .define _ e | .call e => e.canThrow
  | .perform s => s.canThrow
  | .finish t => t.isThrow
  | .skip | .takeResult _ => false

lemma Does.throws_eq {vs} (does : Does o stop i vs a) : throws i = a.canThrow := by
  cases does <;> simp [throws, Instruction.canThrow, Action.canThrow, Expr.canThrow,
    Stmt.canThrow, Terminator.isThrow]

/-- Whether what is done ends a block. -/
def Action.isFinish : Action → Bool
  | .finish _ => true
  | _ => false

lemma Does.isBranch_eq {vs} (does : Does o stop i vs a) : i.isBranch = a.isFinish := by
  cases does <;> rfl

/-- The register that a throwing instruction itself writes. -/
lemma Does.throwingDest {vs} (does : Does o stop i vs a) (dest : Reg) :
    throwingDest? i = some dest ↔ throws i = true ∧ ∃ e, a = .define dest e := by
  cases does <;> simp_all [throwingDest?, throws, Instruction.canThrow]

end Restack.Lifting
