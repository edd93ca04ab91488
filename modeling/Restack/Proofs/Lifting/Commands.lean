/-
# What the commands of instructions become

The register machine finds labels, the registers of a call, the target of a switch
and the clauses around a position by itself. `Means` says which action carries out a
command when registers have given values, and `Does.means` that every instruction has
a command and becomes what it means.
-/
import Restack.Proofs.Lifting.Rendering
import Restack.Proofs.Register.Run

namespace Restack.Lifting

open Register (Instruction Label Reg Code Operand Jump Command positionIn)
open Ir (BlockId Value Expr Stmt Terminator World)
open List Lookup
open Outcome

/-! ## Positions -/

lemma separate_steps (is : List Instruction) (pos : Nat) : (separate is pos).1 = is.filter (·.takesRoom) := by
  fun_induction separate is pos with
  | case1 => rfl
  | case2 mark rest pos kept labels eq ih =>
    rw [eq] at ih
    exact ih
  | case3 rest pos ih => exact ih
  | case4 i rest pos notMark notNop kept labels eq ih =>
    rw [eq] at ih
    have room : i.takesRoom = true := by cases i <;> simp_all [Instruction.takesRoom]
    rw [filter_cons_of_pos room]
    exact congrArg _ ih

lemma separate_position (is : List Instruction) (pos : Nat) (label : Label) :
    (separate is pos).2.lookup label = (positionIn label is).map (pos + ·) := by
  fun_induction separate is pos with
  | case1 => rfl
  | case2 mark rest pos kept labels eq ih =>
    rw [eq] at ih
    rw [lookup_append, ih, positionIn]
    cases positionIn label rest with
    | some p => simp [Instruction.takesRoom]
    | none =>
      by_cases same : label = mark
      · simp [Instruction.marks, same]
      · simp [Instruction.marks, Ne.symm same, lookup_cons_ne same]
  | case3 rest pos ih =>
    rw [ih, positionIn]
    cases positionIn label rest <;> simp [Instruction.takesRoom, Instruction.marks]
  | case4 i rest pos notMark notNop kept labels eq ih =>
    rw [eq] at ih
    rw [ih, positionIn]
    have room : i.takesRoom = true := by cases i <;> simp_all [Instruction.takesRoom]
    have bare : i.marks label = false := by cases i <;> simp_all [Instruction.marks]
    cases positionIn label rest with
    | some p => simp [room, Nat.add_comm, Nat.add_left_comm]
    | none => simp [bare]

section Drawn

variable {code : Code} {o : Outline} {ranges : List (Nat × Nat)} {starts : List Nat}
  (drawn : Drawn code o ranges starts)

include drawn

lemma Drawn.steps (pos : Nat) : code.steps[pos]? = o.instructions[pos]? := by
  rw [Code.steps, ← separate_steps code.instructions 0, drawn.separated, Array.getElem?_toList]

lemma Drawn.position?_eq (label : Label) : code.position? label = o.labels.lookup label := by
  have found := separate_position code.instructions 0 label
  rw [drawn.separated] at found
  simpa [Code.position?] using found.symm

lemma Drawn.position_ok {label pos} :
    position o.labels label = .ok pos ↔ code.position? label = some pos := by
  rw [drawn.position?_eq, position]
  cases o.labels.lookup label <;> simp

lemma Drawn.guards_eq {t range}
    (bounds : rangeOf o.labels t = .ok range) (pos : Nat) : code.guards pos t = inRange range pos := by
  obtain ⟨first, found, bounds⟩ := bind_ok.1 bounds
  obtain ⟨stop, found', bounds⟩ := bind_ok.1 bounds
  cases bounds
  rw [Code.guards, drawn.position_ok.1 found, drawn.position_ok.1 found']
  rfl

lemma Drawn.clausesAt_eq (pos : Nat) : code.clausesAt pos =
    ((code.tries.zip ranges).filter fun t => inRange t.2 pos).flatMap (·.1.clauses) := by
  have guarded := drawn.guards
  have same {t : Register.TryRange} {range : Nat × Nat} (bounds : rangeOf o.labels t = .ok range) :
      code.guards pos t = inRange range pos := drawn.guards_eq bounds pos
  clear drawn
  rw [Code.clausesAt]
  generalize code.tries = tries at guarded
  induction guarded with
  | nil => rfl
  | @cons t range ts rs bounds _ ih =>
    rw [zip_cons_cons, filter_cons, filter_cons, same bounds]
    split
    · rw [flatMap_cons, flatMap_cons, ih]
    · exact ih

end Drawn

/-! ## Registers of calls and targets of switches -/

lemma argumentRegs_ok {descriptor} {args : List Signature.TypeSig} {regs heads : List Reg}
    (made : argumentRegs descriptor args regs = .ok heads) :
    Instruction.heads (args.map (·.isWide)) regs = some heads := by
  induction args generalizing regs heads with
  | nil =>
    cases made
    rfl
  | cons arg args ih =>
    cases regs with
    | nil => simp [argumentRegs] at made
    | cons r regs =>
      obtain ⟨rest, made', same⟩ := bind_ok.1 made
      cases same
      simp only [map_cons, Instruction.heads, ih made', Option.map_some]

lemma callRegs_ok {descriptor receiver regs heads} (made : callRegs descriptor receiver regs = .ok heads) :
    Instruction.passed? descriptor receiver regs = some heads := by
  obtain ⟨signature, parsed, made⟩ := bind_ok.1 made
  simp only [Instruction.passed?, parsed]
  cases receiver with
  | false => exact argumentRegs_ok made
  | true =>
    cases regs with
    | nil => simp at made
    | cons r regs =>
      obtain ⟨rest, made', same⟩ := bind_ok.1 made
      cases same
      simp [Instruction.heads, argumentRegs_ok made']

lemma offset_succ {key first} {k : Nat} (other : key ≠ first + Int32.ofNat k) :
    (key - (first + Int32.ofNat k)).toUInt32.toNat =
      (key - (first + Int32.ofNat (k + 1))).toUInt32.toNat + 1 := by
  have differ : key.toBitVec ≠ first.toBitVec + BitVec.ofNat 32 k :=
    fun same => other (Int32.toBitVec_inj.1 same)
  change (key.toBitVec - (first.toBitVec + BitVec.ofNat 32 k)).toNat =
    (key.toBitVec - (first.toBitVec + BitVec.ofNat 32 (k + 1))).toNat + 1
  bv_omega

lemma lookup_packed {α : Type} (first key : Int32) (targets : List α) (k : Nat) :
    ((targets.zipIdx k).map fun (t, i) => (first + Int32.ofNat i, t)).lookup key =
      targets[(key - (first + Int32.ofNat k)).toUInt32.toNat]? := by
  induction targets generalizing k with
  | nil => rfl
  | cons t rest ih =>
    rw [zipIdx_cons, map_cons]
    by_cases same : key = first + Int32.ofNat k
    · subst same
      rw [lookup_cons_self, Int32.sub_self]
      rfl
    · rw [lookup_cons_ne same, ih, offset_succ same, getElem?_cons_succ]

lemma lookup_packedKeys {α} (first key : Int32) (targets : List α) :
    (packedKeys first targets).lookup key = targets[(key - first).toUInt32.toNat]? := by
  have found := lookup_packed first key targets 0
  rw [show first + Int32.ofNat 0 = first from Int32.add_zero first] at found
  exact found

lemma forall₂_getElem? {α β : Type} {R} {xs : List α} {ys : List β}
    (all : List.Forall₂ R xs ys) (n : Nat) : Option.Rel R xs[n]? ys[n]? := by
  induction all generalizing n with
  | nil => exact .none
  | cons first _ ih =>
    cases n with
    | zero => exact .some first
    | succ n => exact ih n

lemma forall₂_lookup {κ α β : Type} [DecidableEq κ] {R} {xs : List (κ × α)}
    {ys : List (κ × β)} (all : List.Forall₂ (fun x y => y.1 = x.1 ∧ R x.2 y.2) xs ys) (key : κ) :
    Option.Rel R (xs.lookup key) (ys.lookup key) := by
  induction all with
  | nil => exact .none
  | @cons x y xs ys first _ ih =>
    obtain ⟨k, a⟩ := x
    obtain ⟨k', b⟩ := y
    obtain ⟨same, related⟩ := first
    subst same
    by_cases here : key = k'
    · subst here
      rw [lookup_cons_self, lookup_cons_self]
      exact .some related
    · rw [lookup_cons_ne here, lookup_cons_ne here]
      exact ih

/-! ## Commands and actions -/

section Means

variable (o : Outline) (stop : Nat) (values : Reg → Option Value)

/-- What an operand of a command is, when registers have given values. -/
inductive Stands : Operand → Value → Prop
  | reg {r v} (held : values r = some v) : Stands (.reg r) v
  | constant {c} : Stands (.constant c) (.const c)

/-- The terminator that carries out a jump. -/
inductive Leads : Jump → Terminator → Prop
  | leave : Leads (.ret none) (.ret none)
  | ret {src v} (held : values src = some v) : Leads (.ret (some src)) (.ret (some v))
  | raise {src v} (held : values src = some v) : Leads (.raise src) (.throw v)
  | goto {target b} (found : o.blockOf target = .ok b) :
      Leads (.goto target) (.goto b)
  | branch {test first second target a b yes no} (held : values first = some a)
      (other : Option.Rel (fun r v => values r = some v) second b)
      (found : o.blockOf target = .ok yes) (next : o.blockAt stop = .ok no) :
      Leads (.branch test first second target) (.branch test a b yes no)
  | switch {src} {target?} {v cases default} (held : values src = some v)
      (found : ∀ key, Option.Rel (fun l b => o.blockOf l = .ok b) (target? key) (cases.lookup key))
      (next : o.blockAt stop = .ok default) : Leads (.switch src target?) (.switch v cases default)

end Means

/-- Expressions that compute their value from operands. -/
def isOperator : Expr → Bool
  | .value _ | .param _ | .caught => false
  | _ => true

lemma pureValue_operator {V} {w : World V} {st e} (operator : isOperator e = true) :
    w.pureValue st e = w.compute e.shape (e.values.map (w.value st.env)) := by
  cases e <;> first | rfl | cases operator

/-- The action that carries out a command. -/
inductive Means (o : Outline) (stop : Nat) (values : Reg → Option Value) : Command → Action → Prop
  | copy {dest wide src v} (stands : Stands values src v) :
      Means o stop values (.copy dest wide src) (.define dest (.value v))
  | takeCaught {dest} : Means o stop values (.takeCaught dest) (.define dest .caught)
  | takeResult {dest wide} :
      Means o stop values (.takeResult dest wide) (.takeResult dest)
  | compute {e args dest wide} (calm : e.canThrow = false)
      (operator : isOperator e = true) (stands : List.Forall₂ (Stands values) args e.values) :
      Means o stop values (.compute e.shape args dest wide) (.define dest e)
  | operate {e args dest wide} (throws : e.canThrow = true)
      (stands : List.Forall₂ (Stands values) args e.values) :
      Means o stop values (.operate (.expr e.shape) args (.reg dest wide)) (.define dest e)
  | call {e args} (throws : e.canThrow = true)
      (stands : List.Forall₂ (Stands values) args e.values) :
      Means o stop values (.operate (.expr e.shape) args .result) (.call e)
  | perform {s args} (plain : s.operation? = some (.stmt s.shape))
      (bare : s.def? = none) (stands : List.Forall₂ (Stands values) args s.values) :
      Means o stop values (.operate (.stmt s.shape) args .nowhere) (.perform s)
  | jump {j t} (leads : Leads o stop values j t) :
      Means o stop values (.jump j) (.finish t)

section Does

variable {o : Outline} {stop : Nat} {values : Reg → Option Value} {i : Instruction}
  {regs : List Reg} {vs : List Value}

lemma stands_regs (held : Holds values regs vs) : List.Forall₂ (Stands values) (regs.map .reg) vs :=
  forall₂_map_left_iff.2 (held.imp fun _ _ => .reg)

lemma blank_eq (held : Holds values regs vs) :
    (regs.map fun _ => Value.zero) = vs.map fun _ => Value.zero := by
  rw [map_const', map_const', held.length_eq]

lemma means_evaluate {e shape args dest wide}
    (agrees : throws i = e.canThrow) (operator : isOperator e = true) (blank : e.shape = shape)
    (stands : List.Forall₂ (Stands values) args e.values) :
    Means o stop values (i.evaluate shape args dest wide) (.define dest e) := by
  rw [Instruction.evaluate, agrees, ← blank]
  cases throwing : e.canThrow with
  | true => exact .operate throwing stands
  | false => exact .compute throwing operator stands

lemma means_call {shape : List Value → Expr} (held : Holds values regs vs)
    (takes : (shape vs).values = vs) (blank : (shape vs).shape = shape (vs.map fun _ => .zero))
    (throwing : (shape vs).canThrow = true) :
    Means o stop values (Instruction.call shape regs) (.call (shape vs)) := by
  rw [Instruction.call, blank_eq held, ← blank]
  exact .call throwing (takes.symm ▸ stands_regs held)

lemma means_perform {s shape} (plain : s.operation? = some (.stmt s.shape))
    (bare : s.def? = none) (blank : s.shape = shape) (held : Holds values regs s.values) :
    Means o stop values (Instruction.perform shape regs) (.perform s) := by
  rw [← blank]
  exact .perform plain bare (stands_regs held)

lemma sparse_found {cases : List (Int32 × Label)} {bs : List (Int32 × BlockId)}
    (found : (cases.mapM fun c => do .ok (c.1, ← o.blockOf c.2)) = .ok bs) (key : Int32) :
    Option.Rel (fun l b => o.blockOf l = .ok b) (cases.lookup key) (bs.lookup key) := by
  refine forall₂_lookup ((mapM_ok.1 found).imp fun c d made => ?_) key
  obtain ⟨b, at_, same⟩ := bind_ok.1 made
  cases same
  exact ⟨rfl, at_⟩

/-- Every instruction becomes what its command means. -/
lemma Does.means {a} (does : Does o stop i vs a) (read : operands i = .ok regs)
    (held : Holds values regs vs) : ∃ c, i.command? = some c ∧ Means o stop values c a := by
  have agrees := does.throws_eq
  have stands := stands_regs held
  cases does with
  | move =>
    cases read
    cases stands with | cons first => exact ⟨_, rfl, .copy first⟩
  | moveResult => exact ⟨_, rfl, .takeResult⟩
  | moveException => exact ⟨_, rfl, .takeCaught⟩
  | const | constWide | constString | constClass | constMethodType =>
    exact ⟨_, rfl, .copy .constant⟩
  | constMethodHandle converts =>
    exact ⟨.copy _ false _, by simp only [Instruction.command?, converts], .copy .constant⟩
  | monitorEnter | monitorExit | fillArrayData =>
    cases read
    exact ⟨_, rfl, means_perform rfl rfl rfl held⟩
  | checkCast | instanceOf | arrayLength | newInstance | newArray | compare | unary | binary =>
    cases read
    exact ⟨_, rfl, means_evaluate agrees rfl rfl stands⟩
  | binaryLiteral | binaryReversed =>
    cases read
    cases stands with
    | cons first =>
      refine ⟨_, rfl, means_evaluate agrees rfl rfl ?_⟩
      simp [Expr.values, first, Value.literal, Stands.constant]
  | arrayGet get | fieldGet get | staticGet get =>
    simp only [operands, get, Except.ok.injEq] at read
    subst read
    exact ⟨_, if_pos get, means_evaluate agrees rfl rfl stands⟩
  | arrayPut put | fieldPut put | staticPut put =>
    simp only [operands, put, Except.ok.injEq] at read
    subst read
    exact ⟨_, if_neg (by simp [put]), means_perform rfl rfl rfl held⟩
  | filledNewArray =>
    cases read
    exact ⟨_, rfl, means_call held rfl rfl rfl⟩
  | invoke | invokePolymorphic | invokeCustom =>
    exact ⟨_, by simp only [Instruction.command?, callRegs_ok read, Option.map_some],
      means_call held rfl rfl rfl⟩
  | returnVoid => exact ⟨_, rfl, .jump .leave⟩
  | returnValue =>
    cases read
    cases held with | cons first => exact ⟨_, rfl, .jump (.ret first)⟩
  | throw =>
    cases read
    cases held with | cons first => exact ⟨_, rfl, .jump (.raise first)⟩
  | goto found => exact ⟨_, rfl, .jump (.goto found)⟩
  | packedSwitch found next =>
    cases read
    cases held with
    | cons first =>
      refine ⟨_, rfl, .jump (.switch first (fun key => ?_) next)⟩
      rw [lookup_packedKeys]
      exact forall₂_getElem? (mapM_ok.1 found) _
  | sparseSwitch found next =>
    cases read
    cases held with
    | cons first => exact ⟨_, rfl, .jump (.switch first (sparse_found found) next)⟩
  | branch found next =>
    cases read
    cases held with
    | cons first rest =>
      cases rest with
      | cons second => exact ⟨_, rfl, .jump (.branch first (.some second) found next)⟩
  | branchZero found next =>
    cases read
    cases held with | cons first => exact ⟨_, rfl, .jump (.branch first .none found next)⟩

end Does

end Restack.Lifting
