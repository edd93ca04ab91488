/-
# When lifting aborts

Lifting fails for many reasons, and all of them but one concern the method alone: counting the
registers of its parameters, which is done in sixteen bits, ends the conversion of the program
when they are too many (`lift_fails`).
-/
import Restack.Proofs.Lifting.Rendering

namespace Restack

open Outcome

/-- A cause that concerns one method only. -/
def Cause.Calm (cause : Cause) : Prop := cause.aborts = false

lemma Signature.methodDescriptor_calm {text} : FailsOnly Cause.Calm (methodDescriptor text) := by
  have parses : FailsOnly Cause.Calm (MethodSig.parse text) := by
    unfold MethodSig.parse orMalformed
    split
    · exact .ok _
    · exact .fail rfl
  refine parses.bind fun signature _ => ?_
  split
  · exact .ok _
  · exact .fail rfl

lemma Conversion.handle_calm {h} : FailsOnly Cause.Calm (handle h) := by
  unfold handle
  split
  · exact .ok _
  · exact .ok _
  · exact .fail rfl

namespace Lifting

open Register (Instruction Label Reg Code TryRange)
open Ir (BlockId Value)

variable {labels : List (Label × Nat)} {spans : List Span} {span : Span} {o : Outline} {pos : Nat}
  {p : Progress}

lemma position_calm {label} : FailsOnly Cause.Calm (position labels label) := by
  unfold position
  split
  · exact .ok _
  · exact .fail rfl

lemma rangeOf_calm {t} : FailsOnly Cause.Calm (rangeOf labels t) :=
  position_calm.bind fun _ _ => position_calm.bind fun _ _ => .ok _

lemma beginnings_calm {ranges tries instructions} :
    FailsOnly Cause.Calm (beginnings labels ranges tries instructions) := by
  refine .bind (.mapM fun t _ => .mapM fun c _ => position_calm) fun _ _ => ?_
  refine .bind (.mapM fun e _ => ?_) fun _ _ => .ok _
  exact .bind (.mapM fun l _ => position_calm) fun _ _ => .ok _

lemma blockOf_calm {label} : FailsOnly Cause.Calm (blockOf labels spans label) := by
  refine position_calm.bind fun pos _ => ?_
  split
  · exact .ok _
  · exact .fail rfl

lemma spanEdges_calm {last} : FailsOnly Cause.Calm (spanEdges labels spans span last) := by
  refine .bind (.mapM fun l _ => blockOf_calm) fun targets _ => ?_
  split
  · exact .ok _
  · split <;> exact .ok _

lemma trapOf?_calm {instructions t range} :
    FailsOnly Cause.Calm (trapOf? labels spans instructions t range) := by
  unfold trapOf?
  dsimp only
  split
  · exact .ok _
  · exact .bind (.mapM fun c _ => blockOf_calm.bind fun _ _ => .ok _) fun _ _ => .ok _

lemma ofCode_calm {code} : FailsOnly Cause.Calm (Outline.ofCode code) := by
  unfold Outline.ofCode
  refine .guard (fun _ => rfl) fun _ => ?_
  refine .bind (.mapM fun t _ => rangeOf_calm) fun ranges _ => ?_
  refine beginnings_calm.bind fun starts _ => ?_
  refine .bind (.mapM fun span _ => ?_) fun edges _ => ?_
  · split
    · exact spanEdges_calm
    · exact .ok _
  · exact .bind (.mapM fun t _ => trapOf?_calm) fun _ _ => .ok _

lemma argumentRegs_calm {descriptor args regs} :
    FailsOnly Cause.Calm (argumentRegs descriptor args regs) := by
  fun_induction argumentRegs descriptor args regs with
  | case1 => exact .ok _
  | case2 => exact .fail rfl
  | case3 arg args r regs ih => exact ih.bind fun _ _ => .ok _

lemma callRegs_calm {descriptor receiver regs} :
    FailsOnly Cause.Calm (callRegs descriptor receiver regs) := by
  refine Signature.methodDescriptor_calm.bind fun signature _ => ?_
  split
  · split
    · exact .fail rfl
    · exact argumentRegs_calm.bind fun _ _ => .ok _
  · exact argumentRegs_calm

lemma operands_calm {i} : FailsOnly Cause.Calm (operands i) := by
  cases i with
  | invoke kind args method | invokePolymorphic args method proto | invokeCustom args site =>
    exact callRegs_calm
  | _ => exact .ok _

lemma blockAt_calm : FailsOnly Cause.Calm (o.blockAt pos) := by
  unfold Outline.blockAt
  split
  · exact .ok _
  · exact .fail rfl

lemma action_calm {stop i vs} : FailsOnly Cause.Calm (action o stop i vs) := by
  have at_ (label : Label) : FailsOnly Cause.Calm (o.blockOf label) := blockOf_calm
  unfold action
  split
  case h_10 => exact Conversion.handle_calm.bind fun _ _ => .ok _
  case h_22 => exact (at_ _).bind fun _ _ => .ok _
  case h_23 =>
    exact .bind (.mapM fun l _ => at_ l) fun _ _ => blockAt_calm.bind fun _ _ => .ok _
  case h_24 =>
    exact .bind (.mapM fun c _ => (at_ c.2).bind fun _ _ => .ok _) fun _ _ =>
      blockAt_calm.bind fun _ _ => .ok _
  case h_26 => exact (at_ _).bind fun _ _ => blockAt_calm.bind fun _ _ => .ok _
  case h_27 => exact (at_ _).bind fun _ _ => blockAt_calm.bind fun _ _ => .ok _
  all_goals exact .ok _

lemma act_calm {b deferred kept a} : FailsOnly Cause.Calm (p.act b pos deferred kept a) := by
  unfold Progress.act
  split
  · exact .ok _
  · dsimp only
    split <;> exact .ok _
  · split <;> exact .ok _
  · split
    · exact .ok _
    · exact .fail rfl
  · exact .ok _
  · exact .ok _

lemma fillFrom_calm {is} : FailsOnly Cause.Calm (fillFrom o span pos is p) := by
  induction is generalizing pos p with
  | nil => exact .ok _
  | cons i is ih =>
    refine operands_calm.bind fun regs _ => ?_
    refine action_calm.bind fun a _ => ?_
    exact act_calm.bind fun made _ => ih.bind fun _ _ => .ok _

lemma fillSpan_calm {order} : FailsOnly Cause.Calm (fillSpan order o span p) := by
  refine fillFrom_calm.bind fun filled _ => .bind ?_ fun terminator _ => ?_
  · unfold Outline.ending
    split
    · exact .ok _
    · split
      · exact .ok _
      · exact blockAt_calm.bind fun _ _ => .ok _
  · split
    · exact blockAt_calm.bind fun _ _ => .ok _
    · exact .ok _

/-- The registers of a method's parameters are too many to be counted. -/
def TooManyRegisters (method : Register.Method) : Prop :=
  ∃ signature, Signature.methodDescriptor method.ref.descriptor = .ok signature ∧
    65535 < total ((parameters method signature).map paramWidth)

/-- Lifting aborts only where the registers of the parameters cannot be counted. -/
lemma lift_fails (method : Register.Method) (code : Code) (order : ClosingOrder) :
    FailsOnly (fun cause => cause.aborts = true → cause = .parameterOverflow ∧ TooManyRegisters method)
      (lift method code order) := by
  have calm (cause : Cause) (calm : cause.Calm) (aborts : cause.aborts = true) :
      cause = .parameterOverflow ∧ TooManyRegisters method := by
    rw [calm] at aborts
    cases aborts
  refine (Signature.methodDescriptor_calm.mono calm).bind fun signature parsed => ?_
  refine (ofCode_calm.mono calm).bind fun o _ => ?_
  refine .bind ?_ fun p _ => .bind ?_ fun q _ => .ok _
  · unfold fillEntry
    exact .guard (fun many _ => ⟨rfl, signature, parsed, many⟩) fun _ =>
      .guard (fun _ aborts => by cases aborts) fun _ => .ok _
  · exact .foldlM (P := fun _ => True) trivial (fun _ _ _ _ _ _ => trivial)
      fun p span _ _ => fillSpan_calm.mono calm

end Lifting

end Restack
