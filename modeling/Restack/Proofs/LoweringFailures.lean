/-
# Why converted methods cannot be lowered

A lifted method goes through the standard passes unless an array type in its code cannot be
taken apart, and what comes out is in the form that lowering asks for (`standard_wellFormed`).
So lowering fails for what the method itself asks for, or because its slots cannot be numbered
(`lower_fails_for_input`).
-/
import Restack.Proofs.Lifting.Statements
import Restack.Proofs.Lowering.Faults
import Restack.Proofs.Pass.Allocations

namespace Restack

open Ir
open Lowering
open Outcome
open Register (Code)

variable {method : Register.Method} {code : Code} {order : Lifting.ClosingOrder} {m n : Method}

/-- The types of the arrays that a body allocates. -/
def Register.Code.arrayTypes (code : Code) : List String :=
  code.instructions.filterMap fun
    | .newArray _ _ type => some type
    | _ => none

namespace Lifting

lemma lift_linked (lifted : lift method code order = .ok m) : m.Linked := by
  obtain ⟨_, _, _, _, _, _, _, -, -, drawn, rendering⟩ := lift_rendering lifted
  exact rendering.linked drawn

lemma lift_allocates (lifted : lift method code order = .ok m) :
    m.Each (Stmt.AllocatesIn (· ∈ code.arrayTypes)) := by
  refine lift_each lifted (fun _ _ _ => .of_none rfl) fun i listed o stop vs a does => ?_
  cases a with
  | define dest e =>
    cases e with
    | newArray type size =>
      cases does
      intro l type' found
      cases found
      exact List.mem_filterMap.2 ⟨_, listed, rfl⟩
    | _ => exact fun _ => .of_none rfl
  | call e => cases does <;> exact ⟨.of_none rfl, fun _ => .of_none rfl⟩
  | perform s => cases does <;> exact .of_none rfl
  | skip | takeResult | finish => exact trivial

end Lifting

/-- A statement that reads no parameter beyond the count, and no parameter or exception only to
drop it. -/
structure ReadsGiven (count : Nat) (s : Stmt) : Prop where
  param : ∀ i, s.param? = some i → i < count
  kept : ∀ e, s = .effect e → ¬ ((∃ i, e = .param i) ∨ e = .caught)

namespace ReadsGiven

variable {count : Nat}

lemma assign {dst : Local} {e : Expr} (other : ∀ i, e ≠ .param i) :
    ReadsGiven count (.assign dst e) where
  param i reads := by
    cases e with
    | param j => exact absurd rfl (other j)
    | _ => cases reads
  kept _ same := by cases same

lemma effect {e : Expr} (impure : e.isPure = false) : ReadsGiven count (.effect e) where
  param _ reads := by cases reads
  kept e' same := by
    cases same
    rintro (⟨i, rfl⟩ | rfl) <;> cases impure

lemma perform {s : Stmt} (none_ : evaluated? s = none) : ReadsGiven count s where
  param i reads := by cases s <;> first | cases reads | cases none_
  kept e same := by
    subst same
    cases none_

lemma withValues {s} (reads : ReadsGiven count s) (vs : List Value) : ReadsGiven count (s.withValues vs) := by
  have given (e : Expr) : ((∃ i, e.withValues vs = .param i) ∨ e.withValues vs = .caught) →
      (∃ i, e = .param i) ∨ e = .caught := by
    unfold Expr.withValues
    split <;> simp
  cases s with
  | assign dst e =>
    refine ⟨fun i found => reads.param i ?_, fun _ same => by cases same⟩
    revert found
    simp only [Stmt.withValues, Expr.withValues]
    split <;> exact id
  | effect e =>
    refine ⟨fun _ found => (by cases found), fun e' same => ?_⟩
    cases same
    exact fun wrong => reads.kept e rfl (given e wrong)
  | _ => exact perform (by unfold Stmt.withValues; split <;> simp_all [evaluated?])

end ReadsGiven

lemma Pass.stable_readsGiven (count : Nat) : Stable (ReadsGiven count) where
  withValues _ vs reads := reads.withValues vs
  effect _ _ impure _ := .effect impure
  copy _ _ := .assign (by simp)
  object _ _ _ _ := .assign (by simp)
  literal _ _ _ := .assign (by simp)
  allocation dst element dims _ := by
    refine .assign fun i => ?_
    unfold allocation
    split <;> simp

lemma Lifting.lift_readsGiven (lifted : lift method code order = .ok m) : m.Each (ReadsGiven m.params.size) := by
  refine lift_each lifted (fun l i small => ⟨?_, by simp⟩) fun i listed o stop vs a does => ?_
  · rintro j found
    cases found
    exact small
  · cases a with
    | define dest e =>
      refine fun _ => .assign fun j same => ?_
      subst same
      cases does
    | call e => cases does <;> exact ⟨.effect rfl, fun _ => .assign (by simp)⟩
    | perform s => cases does <;> exact .perform rfl
    | skip | takeResult | finish => exact trivial

lemma standard_keeps (linked : m.Linked) (run : Pipeline.standard.run m = .ok n) :
    n.head = m.head ∧ n.Linked ∧ ∀ b, n.phisOf b = [] := by
  have keeps {p : Pipeline} {m n : Method} (linked : m.Linked) (run : p.run m = .ok n) :
      Method.Keeps m n :=
    Pipeline.run_preserves (P := Method.Keeps m)
      (fun _ _ _ _ old made => old.trans (Pass.keeps_shape old.linked made)) (.refl linked) run
  have split : Pipeline.standard = Pipeline.standard.take 8 ++ ⟨.unssa, []⟩ ::
      Pipeline.standard.drop 9 := rfl
  rw [Pipeline.run, split, List.foldlM_append] at run
  obtain ⟨x, before, run⟩ := bind_ok.1 run
  obtain ⟨y, replaced, after⟩ := foldlM_cons_ok.1 run
  have first := keeps linked before
  obtain ⟨_, applied⟩ := Stage.run_bare replaced
  have made : (Pass.replacePhis x).1 = y := Pass.apply_made applied rfl
  obtain ⟨shape, bare⟩ := Pass.replacePhis_bare (m := x)
  rw [made] at shape bare
  have second := shape.keeps first.linked
  have third := keeps second.linked after
  refine ⟨third.head.trans (second.head.trans first.head), third.linked, fun b => third.phis b ?_⟩
  by_cases listed : b ∈ x.layout
  · exact bare b listed
  · rw [← shape.layout, second.linked.mem_layout] at listed
    simp only [Bool.not_eq_true, Option.isSome_eq_false_iff, Option.isNone_iff_eq_none] at listed
    rw [Method.phisOf, listed]
    rfl

/-- What the standard passes make of a lifted method is in the form that lowering asks for. -/
lemma standard_wellFormed (lifted : Lifting.lift method code order = .ok m)
    (run : Pipeline.standard.run m = .ok n) {cause} : ¬ FormFault n cause := by
  obtain ⟨head, linked, bare⟩ := standard_keeps (Lifting.lift_linked lifted) run
  have params : n.params = m.params := congrArg Prod.snd head
  obtain ⟨param, marked⟩ := Lifting.lift_marked lifted
  have late := Pass.run_marked (Pass.stable_readsGiven m.params.size)
    (marked.having (Lifting.lift_readsGiven lifted)) run
  have reads := late.each
  intro fault
  cases fault with
  | remainingPhis _ phis => exact phis (bare _)
  | parameterRange here mem found outside =>
    have inside := (reads _ _ here _ mem).param _ found
    rw [params] at outside
    omega
  | missingBlock listed absent =>
    have found := (linked.mem_layout _).1 listed
    rw [absent] at found
    cases found
  | unknownTarget here leads unlisted =>
    have found := linked.targets _ _ _ here leads
    exact unlisted ⟨linked.layout_nodup, (linked.mem_layout _).2 found, found⟩
  | missingSlot appears outside =>
    have inside := appearances_below late appears
    omega
  | unevaluable here mem given => exact (reads _ _ here _ mem).kept _ rfl given

/-- A lifted method whose array types begin with a bracket goes through the standard passes, and
then lowering fails only for what the method asks for, or because its parameters and locals need
more slots than sixteen bits can number. -/
theorem lower_fails_for_input (lifted : Lifting.lift method code order = .ok m)
    (arrays : ∀ type ∈ code.arrayTypes, type.toList.head? = some '[') :
    ∃ n, Pipeline.standard.run m = .ok n ∧ ∀ e, lower n = .error e →
      InputFault n e.cause ∨ e.cause = .slotOverflow ∧ 65536 ≤ slotDemand n := by
  obtain ⟨param, marked⟩ := Lifting.lift_marked lifted
  have fails := Pass.run_divides (S := Pass.Divisible) (p := Pipeline.standard)
    (fun _ => Pass.divisible_of_bracket) (marked.having fun b block here s member type found =>
      Pass.divisible_of_bracket (arrays type (Lifting.lift_allocates lifted b block here s member type found)))
  cases run : Pipeline.standard.run m with
  | error e =>
    obtain ⟨type, -, divisible, indivisible⟩ := fails e run
    exact absurd divisible indivisible
  | ok n =>
    refine ⟨n, rfl, fun e failed => ?_⟩
    rcases lower_fails n e failed with input | form | overflow
    · exact .inl input
    · exact absurd form (standard_wellFormed lifted run)
    · exact .inr overflow

/-- Asks whether a new array is below zero. -/
def arrayBelowZero : Code where
  registers := 2
  instructions := [.newArray 0 1 "[I", .branchZero .lt 0 ⟨"end"⟩, .returnVoid, .mark ⟨"end"⟩, .returnVoid]
  tries := []

def arrayBelowZeroMethod : Register.Method where
  access := 8
  ref := ⟨"LOrder;", "run", "(I)V"⟩
  code := some arrayBelowZero

/-- Whether lowering ended for want of an order between references. -/
def refusesOrder : Except Failure Stack.Body → Bool
  | .error ⟨.orderedReferences .lt, _, _⟩ => true
  | _ => false

/-- There is no order between references, and lowering says so. -/
theorem arrayBelowZero_fails : ∃ m n e, Lifting.lift arrayBelowZeroMethod arrayBelowZero = .ok m ∧
    (∀ type ∈ arrayBelowZero.arrayTypes, type.toList.head? = some '[') ∧
    Pipeline.standard.run m = .ok n ∧ lower n = .error e ∧ e.cause = .orderedReferences .lt ∧
    (InputFault n e.cause ∨ e.cause = .slotOverflow ∧ 65536 ≤ slotDemand n) := by
  have computed : (do
      let m ← Lifting.lift arrayBelowZeroMethod arrayBelowZero
      let n ← Pipeline.standard.run m
      .ok (refusesOrder (lower n)) : Except Failure Bool).toOption = some true := by decide +kernel
  obtain ⟨m, lifted, computed⟩ := bind_ok.1 (of_toOption computed)
  obtain ⟨n, run, computed⟩ := bind_ok.1 computed
  have arrays : ∀ type ∈ arrayBelowZero.arrayTypes, type.toList.head? = some '[' := by decide
  obtain ⟨n', run', faults⟩ := lower_fails_for_input lifted arrays
  obtain rfl : n' = n := Except.ok.inj (run'.symm.trans run)
  have refused : refusesOrder (lower n') = true := Except.ok.inj computed
  unfold refusesOrder at refused
  split at refused
  · rename_i stage places failed
    exact ⟨m, n', _, lifted, arrays, run, failed, rfl, faults _ failed⟩
  · cases refused

end Restack
