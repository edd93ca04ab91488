/-
# Runs of converted methods keep their locals

A converted method reads each parameter into a local of its own, and its copies are between
locals of one type, since typing comes last. So the slots of a local that is read hold what was
last assigned to it, on every run, and those of the parameters hold the arguments throughout
(`slots_hold_locals`).
-/
import Restack.Proofs.Lifting.Statements
import Restack.Proofs.Lowering.Faults
import Restack.Proofs.Lowering.Frames
import Restack.Proofs.Pass.Types

namespace Restack

open Ir
open Lowering
open Outcome
open Register (Code)

variable {m n : Method} {slots : Slots} {mark : Mark}

/-- Whether a local that a parameter is read into is as wide as the parameter. -/
def paramFits (m : Method) : Stmt → Bool
  | .assign l (.param i) => m.params.toList[i]?.all fun d => (m.localType l).width == (Ty.ofDescriptor d).width
  | _ => true

/-- Whether all parameters arrive in locals of their width. -/
def paramsFit (m : Method) : Bool := (layoutStmts m).all (paramFits m)

lemma width_of_paramsFit (fit : paramsFit m = true) {l i d}
    (among : .assign l (.param i) ∈ layoutStmts m) (found : m.params.toList[i]? = some d) :
    (m.localType l).width = (Ty.ofDescriptor d).width := by
  have here := List.all_eq_true.1 fit _ among
  rw [paramFits, found] at here
  simpa using here

lemma standard_ends_typed (run : Pipeline.standard.run m = .ok n) :
    ∃ x, Pipeline.run (Pipeline.standard.dropLast) m = .ok x ∧ (Pass.inferTypes x).1 = n := by
  have split : Pipeline.standard = Pipeline.standard.dropLast ++ [⟨.typeInfer, []⟩] := rfl
  rw [Pipeline.run, split, List.foldlM_append] at run
  obtain ⟨x, before, last⟩ := bind_ok.1 run
  obtain ⟨y, step, same⟩ := foldlM_cons_ok.1 last
  cases same
  obtain ⟨_, applied⟩ := Stage.run_bare step
  exact ⟨x, before, Pass.apply_made applied rfl⟩

lemma standard_fitted {method code order}
    (lifted : Lifting.lift method code order = .ok m) (run : Pipeline.standard.run m = .ok n)
    (made : assignSlots n = .ok slots) (fit : paramsFit n = true) :
    ∃ mark pinned, Fitted mark pinned (frameOf n slots) := by
  obtain ⟨mark, marked⟩ := Lifting.lift_marked lifted
  obtain ⟨x, before, typed⟩ := standard_ends_typed run
  have late := Pass.run_marked Pass.stable_trivial marked run
  obtain ⟨pinned, pins, allotted, placed⟩ := assignSlots_allotted made
  refine ⟨_, pinned, late, fun dst src among => ?_, fun l i d => width_of_paramsFit fit, pins, allotted,
    fun l appears => placed l appears (appearances_below late appears)⟩
  obtain ⟨b, -, block, here, mem⟩ := mem_layoutStmts.1 among
  subst typed
  exact Pass.inferTypes_copies (Pass.run_marked Pass.stable_trivial marked before) here mem

/-- On every run of a converted method the slots of a local that is read hold what was
last assigned to it. A parameter has the slots that it arrives in, and they hold it
throughout. -/
theorem slots_hold_locals {method : Register.Method} {code : Code} {order : Lifting.ClosingOrder}
    (lifted : Lifting.lift method code order = .ok m) (run : Pipeline.standard.run m = .ok n)
    (made : assignSlots n = .ok slots) (fit : paramsFit n = true) :
    (∀ l i, .assign l (.param i) ∈ layoutStmts n →
      ∃ x, (paramOffsets 0 n.params.toList)[i]? = some x ∧ slots.of? l = some x) ∧
    ∀ {V : Type} (args : Nat → V) (p : Point V), Visits (frameOf n slots) args p →
      Arrived n args p.contents ∧
      ∀ l v, p.Reads (frameOf n slots) l → p.held l = some v → Kept (frameOf n slots) p.contents l v := by
  obtain ⟨mark, pinned, fitted⟩ := standard_fitted lifted run made fit
  refine ⟨fun l i among => fitted.param_slot among, fun args p visited => ⟨?_, fun l v => ?_⟩⟩
  · obtain ⟨block, before, upheld⟩ := visited.upheld fitted
    exact upheld.arrived
  · exact visited.reads_kept fitted

/-- A loop that adds up what a guarded call gives; the handler returns the sum. -/
def runningTotal : Code where
  registers := 5
  instructions := [.mark ⟨"loop"⟩, .invoke .static [4] ⟨"LTotal;", "next", "(Ljava/lang/Object;)J"⟩,
    .moveResult .wide 0, .mark ⟨"stop"⟩, .binary .addLong 2 2 0, .goto ⟨"loop"⟩,
    .mark ⟨"handler"⟩, .moveException 4, .returnValue .wide 2]
  tries := [⟨⟨"loop"⟩, ⟨"stop"⟩, [⟨none, ⟨"handler"⟩⟩]⟩]

def runningTotalMethod : Register.Method where
  access := 8
  ref := ⟨"LTotal;", "run", "(JLjava/lang/Object;)J"⟩
  code := some runningTotal

/-- The sum, its next value and what carries it around the loop share two slots behind
the parameters. -/
theorem runningTotal_slots : ∃ m n slots, Lifting.lift runningTotalMethod runningTotal = .ok m ∧
    Pipeline.standard.run m = .ok n ∧ assignSlots n = .ok slots ∧ paramsFit n = true ∧
    slots = #[some 0, some 2, none, some 5, some 3, some 3, none, some 3] ∧
    ∀ {V : Type} (args : Nat → V) (p : Point V), Visits (frameOf n slots) args p →
      Arrived n args p.contents ∧
      ∀ l v, p.Reads (frameOf n slots) l → p.held l = some v → Kept (frameOf n slots) p.contents l v := by
  have computed : (do
      let m ← Lifting.lift runningTotalMethod runningTotal
      let n ← Pipeline.standard.run m
      let slots ← assignSlots n
      .ok (paramsFit n, slots) : Except Failure _).toOption =
      some (true, #[some 0, some 2, none, some 5, some 3, some 3, none, some 3]) := by decide +kernel
  obtain ⟨m, lifted, computed⟩ := bind_ok.1 (of_toOption computed)
  obtain ⟨n, run, computed⟩ := bind_ok.1 computed
  obtain ⟨slots, made, computed⟩ := bind_ok.1 computed
  obtain ⟨fit, shown⟩ := Prod.mk.inj (Except.ok.inj computed)
  exact ⟨m, n, slots, lifted, run, made, fit, shown, (slots_hold_locals lifted run made fit).2⟩

end Restack
