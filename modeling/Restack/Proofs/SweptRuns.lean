/-
# Methods along the pipeline run without their dead code

Every pass keeps what removing dead code asks of a method, also those behind which a local has
several definitions (`Sweepable`). So dead code can be removed from whatever the passes come to,
and runs stay what they were (`removeDead_keeps_runs`).
-/
import Restack.Proofs.LoweringFailures
import Restack.Proofs.Pass.Sweeping

namespace Restack

open Ir
open Outcome
open Pass
open Register (Code)

variable {method : Register.Method} {code : Code} {order : Lifting.ClosingOrder} {m m' : Method}

namespace Lifting

lemma lift_housed (lifted : lift method code order = .ok m) : m.Housed := by
  obtain ⟨_, _, _, _, _, _, _, -, -, drawn, rendering⟩ := lift_rendering lifted
  refine ⟨by rw [rendering.entry, rendering.start]; rfl, fun b handles => ?_⟩
  obtain ⟨trap, mem, h, handler, rfl⟩ := Method.isHandler_iff.1 handles
  obtain ⟨t, -, c, -, -, found⟩ := drawn.received (rendering.traps ▸ mem) handler
  obtain ⟨span, inside, -, same⟩ := drawn.blockOf_ok.1 found
  refine ((rendering.linked drawn).mem_layout h.target).1 ?_
  rw [rendering.layout, drawn.mem_layout]
  exact same ▸ (drawn.span_inner inside List.mem_cons_self).2

lemma lift_effective (lifted : lift method code order = .ok m) : m.Each Effective := by
  refine lift_each lifted (fun _ _ _ => trivial) fun i _ o stop vs a does => ?_
  cases a with
  | define dest e => exact fun _ => trivial
  | call e => cases does <;> exact ⟨rfl, fun _ => trivial⟩
  | perform s => cases does <;> exact trivial
  | skip | takeResult | finish => exact trivial

end Lifting

/-- What removing dead code asks of a method. -/
structure Sweepable (m : Method) : Prop where
  linked : m.Linked
  housed : m.Housed
  marked : ∃ param, m.Marked ⟨param, Effective⟩

lemma Pass.keeps_sweepable {p : Pass} {changed : Bool} (sweepable : Sweepable m)
    (run : p.apply m = .ok (m', changed)) : Sweepable m' := by
  obtain ⟨param, marked⟩ := sweepable.marked
  have keeps := keeps_shape sweepable.linked run
  exact ⟨keeps.linked, keeps.housed sweepable.housed, param, keeps_marked stable_effective marked run⟩

/-- Removing dead code from a method along the pipeline keeps every run: it goes through
the same blocks, with the same answers and exceptions and the same values in all locals
that are still read, and ends alike. All blocks that are left are reached, what is still
defined is read, and removing dead code again changes nothing. -/
theorem removeDead_keeps_runs (lifted : Lifting.lift method code order = .ok m)
    (along : Pipeline.standard.Along m m') :
    (∀ (V : Type) (w : World V) (st : State V) (n : Nat), (removeDead m').1.run w n st = m'.run w n st ∧
      (m'.stop w n st).Alike (· ∈ (removeDead m').1.uses) ((removeDead m').1.stop w n st)) ∧
    (∀ b, ((removeDead m').1.block? b).isSome = true → (removeDead m').1.Reached b) ∧
    (∀ l ∈ (removeDead m').1.defs, l ∈ (removeDead m').1.uses) ∧
    removeDead (removeDead m').1 = ((removeDead m').1, false) := by
  obtain ⟨param, marked⟩ := Lifting.lift_marked lifted
  have start : Sweepable m := ⟨Lifting.lift_linked lifted, Lifting.lift_housed lifted,
    param, marked.having (Lifting.lift_effective lifted)⟩
  obtain ⟨linked, housed, param, marked⟩ := along.preserves (fun p _ _ _ _ => keeps_sweepable) start
  refine ⟨fun V w st n => ?_, removeDead_reached linked housed marked, fun l => ?_,
    removeDead_again linked housed marked⟩
  · have alike : (m'.stop w n st).Alike _ _ := removeDead_alike linked housed marked n
    refine ⟨?_, alike⟩
    rw [Method.run_eq_stop, Method.run_eq_stop, alike.observed]
  · rw [removeDead_fst]
    exact defs_sweep_read marked.removeUnreachable.pruneEdges.each

/-- Calls for a number that it never reads, behind a number that it never reads; nothing
comes to its last instruction. -/
def idleCall : Code where
  registers := 2
  instructions := [.const 0 7, .invoke .static [] ⟨"LIdle;", "next", "()I"⟩,
    .moveResult .single 1, .returnVoid, .mark ⟨"never"⟩, .goto ⟨"never"⟩]
  tries := []

def idleCallMethod : Register.Method where
  access := 8
  ref := ⟨"LIdle;", "run", "()V"⟩
  code := some idleCall

theorem idleCall_keeps_runs : ∃ m, Lifting.lift idleCallMethod idleCall = .ok m ∧
    Pipeline.standard.Along m (cleanLabels m).1 ∧ (removeDead (cleanLabels m).1).2 = true ∧
    (∀ (V : Type) (w : World V) (st : State V) (n : Nat),
      (removeDead (cleanLabels m).1).1.run w n st = (cleanLabels m).1.run w n st ∧
      ((cleanLabels m).1.stop w n st).Alike (· ∈ (removeDead (cleanLabels m).1).1.uses)
        ((removeDead (cleanLabels m).1).1.stop w n st)) ∧
    (∀ b, ((removeDead (cleanLabels m).1).1.block? b).isSome = true →
      (removeDead (cleanLabels m).1).1.Reached b) ∧
    (∀ l ∈ (removeDead (cleanLabels m).1).1.defs, l ∈ (removeDead (cleanLabels m).1).1.uses) ∧
    removeDead (removeDead (cleanLabels m).1).1 = ((removeDead (cleanLabels m).1).1, false) := by
  have changes : (Lifting.lift idleCallMethod idleCall).toOption.any
      (fun m => (removeDead (cleanLabels m).1).2) = true := by decide +kernel
  obtain ⟨m, found, changed⟩ := (Option.any_eq_true _ _).1 changes
  have lifted := of_toOption found
  have along : Pipeline.standard.Along m (cleanLabels m).1 := by
    refine .next (s := ⟨.cleanLabel, []⟩) ?_ .here
    show (if (cleanLabels m).2 then _ else _) = _
    split <;> rfl
  exact ⟨m, lifted, along, changed, removeDead_keeps_runs lifted along⟩

end Restack
