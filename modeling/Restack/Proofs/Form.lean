/-
# Single assignment form along the passes

Lifting makes a method in this form, and each pass up to the one that cuts blocks
at null keeps it (`lifted_stays_valid`). The passes behind the removal of dead
code look at every block, so they count on there being none that control cannot
come to; that removal makes it so and they keep it (`Tidy`).
-/
import Restack.Proofs.Lifting.Form
import Restack.Proofs.Pass.Jumps

namespace Restack

open Register (Code)
open Ir (Method)
open Pass

/-- In single assignment form, and without blocks that control cannot come to. -/
structure Ir.Method.Tidy (m : Method) : Prop extends m.Sound where
  reached : m.AllReached

variable {m m' x : Method}

lemma Pass.throwOnNull_tidy (tidy : m.Tidy) : (throwOnNull m).1.Tidy := by
  refine ⟨throwOnNull_sound tidy.toSound, ?_⟩
  have loose := cutAll_preserves (fun _ _ _ _ loose cut => cut.loose loose) tidy.toLoose m.layout
  rw [throwOnNull_fst]
  split
  · obtain ⟨smaller, all⟩ := loose.removeUnreachable
    intro b exists_
    rw [Method.block?_pruneEdges_isSome] at exists_
    exact (all b exists_).prune smaller.edges
  · rename_i unchanged
    rw [cutAll_unchanged (by simpa using unchanged)]
    exact tidy.reached

lemma Pass.keeps_tidy {p} (among : p ∈ zero :: npe :: Pipeline.cleanup) {changed}
    (tidy : m.Tidy) (run : p.apply m = .ok (m', changed)) : m'.Tidy := by
  simp only [Pipeline.cleanup, List.mem_cons, List.not_mem_nil, or_false] at among
  rcases among with rfl | rfl | rfl | rfl | rfl
  · obtain rfl : (placeNulls m).1 = m' := apply_made run rfl
    refine ⟨placeNulls_sound tidy.toSound, fun b exists_ => placeNulls_reached (tidy.reached b ?_)⟩
    rwa [placeNulls_fst, nullMerged_rewrites.exists_, nullExpected_rewrites.exists_] at exists_
  · obtain rfl : (throwOnNull m).1 = m' := apply_made run rfl
    exact throwOnNull_tidy tidy
  · obtain rfl : (removeDead m).1 = m' := apply_made run rfl
    obtain ⟨sound, reached⟩ := removeDead_sound tidy.toSound
    exact ⟨sound, reached⟩
  · obtain rfl : (removeCopies m).1 = m' := apply_made run rfl
    obtain ⟨sound, reached⟩ := removeCopies_sound tidy.toSound tidy.reached
    exact ⟨sound, reached⟩
  · obtain rfl : (removeConstants m).1 = m' := apply_made run rfl
    obtain ⟨sound, reached⟩ := removeConstants_sound tidy.toSound tidy.reached
    exact ⟨sound, reached⟩

lemma Pipeline.Along.cases_bare {p} {rest : Pipeline} (along : Along (⟨p, []⟩ :: rest) m x) :
    x = m ∨ ∃ m' changed, p.apply m = .ok (m', changed) ∧ rest.Along m' x := by
  cases along with
  | here => exact .inl rfl
  | follow run later =>
    cases later
    exact .inr ⟨_, _, run, .here⟩
  | next run later =>
    obtain ⟨_, applied⟩ := Stage.run_bare run
    exact .inr ⟨_, _, applied, later⟩

/-- A lifted method is in single assignment form, and so is what each pass
leaves of it up to the one that cuts blocks at null. -/
theorem lifted_stays_valid {method : Register.Method} {code : Code} {order : Lifting.ClosingOrder}
    {m : Method} (lifted : Lifting.lift method code order = .ok m) (follow : Lifting.entersResult code = false) :
    ∀ m', (Pipeline.standard.upTo .npe).Along m m' → m'.Valid := by
  obtain ⟨signature, o, ranges, starts, f, ls, defs, -, -, drawn, rendering⟩ :=
    Lifting.lift_rendering lifted
  have sound := rendering.sound drawn follow
  intro m' along
  rcases Pipeline.Along.cases_bare along with rfl | ⟨n, changed, cleaned, along⟩
  · exact sound.valid
  obtain rfl : (cleanLabels m).1 = n := congrArg Prod.fst (Except.ok.inj (apply_ok.1 cleaned))
  have sound' := cleanLabels_sound sound
  rcases Pipeline.Along.cases_bare along with rfl | ⟨n', changed', swept, along⟩
  · exact sound'.valid
  obtain rfl : (removeDead (cleanLabels m).1).1 = n' :=
    congrArg Prod.fst (Except.ok.inj (apply_ok.1 swept))
  obtain ⟨sound'', reached⟩ := removeDead_sound sound'
  have start : (removeDead (cleanLabels m).1).1.Tidy := ⟨sound'', reached⟩
  have rest : ∀ p ∈ Pipeline.passes
      [⟨removeLocal, []⟩, ⟨removeConstant, []⟩, ⟨zero, []⟩, ⟨npe, Pipeline.cleanup⟩],
      p ∈ zero :: npe :: Pipeline.cleanup := by decide
  exact (along.preserves (fun p among _ _ _ => keeps_tidy (rest p among)) start).toSound.valid

/-- A loop around a guarded call whose result decides whether to go on; the
handler goes on with the exception in place of the argument. -/
def guardedLoop : Code where
  registers := 2
  instructions := [.mark ⟨"loop"⟩, .invoke .static [1] ⟨"LLoop;", "next", "(Ljava/lang/Object;)I"⟩,
    .moveResult .single 0, .mark ⟨"stop"⟩, .branchZero .eq 0 ⟨"loop"⟩, .returnValue .single 0,
    .mark ⟨"handler"⟩, .moveException 1, .goto ⟨"loop"⟩]
  tries := [⟨⟨"loop"⟩, ⟨"stop"⟩, [⟨none, ⟨"handler"⟩⟩]⟩]

def guardedLoopMethod : Register.Method where
  access := 8
  ref := ⟨"LLoop;", "run", "(Ljava/lang/Object;)I"⟩
  code := some guardedLoop

theorem guardedLoop_stays_valid : ∃ m, Lifting.lift guardedLoopMethod guardedLoop = .ok m ∧
    Lifting.entersResult guardedLoop = false ∧
    ∀ m', (Pipeline.standard.upTo .npe).Along m m' → m'.Valid := by
  obtain ⟨m, lifted⟩ : ∃ m, Lifting.lift guardedLoopMethod guardedLoop = .ok m :=
    Outcome.exists_of_isOk (by decide +kernel)
  have follow : Lifting.entersResult guardedLoop = false := by decide +kernel
  exact ⟨m, lifted, follow, lifted_stays_valid lifted follow⟩

end Restack
