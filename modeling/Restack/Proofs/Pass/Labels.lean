/-
# What the removal of jumps does

The conditions under which a block is left out (`Skippable`) or glued to its
predecessor (`Gluable`), and what such a step makes of each block.
-/
import Restack.Pass.Labels
import Restack.Proofs.Ir.Graph
import Restack.Proofs.Outcome

namespace Restack.Pass

open List Ir
open Outcome

/-- A block that does nothing but jump to another and can be left out. -/
structure Skippable (m : Method) (b target : BlockId) (sources : List BlockId) : Prop where
  inner : b ≠ m.entry
  plain : m.isHandler b = false
  block : m.block? b = some ⟨[], [], .goto target⟩
  other : target ≠ b
  from_ : sources = m.normalPredecessors b
  reached : sources ≠ []
  apart : ∀ block, m.block? target = some block → block.phis ≠ [] →
    ∀ p ∈ sources, p ∉ m.predecessors target

/-- A block and the only one it jumps to, which nothing else leads to. -/
structure Gluable (m : Method) (b next : BlockId) (absorbed : Block) : Prop where
  block : ∃ block, m.block? b = some block ∧ block.terminator = .goto next
  other : next ≠ b
  inner : next ≠ m.entry
  plain : m.isHandler next = false
  single : (m.predecessors next).length = 1
  uncovered : m.isCovered b = false
  uncovered_next : m.isCovered next = false
  behind : m.block? next = some absorbed
  bare : absorbed.phis = []

@[simp] lemma isThrow_retarget (t : Terminator) (old new : BlockId) :
    (t.retarget old new).isThrow = t.isThrow := by
  cases t <;> rfl

variable {m : Method}

lemma emptyGoto?_some {block : Block} {target} (found : block.emptyGoto? = some target) :
    block = ⟨[], [], .goto target⟩ := by
  unfold Block.emptyGoto? at found
  split at found
  · cases found
    rfl
  · cases found

lemma skippable?_some {b target sources}
    (found : skippable? m m.edges b = some (target, sources)) : Skippable m b target sources := by
  simp only [skippable?, guard_some] at found
  obtain ⟨inner, found⟩ := found
  obtain ⟨block, at_, found⟩ := Option.bind_eq_some_iff.1 found
  obtain ⟨target', empty, found⟩ := Option.bind_eq_some_iff.1 found
  rw [guard_some] at found
  obtain ⟨other, found⟩ := found
  rw [guard_some] at found
  obtain ⟨reached, found⟩ := found
  rw [guard_some] at found
  obtain ⟨apart, found⟩ := found
  cases found
  simp only [Bool.not_eq_true, Bool.or_eq_false_iff, beq_eq_false_iff_ne] at inner
  refine ⟨inner.1, inner.2, emptyGoto?_some empty ▸ at_, by simpa using other, rfl,
    by simpa using reached, ?_⟩
  intro target' found phis p mem among
  refine apart ?_
  simp only [found, Option.any_some, Bool.and_eq_true, Bool.not_eq_true', isEmpty_eq_false_iff,
    any_eq_true, contains_iff_mem]
  exact ⟨phis, p, mem, among⟩

lemma gluable?_some {b next absorbed}
    (found : gluable? m m.edges b = some (next, absorbed)) : Gluable m b next absorbed := by
  obtain ⟨block, at_, found⟩ := Option.bind_eq_some_iff.1 found
  split at found
  · rename_i next' ends
    simp only [guard_some] at found
    obtain ⟨inner, single, calm, found⟩ := found
    obtain ⟨absorbed', absorbs, found⟩ := Option.bind_eq_some_iff.1 found
    split at found
    · rename_i bare
      cases found
      simp only [Bool.not_eq_true, Bool.or_eq_false_iff, beq_eq_false_iff_ne] at inner calm
      exact ⟨⟨block, at_, ends⟩, inner.1.1, inner.1.2, inner.2,
        by simpa [Method.predecessors] using single, calm.1, calm.2, absorbs, by simpa using bare⟩
    · cases found
  · cases found

lemma cleanLabels_step {smaller} (step : (skipFirst? m <|> glueFirst? m) = some smaller) :
    (∃ b target sources, b ∈ m.layout ∧ Skippable m b target sources ∧ smaller = skip m b target sources) ∨
    ∃ b next absorbed, b ∈ m.layout ∧ Gluable m b next absorbed ∧ smaller = glue m b next absorbed := by
  have either : skipFirst? m = some smaller ∨ glueFirst? m = some smaller := by
    cases skipped : skipFirst? m with
    | some s => exact .inl (by simpa [skipped] using step)
    | none => exact .inr (by simpa [skipped] using step)
  rcases either with skipped | glued
  · obtain ⟨b, mem, found⟩ := exists_of_findSome?_eq_some skipped
    obtain ⟨⟨target, sources⟩, can, rfl⟩ := Option.map_eq_some_iff.1 found
    exact .inl ⟨b, target, sources, mem, skippable?_some can, rfl⟩
  · obtain ⟨b, mem, found⟩ := exists_of_findSome?_eq_some glued
    obtain ⟨⟨next, absorbed⟩, can, rfl⟩ := Option.map_eq_some_iff.1 found
    exact .inr ⟨b, next, absorbed, mem, gluable?_some can, rfl⟩

lemma cleanLabels_preserves {P : Method → Prop}
    (skips : ∀ m b target sources, P m → b ∈ m.layout → Skippable m b target sources →
      P (skip m b target sources))
    (glues : ∀ m b next absorbed, P m → b ∈ m.layout → Gluable m b next absorbed →
      P (glue m b next absorbed)) (start : P m) : P (cleanLabels m).1 := by
  rw [cleanLabels]
  generalize m.layout.length = fuel
  induction fuel generalizing m with
  | zero => exact start
  | succ fuel ih =>
    rw [cleanLabelsWith]
    split
    · rename_i smaller step
      refine ih ?_
      rcases cleanLabels_step step with ⟨b, target, sources, mem, can, rfl⟩ |
          ⟨b, next, absorbed, mem, can, rfl⟩
      · exact skips m b target sources start mem can
      · exact glues m b next absorbed start mem can
    · exact start

end Restack.Pass
