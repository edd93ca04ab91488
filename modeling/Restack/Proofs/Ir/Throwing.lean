/-
# Where blocks throw

Handlers see the state before the place where a block throws, so in a block under a
trap there is to be one such place at most, with nothing but the terminator behind it
(`Block.ThrowsOnce`). A method whose blocks under traps only lose statements keeps this
(`Method.ThrowsOnce.of_calmer`).
-/
import Restack.Proofs.Ir.Graph

namespace Restack.Ir

open List

namespace Block

/-- Whether a block may throw at a place: at one of its statements, or at its
terminator, which stands behind them. -/
def throwsAt (block : Block) (i : Nat) : Bool :=
  match block.stmts[i]? with
  | some s => s.canThrow
  | none => i == block.stmts.length && block.terminator.isThrow

/-- A block that throws at one place at most, with nothing but the terminator
behind it. -/
structure ThrowsOnce (block : Block) : Prop where
  once : ∀ i j, block.throwsAt i = true → block.throwsAt j = true → i = j
  last : ∀ i, block.throwsAt i = true → block.stmts.length ≤ i + 1

variable {block block' : Block}

lemma throwsAt_of_stmt {i s} (at_ : block.stmts[i]? = some s) : block.throwsAt i = s.canThrow := by
  simp [throwsAt, at_]

lemma throwsAt_length : block.throwsAt block.stmts.length = block.terminator.isThrow := by
  simp [throwsAt]

lemma throwsAt_cases {i} (throws : block.throwsAt i = true) :
    (∃ s, block.stmts[i]? = some s ∧ s.canThrow = true) ∨
      i = block.stmts.length ∧ block.terminator.isThrow = true := by
  rw [throwsAt] at throws
  split at throws
  · rename_i s at_
    exact .inl ⟨s, at_, throws⟩
  · exact .inr (by simpa using throws)

/-- A throwing statement is the last one, and then the terminator does not throw. -/
lemma throwsOnce_iff : block.ThrowsOnce ↔
    (block.stmts.map Stmt.canThrow).Pairwise (fun first _ => first = false) ∧
      (block.terminator.isThrow = true → true ∉ block.stmts.map Stmt.canThrow) := by
  constructor
  · intro once
    constructor
    · rw [pairwise_map, pairwise_iff_getElem]
      intro i j low high less
      by_contra throws
      rw [Bool.not_eq_false] at throws
      have := once.last i (by rw [throwsAt_of_stmt (getElem?_eq_getElem low), throws])
      omega
    · intro ends mem
      obtain ⟨s, among, throws⟩ := mem_map.1 mem
      obtain ⟨i, at_⟩ := getElem?_of_mem among
      have here : block.throwsAt i = true := by rw [throwsAt_of_stmt at_, throws]
      have behind : block.throwsAt block.stmts.length = true := by rw [throwsAt_length, ends]
      have := once.once i _ here behind
      rw [this] at at_
      simp at at_
  · rintro ⟨calm, alone⟩
    have last {i : Nat} {s : Stmt} (at_ : block.stmts[i]? = some s) (throws : s.canThrow = true) :
        i + 1 = block.stmts.length := by
      obtain ⟨low, rfl⟩ := List.getElem?_eq_some_iff.1 at_
      by_contra more
      rw [pairwise_map, pairwise_iff_getElem] at calm
      have := calm i (i + 1) low (by omega) (Nat.lt_succ_self i)
      rw [throws] at this
      cases this
    have apart {i : Nat} {s : Stmt} (at_ : block.stmts[i]? = some s) (throws : s.canThrow = true) :
        block.terminator.isThrow = false := by
      rw [Bool.eq_false_iff]
      exact fun ends => alone ends (mem_map.2 ⟨s, mem_of_getElem? at_, throws⟩)
    constructor
    · intro i j one other
      rcases throwsAt_cases one with ⟨s, at_, throws⟩ | ⟨end_, ends⟩ <;>
        rcases throwsAt_cases other with ⟨s', at', throws'⟩ | ⟨end', ends'⟩
      · have := last at_ throws
        have := last at' throws'
        omega
      · rw [apart at_ throws] at ends'
        cases ends'
      · rw [apart at' throws'] at ends
        cases ends
      · rw [end_, end']
    · intro i throws
      rcases throwsAt_cases throws with ⟨s, at_, throws⟩ | ⟨end_, -⟩
      · exact Nat.le_of_eq (last at_ throws).symm
      · exact end_ ▸ Nat.le_succ _

lemma ThrowsOnce.alone (once : block.ThrowsOnce) {before rest s}
    (split : block.stmts = before ++ s :: rest) (throws : s.canThrow = true) :
    (∀ r ∈ before, r.canThrow = false) ∧ rest = [] ∧ block.terminator.isThrow = false := by
  have apart := throwsOnce_iff.1 once
  refine ⟨fun r mem => ?_, ?_, ?_⟩
  · have calm := apart.1
    rw [split, map_append, pairwise_append] at calm
    exact calm.2.2 _ (mem_map_of_mem mem) s.canThrow (by simp)
  · have last := once.last before.length (by rw [throwsAt_of_stmt (s := s) (by simp [split]), throws])
    rw [split, length_append, length_cons] at last
    exact eq_nil_of_length_eq_zero (by omega)
  · rw [Bool.eq_false_iff]
    intro ends
    exact apart.2 ends (by simp [split, throws])

/-- A block with some statements of another, each as throwing as it was there. -/
structure Calmer (block' block : Block) : Prop where
  terminator : block'.terminator.isThrow = block.terminator.isThrow
  stmts : (block'.stmts.map Stmt.canThrow).Sublist (block.stmts.map Stmt.canThrow)

lemma Calmer.refl (block : Block) : block.Calmer block := ⟨rfl, .refl _⟩

lemma Calmer.trans {block'' : Block} (second : block''.Calmer block') (first : block'.Calmer block) :
    block''.Calmer block :=
  ⟨second.terminator.trans first.terminator, second.stmts.trans first.stmts⟩

lemma ThrowsOnce.of_calmer (once : block.ThrowsOnce) (calmer : block'.Calmer block) : block'.ThrowsOnce := by
  rw [throwsOnce_iff] at once ⊢
  refine ⟨once.1.sublist calmer.stmts, fun ends mem => ?_⟩
  exact once.2 (calmer.terminator ▸ ends) (calmer.stmts.subset mem)

end Block

namespace Method

/-- Every block under a trap throws once at most. -/
def ThrowsOnce (m : Method) : Prop :=
  ∀ b block, m.isCovered b = true → m.block? b = some block → block.ThrowsOnce

/-- The blocks of a method that are still under a trap are calmer than before. -/
structure Calmer (m' m : Method) : Prop where
  covered : ∀ b, m'.isCovered b = true → m.isCovered b = true
  blocks : ∀ b block', m'.isCovered b = true → m'.block? b = some block' →
    ∃ block, m.block? b = some block ∧ block'.Calmer block

variable {m m' m'' : Method}

lemma Calmer.refl (m : Method) : m.Calmer m :=
  ⟨fun _ h => h, fun _ block _ at_ => ⟨block, at_, .refl block⟩⟩

lemma Calmer.trans (second : m''.Calmer m') (first : m'.Calmer m) : m''.Calmer m := by
  refine ⟨fun b covered => first.covered b (second.covered b covered), fun b block'' covered at_ => ?_⟩
  obtain ⟨block', at', calmer'⟩ := second.blocks b block'' covered at_
  obtain ⟨block, at_, calmer⟩ := first.blocks b block' (second.covered b covered) at'
  exact ⟨block, at_, calmer'.trans calmer⟩

lemma ThrowsOnce.of_calmer (once : m.ThrowsOnce) (calmer : m'.Calmer m) : m'.ThrowsOnce := by
  intro b block' covered at_
  obtain ⟨block, at', calmer'⟩ := calmer.blocks b block' covered at_
  exact (once b block (calmer.covered b covered) at').of_calmer calmer'

lemma Calmer.of_same_traps (traps : m'.traps = m.traps)
    (blocks : ∀ b block', m.isCovered b = true → m'.block? b = some block' →
      ∃ block, m.block? b = some block ∧ block'.Calmer block) : m'.Calmer m := by
  have same (b : BlockId) : m'.isCovered b = m.isCovered b := by rw [isCovered, isCovered, traps]
  exact ⟨fun b covered => same b ▸ covered, fun b block' covered => blocks b block' (same b ▸ covered)⟩

lemma Calmer.mapBlocks {f} (calmer : ∀ b block, (f b block).Calmer block) : (m.mapBlocks f).Calmer m := by
  refine .of_same_traps rfl fun b block' _ at_ => ?_
  rw [block?_mapBlocks, Option.map_eq_some_iff] at at_
  obtain ⟨block, at_, rfl⟩ := at_
  exact ⟨block, at_, calmer b block⟩

lemma Calmer.modifyBlock {c f}
    (calmer : m.isCovered c = true → ∀ block, m.block? c = some block → (f block).Calmer block) :
    (m.modifyBlock c f).Calmer m := by
  refine .of_same_traps rfl fun b block' covered at_ => ?_
  rw [block?_modifyBlock] at at_
  split at at_
  · rename_i same
    subst same
    obtain ⟨block, found, rfl⟩ := Option.map_eq_some_iff.1 at_
    exact ⟨block, found, calmer covered block found⟩
  · exact ⟨block', at_, .refl block'⟩

lemma Calmer.setBlock {c block} (inside : c.index < m.blocks.size)
    (calmer : m.isCovered c = true → ∃ before, m.block? c = some before ∧ block.Calmer before) :
    (m.setBlock c block).Calmer m := by
  refine .of_same_traps rfl fun b block' covered at_ => ?_
  rw [block?_setBlock inside] at at_
  split at at_
  · rename_i same
    cases at_
    exact same ▸ calmer (same ▸ covered)
  · exact ⟨block', at_, .refl block'⟩

lemma Calmer.eraseBlock {c} : (m.eraseBlock c).Calmer m := by
  refine .of_same_traps rfl fun b block' _ at_ => ?_
  rw [block?_eraseBlock] at at_
  split at at_
  · cases at_
  · exact ⟨block', at_, .refl block'⟩

lemma Calmer.substitute (σ : Substitution) : (m.substitute σ).Calmer m := by
  refine .of_same_traps (substitute_traps m σ) fun b block' _ at_ => ?_
  rw [block?_substitute, Option.map_eq_some_iff] at at_
  obtain ⟨block, at_, rfl⟩ := at_
  refine ⟨block, at_, ?_, ?_⟩
  · simp [Block.mapValues]
  · simp [Block.mapValues, Function.comp_def]

lemma Calmer.pruneEdges : m.pruneEdges.Calmer m := by
  refine ⟨fun b covered => ?_, fun b block' _ at_ => ?_⟩
  · obtain ⟨t, mem, among⟩ := isCovered_iff.1 covered
    obtain ⟨⟨t', mem', rfl⟩, -⟩ := mem_pruneEdges_traps.1 mem
    exact isCovered_iff.2 ⟨t', mem', (mem_filter.1 among).1⟩
  · rw [block?_pruneEdges, Option.map_eq_some_iff] at at_
    obtain ⟨block, at_, rfl⟩ := at_
    exact ⟨block, at_, rfl, .refl _⟩

lemma Calmer.restrict {kept} : (m.restrict kept).Calmer m := by
  refine .of_same_traps rfl fun b block' _ at_ => ?_
  rw [block?_restrict] at at_
  split at at_
  · exact ⟨block', at_, .refl block'⟩
  · cases at_

lemma Calmer.removeUnreachable : m.removeUnreachable.1.Calmer m := by
  rw [removeUnreachable_eq]
  split
  · exact .refl m
  · exact Calmer.pruneEdges.trans .restrict

end Method

end Restack.Ir
