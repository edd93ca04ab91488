/-
# Looking blocks up after a change

How `block?` sees each change to the blocks of a method. Everything said of a
method's blocks is said through `block?`: the lists of blocks hold just what it
finds (`mem_blockList`, `mem_numbered`). Pruning trims phis to the predecessors
and traps to the blocks that exist.
-/
import Restack.Proofs.Ir.Substitution
import Restack.Proofs.Ir.Values

namespace Restack.Ir

open List

lemma BlockId.index_injective {b c : BlockId} (same : b.index = c.index) : b = c := by
  cases b
  cases c
  simpa using same

/-- Drops the operands of a phi that come from elsewhere than the given sources. -/
def Phi.trim (sources : List BlockId) (p : Phi) : Phi :=
  { p with operands := p.operands.filter fun o => sources.contains o.1 }

namespace Method

variable {m : Method} {b c : BlockId} {block : Block}

lemma index_lt_of_block? (found : m.block? b = some block) : b.index < m.blocks.size := by
  by_contra outside
  rw [block?, Array.getElem?_eq_none (Nat.le_of_not_lt outside)] at found
  cases found

/-- The class of a method and its parameters. -/
def head (m : Method) : String × Array String := (m.owner, m.params)

/-- The phis of a block, none where there is no block. -/
def phisOf (m : Method) (b : BlockId) : List Phi := ((m.block? b).map (·.phis)).getD []

lemma mem_phisOf {p} (merged : p ∈ m.phisOf b) : ∃ block, m.block? b = some block ∧ p ∈ block.phis := by
  rw [phisOf] at merged
  cases here : m.block? b with
  | none => simp [here] at merged
  | some block => exact ⟨block, rfl, by simpa [here] using merged⟩

lemma phisOf_eq (here : m.block? b = some block) : m.phisOf b = block.phis := by
  rw [phisOf, here]
  rfl

lemma isHandler_iff : m.isHandler b = true ↔ ∃ trap ∈ m.traps, ∃ h ∈ trap.handlers, h.target = b := by
  simp only [isHandler, any_eq_true, beq_iff_eq]

lemma isCovered_iff : m.isCovered b = true ↔ ∃ trap ∈ m.traps, b ∈ trap.covered := by
  simp only [isCovered, any_eq_true, contains_iff_mem]

lemma block?_modifyBlock (f : Block → Block) :
    (m.modifyBlock b f).block? c = if c = b then (m.block? c).map f else m.block? c := by
  simp only [block?, modifyBlock, Array.getElem?_modify]
  by_cases same : c = b
  · subst same
    rw [if_pos rfl, if_pos rfl]
    cases m.blocks[c.index]? with
    | none => rfl
    | some cell => cases cell <;> rfl
  · rw [if_neg same, if_neg fun h => same (BlockId.index_injective h.symm)]

lemma block?_setBlock (inside : b.index < m.blocks.size) :
    (m.setBlock b block).block? c = if c = b then some block else m.block? c := by
  simp only [block?, setBlock]
  by_cases same : c = b
  · subst same
    simp [inside]
  · rw [if_neg same, Array.getElem?_setIfInBounds_ne]
    exact fun h => same (BlockId.index_injective h.symm)

lemma setBlock_cases {new} (here : (m.setBlock b new).block? c = some block) :
    block = new ∨ m.block? c = some block := by
  by_cases inside : b.index < m.blocks.size
  · rw [block?_setBlock inside] at here
    split at here
    · exact .inl (Option.some.inj here).symm
    · exact .inr here
  · rw [setBlock, Array.setIfInBounds_eq_of_size_le (Nat.le_of_not_lt inside)] at here
    exact .inr here

lemma block?_eraseBlock : (m.eraseBlock b).block? c = if c = b then none else m.block? c := by
  simp only [block?, eraseBlock]
  by_cases same : c = b
  · subst same
    rw [if_pos rfl, Array.getElem?_setIfInBounds, if_pos rfl]
    split <;> rfl
  · rw [if_neg same, Array.getElem?_setIfInBounds_ne]
    exact fun h => same (BlockId.index_injective h.symm)

lemma block?_mapBlocks (f : BlockId → Block → Block) : (m.mapBlocks f).block? b = (m.block? b).map (f b) := by
  simp only [block?, mapBlocks, Array.getElem?_mapIdx]
  cases m.blocks[b.index]? with
  | none => rfl
  | some cell => cases cell <;> rfl

lemma block?_substitute (σ : Substitution) :
    (m.substitute σ).block? b = (m.block? b).map (Block.mapValues σ.resolve) := by
  rw [substitute]
  split
  · rename_i empty
    have nil : σ = [] := isEmpty_iff.1 empty
    have same (v : Value) : Substitution.resolve [] v = v := by cases v <;> rfl
    subst nil
    cases m.block? b with
    | none => rfl
    | some block => rw [Option.map_some, Block.mapValues_id same]
  · exact block?_mapBlocks _

section Substitute

variable (m) (σ : Substitution)

@[simp] lemma substitute_layout : (m.substitute σ).layout = m.layout := by
  rw [substitute]
  split <;> rfl

@[simp] lemma substitute_entry : (m.substitute σ).entry = m.entry := by
  rw [substitute]
  split <;> rfl

@[simp] lemma substitute_traps : (m.substitute σ).traps = m.traps := by
  rw [substitute]
  split <;> rfl

@[simp] lemma substitute_locals : (m.substitute σ).locals = m.locals := by
  rw [substitute]
  split <;> rfl

@[simp] lemma substitute_size : (m.substitute σ).blocks.size = m.blocks.size := by
  rw [substitute]
  split
  · rfl
  · simp [mapValues, mapBlocks]

end Substitute

lemma mem_numbered : (b, block) ∈ m.numbered ↔ m.block? b = some block := by
  simp only [numbered, mem_filterMap, Prod.exists, Option.map_eq_some_iff, Prod.mk.injEq,
    mk_mem_zipIdx_iff_getElem?, Array.getElem?_toList, block?, Option.join_eq_some_iff]
  constructor
  · rintro ⟨cell, i, at_, block', rfl, rfl, rfl⟩
    exact at_
  · intro at_
    exact ⟨_, b.index, at_, block, rfl, rfl, rfl⟩

lemma mem_blockList : block ∈ m.blockList ↔ ∃ b, m.block? b = some block := by
  simp only [blockList, mem_filterMap, block?, Option.join_eq_some_iff]
  constructor
  · rintro ⟨_, mem, rfl⟩
    obtain ⟨i, at_⟩ := getElem?_of_mem mem
    exact ⟨⟨i⟩, by simpa using at_⟩
  · rintro ⟨b, at_⟩
    exact ⟨_, mem_of_getElem? (by simpa using at_), rfl⟩

lemma exists_mem_blockList {P : Block → Prop} :
    (∃ block ∈ m.blockList, P block) ↔ ∃ b block, m.block? b = some block ∧ P block := by
  simp only [mem_blockList]
  constructor
  · rintro ⟨block, ⟨b, here⟩, holds⟩
    exact ⟨b, block, here, holds⟩
  · rintro ⟨b, block, here, holds⟩
    exact ⟨block, ⟨b, here⟩, holds⟩

lemma mem_stmts {s} : s ∈ m.stmts ↔ ∃ b block, m.block? b = some block ∧ s ∈ block.stmts := by
  rw [stmts, mem_flatMap, exists_mem_blockList]

lemma block?_pruneEdges : m.pruneEdges.block? b = (m.block? b).map fun block =>
    { block with phis := block.phis.map (Phi.trim (m.predecessors b)) } := by
  have same : m.pruneEdges.block? b = (m.mapBlocks fun b block => if block.phis.isEmpty then block
      else { block with phis := block.phis.map (Phi.trim (m.predecessors b)) }).block? b := rfl
  rw [same, block?_mapBlocks]
  cases m.block? b with
  | none => rfl
  | some block =>
    simp only [Option.map_some]
    split
    · rename_i empty
      rw [isEmpty_iff.1 empty, map_nil, ← isEmpty_iff.1 empty]
    · rfl

@[simp] lemma pruneEdges_layout : m.pruneEdges.layout = m.layout := rfl

@[simp] lemma pruneEdges_entry : m.pruneEdges.entry = m.entry := rfl

/-- A trap with the blocks and handlers that exist. -/
def trimTrap (m : Method) (t : Trap) : Trap where
  covered := t.covered.filter fun b => (m.block? b).isSome
  handlers := t.handlers.filter fun h => (m.block? h.target).isSome

lemma mem_pruneEdges_traps {t} : t ∈ m.pruneEdges.traps ↔
    (∃ t' ∈ m.traps, m.trimTrap t' = t) ∧ t.covered ≠ [] ∧ t.handlers ≠ [] := by
  change t ∈ (m.traps.map m.trimTrap).filter _ ↔ _
  simp [mem_filter]

/-- A method without all blocks but some. -/
def restrict (m : Method) (kept : List BlockId) : Method :=
  { m with
    blocks := m.blocks.mapIdx fun i cell => if kept.contains ⟨i⟩ then cell else none
    layout := m.layout.filter kept.contains }

lemma block?_restrict {kept} : (m.restrict kept).block? b = if b ∈ kept then m.block? b else none := by
  simp only [block?, restrict, Array.getElem?_mapIdx]
  by_cases mem : b ∈ kept
  · simp [mem]
  · cases m.blocks[b.index]? <;> simp [mem]

lemma removeUnreachable_eq : m.removeUnreachable.1 =
    if m.reachable.length == m.blockList.length then m else (m.restrict m.reachable).pruneEdges := by
  rw [removeUnreachable]
  split <;> rfl

end Method

end Restack.Ir
