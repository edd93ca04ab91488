/-
# Rewriting statement by statement

Several passes go through the blocks and rewrite statements and operands where
they stand (`Rewrites`). Edges and paths are then those of the method before,
without the dropped definitions, and what is left to show for a pass is that
operands are replaced by what is defined there (`Rewrites.sound`).
-/
import Restack.Proofs.Ir.Valid

namespace Restack.Ir

open List

/-- A block rewritten: `g` rewrites or drops its statements, `keep` tells the
locals whose definitions stay, and `R` relates an operand to what replaces it. -/
structure Block.Rewritten (g : Stmt → Option Stmt) (keep : Local → Bool) (R : Value → Value → Prop)
    (block block' : Block) : Prop where
  stmts : block'.stmts = block.stmts.filterMap g
  calm : ∀ s ∈ block.stmts, g s = none → s.canThrow = false
  canThrow : ∀ s ∈ block.stmts, ∀ s', g s = some s' → s'.canThrow = s.canThrow
  def? : ∀ s ∈ block.stmts, (g s).bind Stmt.def? = s.def?.filter keep
  values : ∀ s ∈ block.stmts, ∀ s', g s = some s' → ∀ v' ∈ s'.values, ∃ v ∈ s.values, R v v'
  successors : block'.terminator.successors = block.terminator.successors
  isThrow : block'.terminator.isThrow = block.terminator.isThrow
  terminator : ∀ v' ∈ block'.terminator.values, ∃ v ∈ block.terminator.values, R v v'
  phis : block'.phis.map (·.dst) = (block.phis.map (·.dst)).filter keep
  operands : ∀ p' ∈ block'.phis, ∃ p ∈ block.phis,
    p'.operands.map (·.1) = p.operands.map (·.1) ∧
      ∀ q v', (q, v') ∈ p'.operands → ∃ v, (q, v) ∈ p.operands ∧ R v v'

variable {g : Stmt → Option Stmt} {keep : Local → Bool} {R : Value → Value → Prop}

section Block

variable {block block' : Block} (rewritten : block.Rewritten g keep R block')

include rewritten

namespace Block.Rewritten

lemma canThrow_eq : block'.canThrow = block.canThrow := by
  rw [Block.canThrow, rewritten.isThrow, rewritten.stmts]
  congr 1
  rw [Bool.eq_iff_iff, any_eq_true, any_eq_true]
  constructor
  · rintro ⟨s', mem, throws⟩
    obtain ⟨s, among, made⟩ := mem_filterMap.1 mem
    exact ⟨s, among, rewritten.canThrow s among s' made ▸ throws⟩
  · rintro ⟨s, mem, throws⟩
    cases made : g s with
    | none =>
      rw [rewritten.calm s mem made] at throws
      cases throws
    | some s' =>
      exact ⟨s', mem_filterMap.2 ⟨s, mem, made⟩, (rewritten.canThrow s mem s' made).trans throws⟩

lemma defined_eq {before rest} (split : block.stmts = before ++ rest) :
    defined (before.filterMap g) = (defined before).filter keep := by
  have among : ∀ s ∈ before, s ∈ block.stmts := fun s mem => split ▸ mem_append_left _ mem
  clear split
  induction before with
  | nil => rfl
  | cons s before ih =>
    have head := rewritten.def? s (among s mem_cons_self)
    have tail := ih fun t mem => among t (mem_cons_of_mem _ mem)
    have step (s : Stmt) (stmts : List Stmt) : defined (s :: stmts) = s.def?.toList ++ defined stmts := by
      rw [defined, filterMap_cons]
      cases s.def? <;> rfl
    rw [step, filter_append, ← tail, filterMap_cons]
    cases made : g s with
    | none =>
      rw [made] at head
      cases found : s.def? with
      | none => rfl
      | some l =>
        rw [found] at head
        have out : keep l = false := by
          by_contra kept
          simp [Option.filter, kept] at head
        simp [out]
    | some s' =>
      rw [made] at head
      simp only [step]
      congr 1
      change s'.def? = _ at head
      rw [head]
      cases s.def? with
      | none => rfl
      | some l => by_cases kept : keep l = true <;> simp [Option.filter, kept]

lemma split {before' rest' s'} (at_ : block'.stmts = before' ++ s' :: rest') :
    ∃ before s rest, block.stmts = before ++ s :: rest ∧ before' = before.filterMap g ∧ g s = some s' := by
  rw [rewritten.stmts, filterMap_eq_append_iff] at at_
  obtain ⟨first, second, split, rfl, made⟩ := at_
  obtain ⟨skipped, s, rest, rfl, none_, here, -⟩ := filterMap_eq_cons_iff.1 made
  refine ⟨first ++ skipped, s, rest, by rw [split, append_assoc], ?_, here⟩
  rw [filterMap_append, filterMap_eq_nil_iff.2 none_, append_nil]

lemma defs_sublist : block'.defs.Sublist block.defs := by
  rw [Block.defs, Block.defs, rewritten.phis, rewritten.stmts, rewritten.defined_eq (append_nil _).symm]
  exact filter_sublist.append filter_sublist

end Block.Rewritten

end Block

namespace Method

/-- A method whose blocks are rewritten where they stand. -/
structure Rewrites (m m' : Method) (g : Stmt → Option Stmt) (keep : Local → Bool)
    (R : Value → Value → Prop) : Prop where
  layout : m'.layout = m.layout
  entry : m'.entry = m.entry
  traps : m'.traps = m.traps
  locals : m'.locals.size = m.locals.size
  exists_ : ∀ b, (m'.block? b).isSome = (m.block? b).isSome
  blocks : ∀ b block', m'.block? b = some block' →
    ∃ block, m.block? b = some block ∧ block.Rewritten g keep R block'

namespace Rewrites

variable {m m' : Method} (rewrites : Rewrites m m' g keep R)

lemma of_mapBlocks {f : BlockId → Block → Block}
    (each : ∀ b block, m.block? b = some block → block.Rewritten g keep R (f b block)) :
    Rewrites m (m.mapBlocks f) g keep R where
  layout := rfl
  entry := rfl
  traps := rfl
  locals := rfl
  exists_ b := by rw [block?_mapBlocks, Option.isSome_map]
  blocks b block' here := by
    rw [block?_mapBlocks, Option.map_eq_some_iff] at here
    obtain ⟨block, here, rfl⟩ := here
    exact ⟨block, here, each b block here⟩

include rewrites

lemma edge (p t : BlockId) : m'.Edge p t ↔ m.Edge p t := by
  constructor
  · rintro ⟨block', here', leads⟩
    obtain ⟨block, here, rewritten⟩ := rewrites.blocks p block' here'
    rw [rewritten.successors, rewritten.canThrow_eq, rewrites.traps] at leads
    exact ⟨block, here, leads⟩
  · rintro ⟨block, here, leads⟩
    obtain ⟨block', here'⟩ := Option.isSome_iff_exists.1
      ((rewrites.exists_ p).trans (by rw [here]; rfl))
    obtain ⟨_, found, rewritten⟩ := rewrites.blocks p block' here'
    rw [here] at found
    cases found
    refine ⟨block', here', ?_⟩
    rw [rewritten.successors, rewritten.canThrow_eq, rewrites.traps]
    exact leads

lemma leaves {b t block block' before'} (here : m.block? b = some block) (here' : m'.block? b = some block')
    (rewritten : block.Rewritten g keep R block') (leaves : m'.Leaves b block' before' t) :
    ∃ before, before' = before.filterMap g ∧ m.Leaves b block before t := by
  have caught {t : BlockId} (leads : t ∈ m'.exceptionalSuccessors b) : t ∈ m.exceptionalSuccessors b := by
    rw [mem_exceptionalSuccessors here', rewritten.canThrow_eq, rewrites.traps] at leads
    exact (mem_exceptionalSuccessors here).2 leads
  cases leaves with
  | jump leads =>
    rw [rewritten.stmts]
    exact ⟨_, rfl, .jump (rewritten.successors ▸ leads)⟩
  | raise split throws leads =>
    obtain ⟨before, s, rest, at_, rfl, made⟩ := rewritten.split split
    have mem : s ∈ block.stmts := by simp [at_]
    exact ⟨before, rfl, .raise at_ ((rewritten.canThrow s mem _ made).symm.trans throws) (caught leads)⟩
  | throw throws leads =>
    rw [rewritten.stmts]
    exact ⟨_, rfl, .throw (rewritten.isThrow.symm.trans throws) (caught leads)⟩

lemma enters {b passed'} (entered : m'.Enters b passed') :
    ∃ passed, m.Enters b passed ∧ passed' = passed.filter keep := by
  induction entered with
  | start => exact ⟨[], rewrites.entry ▸ .start, rfl⟩
  | next _ here' leaves' there' ih =>
    obtain ⟨passed, entered, rfl⟩ := ih
    obtain ⟨block, here, rewritten⟩ := rewrites.blocks _ _ here'
    obtain ⟨target, there, rewritten'⟩ := rewrites.blocks _ _ there'
    obtain ⟨before, rfl, leaves⟩ := rewrites.leaves here here' rewritten leaves'
    obtain ⟨rest, split⟩ := leaves.split
    refine ⟨_, .next entered here leaves there, ?_⟩
    rw [filter_append, filter_append, rewritten'.phis, rewritten.defined_eq split]

lemma reads {b block block' before' v'} (here : m.block? b = some block) (here' : m'.block? b = some block')
    (rewritten : block.Rewritten g keep R block') (reads : m'.Reads b block' before' v') :
    ∃ before v, (∃ rest, block.stmts = before ++ rest) ∧ before' = before.filterMap g ∧
      m.Reads b block before v ∧ R v v' := by
  cases reads with
  | stmt split operand =>
    obtain ⟨before, s, rest, at_, rfl, made⟩ := rewritten.split split
    obtain ⟨v, mem, related⟩ := rewritten.values s (by simp [at_]) _ made v' operand
    exact ⟨before, v, ⟨_, at_⟩, rfl, .stmt at_ mem, related⟩
  | terminator operand =>
    obtain ⟨v, mem, related⟩ := rewritten.terminator v' operand
    exact ⟨block.stmts, v, ⟨[], (append_nil _).symm⟩, rewritten.stmts, .terminator mem, related⟩
  | phi leaves' there' merged operand =>
    obtain ⟨before, rfl, leaves⟩ := rewrites.leaves here here' rewritten leaves'
    obtain ⟨target, there, rewritten'⟩ := rewrites.blocks _ _ there'
    obtain ⟨p, mem, -, values⟩ := rewritten'.operands _ merged
    obtain ⟨v, operand', related⟩ := values b v' operand
    exact ⟨before, v, leaves.split, rfl, .phi leaves there mem operand', related⟩

/-- A rewritten method is sound where operands are replaced by locals that are
defined there and stay. -/
lemma sound (sound : m.Sound)
    (uses : ∀ b passed block before v l, m.Enters b passed → m.block? b = some block →
      m.Reads b block before v → R v (.var l) → l ∈ defined before ++ passed ∧ keep l = true) : m'.Sound := by
  refine {
    layout_nodup := rewrites.layout ▸ sound.layout_nodup
    mem_layout := fun b => by rw [rewrites.layout, rewrites.exists_, sound.mem_layout]
    entry := by rw [rewrites.entry, rewrites.exists_, sound.entry]
    edges := fun p t leads => by
      rw [rewrites.exists_]
      exact sound.edges p t ((rewrites.edge p t).1 leads)
    toDefining := sound.toDefining.of_sublist rewrites.locals fun b block' here' => ?_
    toMerging := sound.toMerging.sub (fun p t => (rewrites.edge p t).1) fun b block' p' here' mem => ?_
    uses := fun b passed' block' before' l entered' here' reads' => ?_
    handlers := fun trap mem h handler => ?_
    phis_edge := fun b block' p' q here' mem operand => ?_ }
  · obtain ⟨block, here, rewritten⟩ := rewrites.blocks b block' here'
    exact ⟨block, here, rewritten.defs_sublist⟩
  · obtain ⟨block, here, rewritten⟩ := rewrites.blocks b block' here'
    obtain ⟨p, among, keys, -⟩ := rewritten.operands p' mem
    exact ⟨block, p, here, among, keys⟩
  · obtain ⟨block, here, rewritten⟩ := rewrites.blocks b block' here'
    obtain ⟨passed, entered, rfl⟩ := rewrites.enters entered'
    obtain ⟨before, v, ⟨rest, split⟩, rfl, reads, related⟩ := rewrites.reads here here' rewritten reads'
    rw [rewritten.defined_eq split, ← filter_append, mem_filter]
    exact uses b passed block before v l entered here reads related
  · rw [rewrites.exists_]
    exact sound.handlers trap (rewrites.traps ▸ mem) h handler
  · obtain ⟨block, here, rewritten⟩ := rewrites.blocks b block' here'
    obtain ⟨p, among, keys, -⟩ := rewritten.operands p' mem
    exact (rewrites.edge q b).2 (sound.phis_edge b block p q here among (keys ▸ operand))

lemma reached {b} (reached : m.Reached b) : m'.Reached b :=
  reached.mono rewrites.entry (fun c found => (rewrites.exists_ c).trans found)
    fun p t _ leads => (rewrites.edge p t).2 leads

end Rewrites

end Method

end Restack.Ir
