/-
# Dead code goes in one sweep

What spreading finds live is the least set that holds what is demanded and is closed under
reads (`isLive_least`), so the same locals are live behind a sweep (`isLive_sweep`), and
another sweep finds nothing to do. The blocks that are left are all reached and their
phis and traps name what is there (`removeDead_again`).
-/
import Restack.Proofs.Pass.DeadRuns

namespace Restack.Ir.Method

open List

variable {m : Method}

lemma mapBlocks_eq_self {f}
    (same : ∀ b block, m.block? b = some block → f b block = block) : m.mapBlocks f = m := by
  have blocks : m.blocks.mapIdx (fun i cell => cell.map (f ⟨i⟩)) = m.blocks := by
    refine Array.ext (by simp) fun i _ small => ?_
    rw [Array.getElem_mapIdx]
    cases cell : m.blocks[i] with
    | none => rfl
    | some block =>
      have here : m.block? ⟨i⟩ = some block := by
        rw [block?, Array.getElem?_eq_getElem small, cell]
        rfl
      rw [Option.map_some, same ⟨i⟩ block here]
  rw [mapBlocks, blocks]

lemma removeUnreachable_eq_self (entry : (m.block? m.entry).isSome = true) (edges : m.EdgesLand)
    (reached : m.AllReached) : m.removeUnreachable = (m, false) := by
  have distinct : (m.numbered.map (·.1)).Nodup := by
    rw [Nodup, pairwise_map]
    exact numbered_distinct
  have perm : m.reachable.Perm (m.numbered.map (·.1)) := by
    rw [perm_ext_iff_of_nodup reachable_searched.nodup distinct]
    intro b
    rw [mem_reachable entry edges]
    constructor
    · intro path
      have mem := (mem_reachable entry edges).2 path
      obtain ⟨block, here⟩ := Option.isSome_iff_exists.1 (reachable_searched.exists_ b mem)
      exact mem_map.2 ⟨(b, block), mem_numbered.2 here, rfl⟩
    · intro mem
      obtain ⟨⟨_, block⟩, numbered, rfl⟩ := mem_map.1 mem
      exact reached _ (by rw [mem_numbered.1 numbered]; rfl)
  have full : m.reachable.length = m.blockList.length := by
    rw [perm.length_eq, blockList_eq, length_map, length_map]
  exact if_pos (by simpa using full)

/-- Where phis and traps name what is there, nothing is pruned. -/
lemma pruneEdges_eq_self (phis : ∀ b block p o, m.block? b = some block → p ∈ block.phis → o ∈ p.operands →
      o.1 ∈ m.predecessors b) (traps : ∀ trap ∈ m.traps, trap.covered ≠ [] ∧ trap.handlers ≠ [] ∧
      (∀ b ∈ trap.covered, (m.block? b).isSome = true) ∧
      ∀ h ∈ trap.handlers, (m.block? h.target).isSome = true) : m.pruneEdges = m := by
  have blocks : (m.mapBlocks fun b block => if block.phis.isEmpty then block else
      { block with phis := block.phis.map (Phi.trim (m.predecessors b)) }) = m := by
    refine mapBlocks_eq_self fun b block here => ?_
    have same : block.phis.map (Phi.trim (m.predecessors b)) = block.phis := by
      refine (map_congr_left fun p merged => ?_).trans (map_id _)
      have all : p.operands.filter (fun o => (m.predecessors b).contains o.1) = p.operands :=
        filter_eq_self.2 fun o taken => contains_iff_mem.2 (phis b block p o here merged taken)
      rw [Phi.trim, all]
      rfl
    rw [same]
    split <;> rfl
  have kept : (m.traps.map m.trimTrap).filter (fun t => !t.covered.isEmpty && !t.handlers.isEmpty) =
      m.traps := by
    have same : m.traps.map m.trimTrap = m.traps := by
      refine (map_congr_left fun trap mem => ?_).trans (map_id _)
      obtain ⟨-, -, covered, handlers⟩ := traps trap mem
      rw [trimTrap, filter_eq_self.2 covered, filter_eq_self.2 handlers]
      rfl
    rw [same, filter_eq_self]
    intro trap mem
    obtain ⟨covered, handlers, -⟩ := traps trap mem
    simp [covered, handlers]
  have form : m.pruneEdges = { m.mapBlocks fun b block => if block.phis.isEmpty then block else
      { block with phis := block.phis.map (Phi.trim (m.predecessors b)) } with
    traps := (m.traps.map m.trimTrap).filter fun t => !t.covered.isEmpty && !t.handlers.isEmpty } := rfl
  rw [form, blocks, kept]

end Restack.Ir.Method

namespace Restack.Pass

open List Ir

variable {m : Method}

/-! ## Nothing else is live -/

lemma collect_mem {reads pairs i k} (mem : k ∈ (collect reads pairs).getD i []) :
    k ∈ reads.getD i [] ∨ ∃ l ls, (l, ls) ∈ pairs ∧ l.index = i ∧ k ∈ ls := by
  induction pairs generalizing reads with
  | nil => exact .inl mem
  | cons p pairs ih =>
    obtain ⟨l, ls⟩ := p
    have later : k ∈ (collect (reads.modify l.index (· ++ ls)) pairs).getD i [] := mem
    rcases ih later with old | ⟨l', ls', among, same, read⟩
    · rw [Array.getD_eq_getD_getElem?, Array.getElem?_modify] at old
      rw [Array.getD_eq_getD_getElem?]
      split at old
      · rename_i same
        cases found : reads[i]? with
        | none =>
          rw [found] at old
          exact .inl old
        | some ks =>
          rw [found] at old
          rcases mem_append.1 old with old | new
          · exact .inl old
          · exact .inr ⟨l, ls, mem_cons_self, same, new⟩
      · exact .inl old
    · exact .inr ⟨l', ls', mem_cons_of_mem _ among, same, read⟩

/-- Whatever holds of what is demanded and of what live locals read holds of all that is live. -/
lemma isLive_least {S : Local → Prop} (demands : ∀ l ∈ demanded m, l.index < m.locals.size → S l)
    (closed : ∀ l ls, (l, ls) ∈ pureReads m → S l → ∀ k ∈ ls, k.index < m.locals.size → S k)
    {l} (live : isLive m l = true) : S l := by
  obtain ⟨fuel, -, same⟩ := liveLocals_eq (m := m)
  rw [isLive, same] at live
  refine (spreading_lawful _ m.locals.size).least Array.size_replicate (fun i on k read small => ?_)
    demands (fun i on => ?_) l live
  · rcases collect_mem read with none_ | ⟨⟨_⟩, ls, among, rfl, taken⟩
    · rw [Array.getD_eq_getD_getElem?, Array.getElem?_replicate] at none_
      split at none_ <;> cases none_
    · exact closed i ls among on k taken small
  · rw [Array.getD_eq_getD_getElem?, Array.getElem?_replicate] at on
    split at on <;> cases on

/-! ## The same locals are live behind a sweep -/

/-- An expression is evaluated for its effect only if it has one. -/
def Effective : Stmt → Prop
  | .effect e => e.isPure = false
  | _ => True

lemma stable_effective : Stable Effective where
  withValues s vs has := by
    cases s with
    | assign => trivial
    | effect e => exact (Expr.isPure_withValues e vs).trans has
    | _ =>
      unfold Stmt.withValues
      split <;> trivial
  effect _ _ impure _ := impure
  copy _ _ := trivial
  object _ _ _ _ := trivial
  literal _ _ _ := trivial
  allocation _ _ _ _ := trivial

lemma trimmed_demanding (live : Local → Bool) {s} (effective : Effective s) (effect : isPureDef s = false) :
    ∃ s', trimmed live s = some s' ∧ s'.values = s.values ∧ isPureDef s' = false := by
  cases s with
  | assign dst e =>
    have impure : e.isPure = false := effect
    by_cases on : live dst = true
    · exact ⟨_, if_pos on, rfl, effect⟩
    · exact ⟨.effect e, by simp [trimmed, on, impure], rfl, rfl⟩
  | effect e => exact ⟨.effect e, if_neg (by rw [show e.isPure = false from effective]; simp), rfl, rfl⟩
  | _ => exact ⟨_, rfl, rfl, rfl⟩

lemma mem_blockList_sweep {block} (listed : block ∈ m.blockList) : swept m block ∈ (sweep m).blockList := by
  obtain ⟨b, here⟩ := Method.mem_blockList.1 listed
  exact Method.mem_blockList.2 ⟨b, by rw [block?_sweep, here]; rfl⟩

lemma demanded_sweep (effective : m.Each Effective) {l} (mem : l ∈ demanded m) : l ∈ demanded (sweep m) := by
  rw [mem_demanded] at mem ⊢
  obtain ⟨block, listed, read⟩ := mem
  obtain ⟨b, here⟩ := Method.mem_blockList.1 listed
  refine ⟨swept m block, mem_blockList_sweep listed, read.imp_left ?_⟩
  rintro ⟨s, old, effect, operand⟩
  obtain ⟨s', made, values, effect'⟩ := trimmed_demanding (isLive m) (effective b block here s old) effect
  exact ⟨s', mem_filterMap.2 ⟨s, old, made⟩, effect', values ▸ operand⟩

lemma pureReads_sweep {l ls} (mem : (l, ls) ∈ pureReads m)
    (live : isLive m l = true) : (l, ls) ∈ pureReads (sweep m) := by
  rw [mem_pureReads] at mem ⊢
  obtain ⟨block, listed, found⟩ := mem
  refine ⟨swept m block, mem_blockList_sweep listed, found.imp ?_ ?_⟩
  · rintro ⟨p, merged, rfl, reads⟩
    exact ⟨p, mem_filter.2 ⟨merged, live⟩, rfl, reads⟩
  · rintro ⟨e, old, defines⟩
    exact ⟨e, mem_filterMap.2 ⟨_, old, if_pos live⟩, defines⟩

lemma isLive_sweep (effective : m.Each Effective) {l} (live : isLive m l = true) :
    isLive (sweep m) l = true := by
  refine (isLive_least (S := fun l => isLive m l = true ∧ isLive (sweep m) l = true)
    (fun l mem small => ⟨isLive_of_demanded mem small,
      isLive_of_demanded (demanded_sweep effective mem) small⟩) ?_ live).2
  intro l ls reads on k read small
  exact ⟨isLive_of_reads reads on.1 read small, isLive_of_reads (pureReads_sweep reads on.1) on.2 read small⟩

lemma kept_of_sweep (effective : m.Each Effective) {b block} (here : (sweep m).block? b = some block) :
    (∀ p ∈ block.phis, isLive (sweep m) p.dst = true) ∧
      ∀ s ∈ block.stmts, isKept (isLive (sweep m)) s = true := by
  rw [block?_sweep, Option.map_eq_some_iff] at here
  obtain ⟨old, here, rfl⟩ := here
  refine ⟨fun p merged => isLive_sweep effective (mem_filter.1 merged).2, fun s mem => ?_⟩
  obtain ⟨s', among, made⟩ := mem_filterMap.1 mem
  rcases trimmed_eq_some made with ⟨rfl, kept⟩ | ⟨dst, e, rfl, rfl, impure⟩
  · cases s with
    | assign dst e => exact isLive_sweep effective kept
    | _ => exact kept
  · simp [isKept, impure]

lemma trimmed_of_kept {live s} (kept : isKept live s = true) : trimmed live s = some s := by
  cases s with
  | assign dst e => exact if_pos kept
  | effect e => exact if_neg (by simpa [isKept] using kept)
  | _ => rfl

lemma sweep_again (effective : m.Each Effective) : sweep (sweep m) = sweep m := by
  refine Method.mapBlocks_eq_self fun b block here => ?_
  obtain ⟨phis, stmts⟩ := kept_of_sweep effective here
  have same : block.stmts.filterMap (trimmed (isLive (sweep m))) = block.stmts := by
    rw [filterMap_congr fun s mem => trimmed_of_kept (stmts s mem), filterMap_some]
  rw [filter_eq_self.2 phis, same]

lemma mem_uses_of_isLive {l} (live : isLive m l = true) : l ∈ m.uses := by
  refine isLive_least (S := (· ∈ m.uses)) (fun l mem _ => ?_) (fun l ls reads _ k read _ => ?_) live
  · obtain ⟨block, listed, read⟩ := mem_demanded.1 mem
    refine mem_flatMap.2 ⟨block, listed, ?_⟩
    rw [mem_localsOf, append_assoc, mem_append, mem_append]
    refine .inr (read.imp_left ?_)
    rintro ⟨s, among, -, operand⟩
    exact mem_flatMap.2 ⟨s, among, operand⟩
  · obtain ⟨block, listed, found⟩ := mem_pureReads.1 reads
    refine mem_flatMap.2 ⟨block, listed, ?_⟩
    rw [mem_localsOf, mem_append, mem_append]
    rcases found with ⟨p, merged, -, rfl⟩ | ⟨e, old, -, rfl⟩
    · exact .inl (.inl (mem_flatMap.2 ⟨p, merged, mem_localsOf.1 read⟩))
    · exact .inl (.inr (mem_flatMap.2 ⟨_, old, mem_localsOf.1 read⟩))

lemma defs_sweep_read (effective : m.Each Effective) {l} (defined : l ∈ (sweep m).defs) :
    l ∈ (sweep m).uses := by
  obtain ⟨b, block, here, found⟩ := Method.exists_mem_blockList.1 (mem_flatMap.1 defined)
  obtain ⟨phis, stmts⟩ := kept_of_sweep effective here
  refine mem_uses_of_isLive ?_
  rcases mem_append.1 found with phi | stmt
  · obtain ⟨p, merged, rfl⟩ := mem_map.1 phi
    exact phis p merged
  · obtain ⟨s, mem, defines⟩ := mem_filterMap.1 stmt
    cases s with
    | assign dst e =>
      cases defines
      exact stmts _ mem
    | _ => cases defines

/-! ## Nothing is left to do -/

lemma removeDead_eq (m : Method) : removeDead m =
    let pruned := m.removeUnreachable.1.pruneEdges
    (sweep pruned, m.removeUnreachable.2 || pruned.blockList.any fun block =>
      block.phis.any (fun p => !isLive pruned p.dst) || block.stmts.any (!isKept (isLive pruned) ·)) :=
  rfl

lemma pruneEdges_sweep (edges : m.EdgesLand)
    (bound : ∀ b block, m.pruneEdges.block? b = some block → ReadsBound m.pruneEdges block) :
    (sweep m.pruneEdges).pruneEdges = sweep m.pruneEdges := by
  have rewrites := sweep_rewrites bound
  have exists_ (b : BlockId) : ((sweep m.pruneEdges).block? b).isSome = (m.block? b).isSome := by
    rw [rewrites.exists_, Method.block?_pruneEdges_isSome]
  refine Method.pruneEdges_eq_self (fun b block p o here merged taken => ?_) fun trap mem => ?_
  · rw [block?_sweep, Method.block?_pruneEdges, Option.map_map, Option.map_eq_some_iff] at here
    obtain ⟨old, here, rfl⟩ := here
    obtain ⟨p', -, rfl⟩ := mem_map.1 (mem_filter.1 merged).1
    have source := contains_iff_mem.1 (mem_filter.1 taken).2
    obtain ⟨among, leads⟩ := Method.mem_predecessors.1 source
    exact Method.mem_predecessors.2
      ⟨among, (rewrites.edge o.1 b).2 ((Method.edge_pruneEdges edges o.1 b).2 leads)⟩
  · obtain ⟨⟨trap', -, rfl⟩, covered, handlers⟩ := Method.mem_pruneEdges_traps.1 mem
    refine ⟨covered, handlers, fun b among => ?_, fun h among => ?_⟩
    · rw [exists_]
      simpa using (mem_filter.1 among).2
    · rw [exists_]
      simpa using (mem_filter.1 among).2

/-- Removing dead code once more changes nothing. -/
lemma removeDead_again {param} (linked : m.Linked) (housed : m.Housed)
    (marked : m.Marked ⟨param, Effective⟩) : removeDead (removeDead m).1 = ((removeDead m).1, false) := by
  have smaller := Method.Keeps.removeUnreachable linked
  have keeps := removeDead_keeps linked
  have entire := Method.removeUnreachable_eq_self (keeps.housed housed).entry
    (keeps.linked.edges (keeps.housed housed)) (removeDead_reached linked housed marked)
  have pruned := pruneEdges_sweep (smaller.linked.edges (smaller.housed housed))
    (readsBound_of_marked marked.removeUnreachable.pruneEdges)
  have effective := marked.removeUnreachable.pruneEdges.each
  have kept {b : BlockId} {block : Block} (here : (removeDead m).1.block? b = some block) :=
    kept_of_sweep effective here
  have calm : (removeDead m).1.blockList.any (fun block =>
      block.phis.any (fun p => !isLive (removeDead m).1 p.dst) ||
        block.stmts.any (!isKept (isLive (removeDead m).1) ·)) = false := by
    rw [any_eq_false]
    intro block listed
    obtain ⟨b, here⟩ := Method.mem_blockList.1 listed
    obtain ⟨phis, stmts⟩ := kept here
    rw [Bool.or_eq_true, any_eq_true, any_eq_true]
    rintro (⟨p, merged, dead⟩ | ⟨s, mem, changed⟩)
    · rw [removeDead_fst] at dead
      simp [phis p merged] at dead
    · rw [removeDead_fst] at changed
      simp [stmts s mem] at changed
  rw [removeDead_eq (removeDead m).1, entire]
  dsimp only
  rw [removeDead_fst] at calm ⊢
  rw [pruned, sweep_again effective, calm]
  rfl

end Restack.Pass
