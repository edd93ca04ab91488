/-
# Removing jumps keeps the form

A block that is left out has neither phis nor statements, so a path that went
through it passed the same definitions that it passes now, and a phi behind it
takes for each new source the value it took for the block (`skip_sound`). A block
that is glued to its only predecessor is passed where it always was, right
behind it (`glue_sound`).
-/
import Restack.Proofs.Ir.Valid
import Restack.Proofs.Pass.Labels

namespace Restack.Pass

open List Ir
open Lookup

/-! ## Targets -/

variable {old c t : BlockId} {block' block : Block} {passed : List Local} {p : Phi}
  {before' : List Stmt} {l : Local}

lemma retarget_of_not_mem {t : Terminator} (absent : old ∉ t.successors) (new : BlockId) :
    t.retarget old new = t := by
  cases t with
  | goto target =>
    have ne : target ≠ old := by simpa [Terminator.successors, eq_comm] using absent
    simp [Terminator.retarget, ne]
  | branch test first second yes no =>
    have ne : old ≠ yes ∧ old ≠ no := by simpa [Terminator.successors] using absent
    simp [Terminator.retarget, ne.1.symm, ne.2.symm]
  | switch v cases default =>
    simp only [Terminator.successors, mem_eraseDups, mem_append, mem_map,
      mem_singleton, not_or, not_exists, not_and] at absent
    have same : cases.map (fun c => (c.1, if c.2 = old then new else c.2)) = cases := by
      refine (map_congr_left fun c mem => ?_).trans (map_id _)
      rw [if_neg (absent.1 c mem)]
      rfl
    simp only [Terminator.retarget, same, if_neg fun h => absent.2 (Eq.symm h)]
  | ret | throw => rfl

lemma values_retarget (t : Terminator) (old new : BlockId) : (t.retarget old new).values = t.values := by
  cases t with
  | branch test first second yes no => cases second <;> rfl
  | ret v => cases v <;> rfl
  | _ => rfl

lemma mem_successors_retarget {t : Terminator} {new x} (ne : new ≠ old) :
    x ∈ (t.retarget old new).successors ↔ (x ∈ t.successors ∧ x ≠ old) ∨ (x = new ∧ old ∈ t.successors) := by
  have move (b : BlockId) : x = (if b = old then new else b) ↔ (x = b ∧ x ≠ old) ∨ (x = new ∧ old = b) := by
    by_cases same : b = old
    · subst same
      simp
    · have other : old ≠ b := fun h => same h.symm
      rw [if_neg same]
      constructor
      · rintro rfl
        exact .inl ⟨rfl, same⟩
      · rintro (⟨h, -⟩ | ⟨-, h⟩)
        · exact h
        · exact absurd h other
  cases t with
  | goto target => simpa [Terminator.retarget, Terminator.successors] using move target
  | branch test first second yes no =>
    simp only [Terminator.retarget, Terminator.successors, mem_eraseDups, mem_cons,
      not_mem_nil, or_false, move]
    tauto
  | switch v cases default =>
    simp only [Terminator.retarget, Terminator.successors, mem_eraseDups, mem_append,
      map_map, mem_map, Function.comp_apply, mem_singleton, move]
    constructor
    · rintro (⟨c, mem, same⟩ | same)
      · rcases (move c.2).1 same.symm with ⟨rfl, other⟩ | ⟨rfl, here⟩
        · exact .inl ⟨.inl ⟨c, mem, rfl⟩, other⟩
        · exact .inr ⟨rfl, .inl ⟨c, mem, here.symm⟩⟩
      · rcases same with ⟨rfl, other⟩ | ⟨rfl, here⟩
        · exact .inl ⟨.inr rfl, other⟩
        · exact .inr ⟨rfl, .inr here⟩
    · rintro (⟨⟨c, mem, rfl⟩ | rfl, other⟩ | ⟨rfl, ⟨c, mem, here⟩ | here⟩)
      · exact .inl ⟨c, mem, if_neg other⟩
      · exact .inr (.inl ⟨rfl, other⟩)
      · exact .inl ⟨c, mem, if_pos here⟩
      · exact .inr (.inr ⟨rfl, here⟩)
  | ret | throw => simp [Terminator.retarget, Terminator.successors]

/-! ## Leaving a block out -/

/-- A block that is neither the entry nor a handler is left out, and `g` makes the others. -/
structure Drops (gone : BlockId) (g : BlockId → Block → Block) (m m' : Method) : Prop where
  layout : m'.layout = m.layout.filter (· != gone)
  entry : m'.entry = m.entry
  traps : m'.traps = m.traps
  locals : m'.locals = m.locals
  inner : gone ≠ m.entry
  plain : m.isHandler gone = false
  blocks : ∀ c, m'.block? c = if c = gone then none else (m.block? c).map (g c)

namespace Drops

variable {gone : BlockId} {g : BlockId → Block → Block} {m m' : Method} (drops : Drops gone g m m')
include drops

lemma found (here' : m'.block? c = some block') :
    c ≠ gone ∧ ∃ block, m.block? c = some block ∧ block' = g c block := by
  rw [drops.blocks] at here'
  split at here'
  · cases here'
  · rename_i ne
    obtain ⟨block, here, rfl⟩ := Option.map_eq_some_iff.1 here'
    exact ⟨ne, block, here, rfl⟩

lemma stays (here : m.block? c = some block) (ne : c ≠ gone) : m'.block? c = some (g c block) := by
  rw [drops.blocks, if_neg ne, here, Option.map_some]

lemma isSome (ne : c ≠ gone) : (m'.block? c).isSome = (m.block? c).isSome := by
  rw [drops.blocks, if_neg ne, Option.isSome_map]

lemma entry_isSome : (m'.block? m'.entry).isSome = (m.block? m.entry).isSome := by
  rw [drops.entry, drops.isSome drops.inner.symm]

lemma linked (linked : m.Linked) (targets : ∀ c block t, m.block? c = some block →
      t ∈ (g c block).terminator.successors → t ≠ gone ∧ (m.block? t).isSome = true) : m'.Linked := by
  refine ⟨drops.layout ▸ linked.layout_nodup.filter _, fun c => ?_, fun c block' t here' leads => ?_⟩
  · rw [drops.layout, mem_filter, linked.mem_layout, drops.blocks]
    by_cases same : c = gone <;> simp [same]
  · obtain ⟨-, block, here, rfl⟩ := drops.found here'
    obtain ⟨ne, exists_⟩ := targets c block t here leads
    rwa [drops.isSome ne]

end Drops

/-- What a block becomes when block `b`, which only jumps to `target`, is left out. -/
def bypassed (b target : BlockId) (sources : List BlockId) (c : BlockId) (block : Block) : Block where
  phis := if c = target then block.phis.map (Phi.reroute b sources) else block.phis
  stmts := block.stmts
  terminator := block.terminator.retarget b target

/-- The method without a block, before its edges are pruned. -/
def bypass (m : Method) (b target : BlockId) (sources : List BlockId) : Method :=
  ((sources.foldl (fun m source => m.modifyBlock source fun block =>
    { block with terminator := block.terminator.retarget b target }) m).modifyBlock target fun block =>
    { block with phis := block.phis.map (Phi.reroute b sources) }).eraseBlock b

lemma skip_eq (m : Method) (b target : BlockId) (sources : List BlockId) :
    skip m b target sources = (bypass m b target sources).pruneEdges := rfl

lemma reroute_dst (old : BlockId) (sources : List BlockId) (p : Phi) :
    (Phi.reroute old sources p).dst = p.dst := by
  rw [Phi.reroute]
  split <;> rfl

lemma bypassed_dsts {b target} {sources : List BlockId} :
    (bypassed b target sources c block).phis.map (·.dst) = block.phis.map (·.dst) := by
  rw [bypassed]
  split
  · rw [map_map]
    exact map_congr_left fun p _ => reroute_dst b sources p
  · rfl

variable {m : Method} {b target : BlockId} {sources : List BlockId}

lemma mem_bypassed_phis (merged : p ∈ (bypassed b target sources c block).phis) :
    (c = target ∧ ∃ p' ∈ block.phis, Phi.reroute b sources p' = p) ∨ c ≠ target ∧ p ∈ block.phis := by
  rw [bypassed] at merged
  split at merged
  · exact .inl ⟨‹_›, mem_map.1 merged⟩
  · exact .inr ⟨‹_›, merged⟩

lemma retargetAll_spec (distinct : sources.Nodup) (f : Block → Block) (m : Method) :
    let m' := sources.foldl (fun m source => m.modifyBlock source f) m
    m'.layout = m.layout ∧ m'.entry = m.entry ∧ m'.traps = m.traps ∧ m'.locals = m.locals ∧
      ∀ c, m'.block? c = if c ∈ sources then (m.block? c).map f else m.block? c := by
  induction sources generalizing m with
  | nil => simp
  | cons source sources ih =>
    obtain ⟨fresh, distinct⟩ := nodup_cons.1 distinct
    obtain ⟨layout, entry, traps, locals, blocks⟩ := ih distinct (m.modifyBlock source f)
    refine ⟨layout, entry, traps, locals, fun c => ?_⟩
    rw [foldl_cons, blocks, Method.block?_modifyBlock]
    by_cases same : c = source
    · subst same
      simp [fresh]
    · simp [same]

namespace Skippable

variable (can : Skippable m b target sources) (linked : m.Linked) (sound : m.Sound)

include can

lemma mem_sources : c ∈ sources ↔ c ∈ m.layout ∧ b ∈ m.successors c := by
  rw [can.from_, Method.normalPredecessors, mem_filter, contains_iff_mem]

lemma mem_sources_of_jump (linked : m.Linked) (here : m.block? c = some block)
    (jumps : b ∈ block.terminator.successors) : c ∈ sources :=
  can.mem_sources.2 ⟨(linked.mem_layout c).2 (by simp [here]), by simpa [Method.successors, here] using jumps⟩

lemma sources_nodup (nodup : m.layout.Nodup) : sources.Nodup := by
  rw [can.from_]
  exact nodup.filter _

omit can in
lemma goes_on : m.Leaves b ⟨[], [], .goto target⟩ [] target := .jump mem_cons_self

include linked

lemma drops : Drops b (bypassed b target sources) m (bypass m b target sources) := by
  obtain ⟨layout, entry, traps, locals, blocks⟩ := retargetAll_spec (can.sources_nodup linked.layout_nodup)
    (fun block => { block with terminator := block.terminator.retarget b target }) m
  refine ⟨layout ▸ rfl, entry, traps, locals, can.inner, can.plain, fun c => ?_⟩
  rw [bypass, Method.block?_eraseBlock, Method.block?_modifyBlock, blocks]
  split
  · rfl
  · cases here : m.block? c with
    | none => simp
    | some block =>
      by_cases source : c ∈ sources
      · rw [if_pos source]
        by_cases same : c = target <;> simp [same, bypassed]
      · have absent : b ∉ block.terminator.successors := fun leads =>
          source (can.mem_sources_of_jump linked here leads)
        by_cases same : c = target <;> simp [same, bypassed, retarget_of_not_mem absent]

lemma bypass_linked : (bypass m b target sources).Linked := by
  refine (can.drops linked).linked linked fun c block t here leads => ?_
  rcases (mem_successors_retarget can.other).1 leads with ⟨stays, other⟩ | ⟨rfl, -⟩
  · exact ⟨other, linked.targets c block t here stays⟩
  · exact ⟨can.other, linked.targets b _ t can.block mem_cons_self⟩

lemma leaves {before} (here : m.block? c = some block) (ne : c ≠ b)
    (leaves : (bypass m b target sources).Leaves c (bypassed b target sources c block) before t) :
    t ≠ b ∧ (m.Leaves c block before t ∨
      t = target ∧ before = block.stmts ∧ b ∈ block.terminator.successors) := by
  have caught {t : BlockId} (leads : t ∈ (bypass m b target sources).exceptionalSuccessors c) :
      t ≠ b ∧ t ∈ m.exceptionalSuccessors c := by
    have here' := (can.drops linked).stays here ne
    have throws : (bypassed b target sources c block).canThrow = block.canThrow := by
      simp [bypassed, Block.canThrow]
    rw [Method.mem_exceptionalSuccessors here', (can.drops linked).traps, throws] at leads
    refine ⟨?_, (Method.mem_exceptionalSuccessors here).2 leads⟩
    obtain ⟨-, trap, mem, -, h, handler, rfl⟩ := leads
    exact Method.target_ne_of_plain can.plain mem handler
  cases leaves with
  | jump leads =>
    rcases (mem_successors_retarget can.other).1 leads with ⟨stays, other⟩ | ⟨rfl, moves⟩
    · exact ⟨other, .inl (.jump stays)⟩
    · exact ⟨can.other, .inr ⟨rfl, rfl, moves⟩⟩
  | raise split throws leads => exact ⟨(caught leads).1, .inl (.raise split throws (caught leads).2)⟩
  | throw throws leads =>
    have throws' : block.terminator.isThrow = true := by simpa [bypassed] using throws
    exact ⟨(caught leads).1, .inl (.throw throws' (caught leads).2)⟩

lemma edge {p} (leads : (bypass m b target sources).Edge p t) :
    t ≠ b ∧ (m.Edge p t ∨ t = target ∧ p ∈ sources) := by
  obtain ⟨block', here', -⟩ := id leads
  obtain ⟨before, left⟩ := (Method.edge_iff_leaves here').1 leads
  obtain ⟨ne, block, here, rfl⟩ := (can.drops linked).found here'
  obtain ⟨other, left | ⟨rfl, -, jumps⟩⟩ := can.leaves linked here ne left
  · exact ⟨other, .inl (left.edge here)⟩
  · exact ⟨other, .inr ⟨rfl, can.mem_sources_of_jump linked here jumps⟩⟩

omit linked in
lemma enters_through (entered : m.Enters c passed) (here : m.block? c = some block)
    (jumps : b ∈ block.terminator.successors) (there : m.block? target = some block') :
    m.Enters b (defined block.stmts ++ passed) ∧
      m.Enters target (block'.phis.map (·.dst) ++ (defined block.stmts ++ passed)) := by
  have first : m.Enters b (defined block.stmts ++ passed) := .next entered here (.jump jumps) can.block
  have second := Method.Enters.next first can.block goes_on there
  exact ⟨first, second⟩

lemma enters (entered : (bypass m b target sources).Enters c passed) : m.Enters c passed := by
  induction entered with
  | start =>
    rw [(can.drops linked).entry]
    exact .start
  | @next c t passed block' target' before entered here' left there' ih =>
    obtain ⟨ne, block, here, rfl⟩ := (can.drops linked).found here'
    obtain ⟨-, found, there, rfl⟩ := (can.drops linked).found there'
    rw [bypassed_dsts]
    obtain ⟨-, left | ⟨rfl, rfl, jumps⟩⟩ := can.leaves linked here ne left
    · exact .next ih here left there
    · exact (can.enters_through ih here jumps there).2

omit linked in
lemma source_apart {found : Block} (there : m.block? target = some found)
    (merged : p ∈ found.phis) (source : c ∈ sources) : ¬ m.Edge c target := by
  intro leads
  refine can.apart found there (ne_nil_of_mem merged) c source (Method.mem_predecessors.2 ⟨?_, leads⟩)
  exact (can.mem_sources.1 source).1

omit linked
include sound

lemma reroute_operands {found} (there : m.block? target = some found)
    (merged : p ∈ found.phis) : ∃ v, (b, v) ∈ p.operands ∧
      (Phi.reroute b sources p).operands = p.operands.filter (·.1 != b) ++ sources.map (·, v) := by
  have covered := sound.phis_cover target found p b there merged (goes_on.edge can.block)
  obtain ⟨v, found_⟩ := lookup_isSome_of_mem covered
  refine ⟨v, mem_of_lookup found_, ?_⟩
  simp only [Phi.reroute, found_, eraseP_key (sound.phis_nodup target found p there merged)]

lemma loose : (bypass m b target sources).Loose := by
  have drops := can.drops sound.linked
  have defs (c : BlockId) (block : Block) : (bypassed b target sources c block).defs = block.defs := by
    rw [Block.defs, bypassed_dsts, bypassed, Block.defs]
  refine {
    layout_nodup := (can.bypass_linked sound.linked).layout_nodup
    mem_layout := (can.bypass_linked sound.linked).mem_layout
    entry := drops.entry_isSome.trans sound.entry
    edges := fun p t leads => ?_
    toDefining := sound.toDefining.of_sublist (congrArg Array.size drops.locals) fun c block' here' => ?_
    phis_nodup := fun c block' p' here' mem => ?_
    phis_cover := fun c block' p' q here' mem leads => ?_
    uses := fun c passed block' before l entered here' reads => ?_ }
  · obtain ⟨-, block, here, rfl⟩ := drops.found here'
    exact ⟨block, here, by rw [defs]⟩
  · obtain ⟨-, block, here, rfl⟩ := drops.found here'
    rcases mem_bypassed_phis mem with ⟨rfl, p, merged, rfl⟩ | ⟨-, mem⟩
    · obtain ⟨v, -, operands⟩ := can.reroute_operands sound here merged
      rw [operands, map_append, map_map]
      refine nodup_append.2 ⟨(sound.phis_nodup c block p here merged).sublist
        (filter_sublist.map _), ?_, fun q one r other same => ?_⟩
      · exact (map_id sources).symm ▸ can.sources_nodup sound.layout_nodup
      · obtain ⟨o, among, rfl⟩ := mem_map.1 one
        obtain ⟨r', source, rfl⟩ := mem_map.1 other
        refine can.source_apart here merged source ?_
        have operand := sound.phis_edge c block p o.1 here merged
          (mem_map.2 ⟨o, (mem_filter.1 among).1, rfl⟩)
        exact (show o.1 = r' from same) ▸ operand
    · exact sound.phis_nodup c block p' here mem
  · obtain ⟨-, block, here, rfl⟩ := drops.found here'
    obtain ⟨source, from_, -⟩ := id leads
    have other := (drops.found from_).1
    obtain ⟨-, leads⟩ := can.edge sound.linked leads
    rcases mem_bypassed_phis mem with ⟨rfl, p, merged, rfl⟩ | ⟨same, mem⟩
    · obtain ⟨v, -, operands⟩ := can.reroute_operands sound here merged
      rw [operands, map_append, mem_append, map_map]
      rcases leads with leads | ⟨-, among⟩
      · obtain ⟨o, operand, rfl⟩ := mem_map.1 (sound.phis_cover c block p q here merged leads)
        exact .inl (mem_map.2 ⟨o, mem_filter.2 ⟨operand, by simpa using other⟩, rfl⟩)
      · exact .inr (mem_map.2 ⟨q, among, rfl⟩)
    · rcases leads with leads | ⟨rfl, -⟩
      · exact sound.phis_cover c block p' q here mem leads
      · exact absurd rfl same
  · obtain ⟨other, came⟩ := can.edge sound.linked leads
    rw [drops.isSome other]
    rcases came with leads | ⟨rfl, -⟩
    · exact sound.edges p t leads
    · exact sound.edges b t (goes_on.edge can.block)
  · obtain ⟨ne, block, here, rfl⟩ := drops.found here'
    have entered' := can.enters sound.linked entered
    cases reads with
    | stmt split operand => exact sound.uses c passed block before l entered' here (.stmt split operand)
    | terminator operand =>
      rw [bypassed, values_retarget] at operand
      exact sound.uses c passed block _ l entered' here (.terminator operand)
    | @phi _ t _ p' _ left there' merged operand =>
      obtain ⟨-, found, there, rfl⟩ := drops.found there'
      obtain ⟨-, left⟩ := can.leaves sound.linked here ne left
      rcases mem_bypassed_phis merged with ⟨rfl, p, among, rfl⟩ | ⟨same, merged⟩
      · obtain ⟨v, through, operands⟩ := can.reroute_operands sound there among
        rw [operands, mem_append] at operand
        rcases operand with kept | new
        · have kept := (mem_filter.1 kept).1
          have leads := sound.phis_edge t found p c there among (mem_map.2 ⟨_, kept, rfl⟩)
          rcases left with left | ⟨-, -, jumps⟩
          · exact sound.uses c passed block before l entered' here (.phi left there among kept)
          · have source := can.mem_sources_of_jump sound.linked here jumps
            exact absurd leads (can.source_apart there among source)
        · obtain ⟨c', source, same⟩ := mem_map.1 new
          cases same
          rcases left with left | ⟨-, rfl, jumps⟩
          · exact absurd (left.edge here) (can.source_apart there among source)
          · -- the operand is the one that the phi read from the block left out
            have first := (can.enters_through entered' here jumps there).1
            exact sound.uses b _ _ [] l first can.block (.phi goes_on there among through)
      · rcases left with left | ⟨rfl, -⟩
        · exact sound.uses c passed block before l entered' here (.phi left there merged operand)
        · exact absurd rfl same

end Skippable

lemma skip_sound (sound : m.Sound) (can : Skippable m b target sources) : (skip m b target sources).Sound :=
  skip_eq m b target sources ▸ (can.loose sound).prune

/-! ## Gluing a block to its predecessor -/

/-- Lets the operands that came from a block come from another. -/
def Phi.rename (old new : BlockId) (p : Phi) : Phi :=
  { p with operands := p.operands.map fun o => if o.1 = old then (new, o.2) else o }

lemma mem_rename {new q v} : (q, v) ∈ (Phi.rename old new p).operands ↔
      (q, v) ∈ p.operands ∧ q ≠ old ∨ q = new ∧ (old, v) ∈ p.operands := by
  rw [Phi.rename, mem_map]
  constructor
  · rintro ⟨o, mem, made⟩
    split at made
    · rename_i same
      cases made
      exact .inr ⟨rfl, same ▸ mem⟩
    · rename_i other
      subst made
      exact .inl ⟨mem, other⟩
  · rintro (⟨mem, other⟩ | ⟨rfl, mem⟩)
    · exact ⟨_, mem, if_neg other⟩
    · exact ⟨_, mem, if_pos rfl⟩

namespace Gluable

variable {next : BlockId} {absorbed : Block} (can : Gluable m b next absorbed)

/-- What a block becomes when `next` is glued to `b`. -/
def glued (b next : BlockId) (absorbed : Block) (c : BlockId) (block : Block) : Block where
  phis := block.phis.map (Phi.rename next b)
  stmts := if c = b then block.stmts ++ absorbed.stmts else block.stmts
  terminator := if c = b then absorbed.terminator else block.terminator

lemma glued_dsts : (glued b next absorbed c block).phis.map (·.dst) = block.phis.map (·.dst) := by
  rw [glued, map_map]
  rfl

include can

lemma drops : Drops next (glued b next absorbed) m (glue m b next absorbed) := by
  refine ⟨rfl, rfl, rfl, rfl, can.inner, can.plain, fun c => ?_⟩
  rw [glue, Method.block?_mapBlocks, Method.block?_modifyBlock, Method.block?_eraseBlock]
  by_cases gone : c = next
  · subst gone
    simp [can.other]
  · by_cases same : c = b
    · subst same
      rw [if_neg gone, if_pos rfl, if_neg gone, Option.map_map]
      refine congrArg (Option.map · _) (funext fun block => ?_)
      simp [glued, Phi.rename]
    · rw [if_neg gone, if_neg same, if_neg gone]
      refine congrArg (Option.map · _) (funext fun block => ?_)
      simp [glued, Phi.rename, same]

lemma edge_first (leads : m.Edge b t) : t = next := by
  obtain ⟨block, here, jumps⟩ := can.block
  obtain ⟨before, left⟩ := (Method.edge_iff_leaves here).1 leads
  cases left with
  | jump leads =>
    rw [jumps] at leads
    exact mem_singleton.1 leads
  | raise _ _ leads | throw _ leads => exact absurd leads (Method.uncaught can.uncovered)

lemma edge_second (linked : m.Linked) (leads : m.Edge c next) : c = b := by
  obtain ⟨block, here, jumps⟩ := can.block
  have first : m.Edge b next := ⟨block, here, .inl (by rw [jumps]; exact mem_singleton.2 rfl)⟩
  have listed {c : BlockId} (leads : m.Edge c next) : c ∈ m.predecessors next := by
    refine Method.mem_predecessors.2 ⟨?_, leads⟩
    obtain ⟨block, here, -⟩ := leads
    exact (linked.mem_layout c).2 (by simp [here])
  obtain ⟨only, single⟩ := length_eq_one_iff.1 can.single
  have one := single ▸ listed first
  have other := single ▸ listed leads
  rw [mem_singleton.1 one, mem_singleton.1 other]

lemma glue_linked (linked : m.Linked) : (glue m b next absorbed).Linked := by
  refine can.drops.linked linked fun c block t here leads => ?_
  simp only [glued] at leads
  split at leads
  · refine ⟨?_, linked.targets next absorbed t can.behind leads⟩
    rintro rfl
    exact can.other (can.edge_second linked ⟨absorbed, can.behind, .inl leads⟩)
  · rename_i ne
    refine ⟨?_, linked.targets c block t here leads⟩
    rintro rfl
    exact ne (can.edge_second linked ⟨block, here, .inl leads⟩)

lemma leaves (here : m.block? c = some block) (ne : c ≠ next)
    (left : (glue m b next absorbed).Leaves c (glued b next absorbed c block) before' t) :
    (c ≠ b ∧ m.Leaves c block before' t) ∨
      c = b ∧ before' = block.stmts ++ absorbed.stmts ∧ m.Leaves next absorbed absorbed.stmts t := by
  have here' := can.drops.stays here ne
  have traps : (glue m b next absorbed).traps = m.traps := rfl
  by_cases same : c = b
  · subst same
    have caught : t ∉ (glue m c next absorbed).exceptionalSuccessors c := by
      refine Method.uncaught ?_
      rw [← can.uncovered, Method.isCovered, Method.isCovered, traps]
    refine .inr ⟨rfl, ?_⟩
    cases left with
    | jump leads =>
      simp only [glued, if_pos] at leads ⊢
      exact ⟨trivial, .jump leads⟩
    | raise _ _ leads | throw _ leads => exact absurd leads caught
  · refine .inl ⟨same, left.congr (by simp [glued, same]) (by simp [glued, same]) fun t leads => ?_⟩
    have throws : (glued b next absorbed c block).canThrow = block.canThrow := by
      simp [glued, same, Block.canThrow]
    rw [Method.mem_exceptionalSuccessors here', traps, throws] at leads
    exact (Method.mem_exceptionalSuccessors here).2 leads

lemma edge {p} : (glue m b next absorbed).Edge p t ↔
    p ≠ next ∧ (p ≠ b ∧ m.Edge p t ∨ p = b ∧ m.Edge next t) := by
  constructor
  · intro leads
    obtain ⟨block', here', -⟩ := id leads
    obtain ⟨before, left⟩ := (Method.edge_iff_leaves here').1 leads
    obtain ⟨ne, block, here, rfl⟩ := can.drops.found here'
    rcases can.leaves here ne left with ⟨other, left⟩ | ⟨rfl, -, left⟩
    · exact ⟨ne, .inl ⟨other, left.edge here⟩⟩
    · exact ⟨ne, .inr ⟨rfl, left.edge can.behind⟩⟩
  · rintro ⟨ne, ⟨other, block, here, leads⟩ | ⟨rfl, leads⟩⟩
    · refine ⟨glued b next absorbed p block, can.drops.stays here ne, ?_⟩
      simpa [can.drops.traps, glued, other, Block.canThrow] using leads
    · obtain ⟨block, here, -⟩ := can.block
      refine ⟨glued p next absorbed p block, can.drops.stays here ne, .inl ?_⟩
      obtain ⟨before, left⟩ := (Method.edge_iff_leaves can.behind).1 leads
      cases left with
      | jump leads => simpa [glued] using leads
      | raise _ _ leads | throw _ leads => exact absurd leads (Method.uncaught can.uncovered_next)

lemma enters_second (entered : m.Enters b passed) (here : m.block? b = some block) :
    m.Enters next (defined block.stmts ++ passed) := by
  obtain ⟨block', found, jumps⟩ := can.block
  rw [here] at found
  cases found
  have left : m.Leaves b block block.stmts next := .jump (by rw [jumps]; exact mem_singleton.2 rfl)
  have second := Method.Enters.next entered here left can.behind
  rw [can.bare] at second
  exact second

lemma enters {passed'} (entered : (glue m b next absorbed).Enters c passed') :
    ∃ passed, m.Enters c passed ∧ ∀ l ∈ passed, l ∈ passed' := by
  induction entered with
  | start => exact ⟨[], .start, by simp⟩
  | @next c t passed' block' target' before' _ here' left there' ih =>
    obtain ⟨passed, entered, sub⟩ := ih
    obtain ⟨ne, block, here, rfl⟩ := can.drops.found here'
    obtain ⟨-, found, there, rfl⟩ := can.drops.found there'
    rw [glued_dsts]
    rcases can.leaves here ne left with ⟨-, left⟩ | ⟨rfl, rfl, beyond⟩
    · refine ⟨_, .next entered here left there, fun l mem => ?_⟩
      simp only [mem_append] at mem ⊢
      exact mem.imp id (.imp id (sub l))
    · refine ⟨_, .next (can.enters_second entered here) can.behind beyond there, fun l mem => ?_⟩
      simp only [defined_append, mem_append] at mem ⊢
      rcases mem with phi | later | first | older
      · exact .inl phi
      · exact .inr (.inl (.inr later))
      · exact .inr (.inl (.inl first))
      · exact .inr (.inr (sub l older))

lemma mem_defs : l ∈ (glued b next absorbed c block).defs ↔ l ∈ block.defs ∨ c = b ∧ l ∈ absorbed.defs := by
  rw [Block.defs, glued_dsts]
  by_cases same : c = b
  · simp [Block.defs, glued, same, can.bare, or_assoc]
  · simp [Block.defs, glued, same]

variable (sound : m.Sound)

include sound

/-- An operand of the glued block is one of the first block's or, behind all of
its statements, one of the second's. -/
lemma reads {v} (ne : c ≠ next) (here : m.block? c = some block)
    (reads : (glue m b next absorbed).Reads c (glued b next absorbed c block) before' v) :
    m.Reads c block before' v ∨
      c = b ∧ ∃ before, before' = block.stmts ++ before ∧ m.Reads next absorbed before v := by
  cases reads with
  | @stmt _ rest s _ split operand =>
    by_cases same : c = b
    · rw [glued, if_pos same] at split
      rcases append_eq_append_iff.1 split with ⟨before, rfl, behind⟩ | ⟨later, first, behind⟩
      · exact .inr ⟨same, before, rfl, .stmt behind operand⟩
      · cases later with
        | nil =>
          rw [append_nil] at first
          exact .inr ⟨same, [], by rw [first, append_nil], .stmt behind.symm operand⟩
        | cons s' later =>
          cases behind
          exact .inl (.stmt first operand)
    · rw [glued, if_neg same] at split
      exact .inl (.stmt split operand)
  | terminator operand =>
    by_cases same : c = b
    · simp only [glued, if_pos same] at operand ⊢
      exact .inr ⟨same, _, rfl, .terminator operand⟩
    · simp only [glued, if_neg same] at operand ⊢
      exact .inl (.terminator operand)
  | @phi _ t _ p' _ left there' merged operand =>
    obtain ⟨elsewhere, found, there, rfl⟩ := can.drops.found there'
    obtain ⟨p, among, rfl⟩ := mem_map.1 merged
    rcases can.leaves here ne left with ⟨other, left⟩ | ⟨same, rfl, beyond⟩
    · rcases mem_rename.1 operand with ⟨operand, -⟩ | ⟨same, -⟩
      · exact .inl (.phi left there among operand)
      · exact absurd same other
    · rcases mem_rename.1 operand with ⟨operand, -⟩ | ⟨-, operand⟩
      · have leads := sound.phis_edge t found p c there among (mem_map.2 ⟨_, operand, rfl⟩)
        exact absurd (can.edge_first (same ▸ leads)) elsewhere
      · exact .inr ⟨same, _, rfl, .phi beyond there among operand⟩

lemma rename_nodup (ne : c ≠ next) (here : m.block? c = some block) (merged : p ∈ block.phis) :
    ((Phi.rename next b p).operands.map (·.1)).Nodup := by
  have first : b ∉ p.operands.map (·.1) := fun operand =>
    ne (can.edge_first (sound.phis_edge c block p b here merged operand))
  have keys : (Phi.rename next b p).operands.map (·.1) =
      (p.operands.map (·.1)).map fun q => if q = next then b else q := by
    rw [Phi.rename, map_map, map_map]
    refine map_congr_left fun o _ => ?_
    by_cases same : o.1 = next <;> simp [same]
  rw [keys]
  refine (sound.phis_nodup c block p here merged).map_on fun q one r other same => ?_
  have apart {q : BlockId} (operand : q ∈ p.operands.map (·.1)) : q ≠ b := fun h => first (h ▸ operand)
  split at same <;> split at same
  · rename_i h h'
    rw [h, h']
  · exact absurd same.symm (apart other)
  · exact absurd same (apart one)
  · exact same

lemma defs_nodup (here : m.block? c = some block) : (glued b next absorbed c block).defs.Nodup := by
  by_cases same : c = b
  · subst same
    have eq : (glued c next absorbed c block).defs = block.defs ++ absorbed.defs := by
      rw [Block.defs, glued_dsts]
      simp [Block.defs, glued, can.bare]
    rw [eq]
    refine nodup_append.2 ⟨sound.block_defs c block here,
      sound.block_defs next absorbed can.behind, fun l one l' other same => ?_⟩
    exact can.other (sound.defs_apart next c absorbed block l can.behind here (same ▸ other) one)
  · have eq : (glued b next absorbed c block).defs = block.defs := by
      rw [Block.defs, glued_dsts]
      simp [Block.defs, glued, same]
    exact eq ▸ sound.block_defs c block here

lemma defs_apart {d} (here : m.block? c = some block) (there : m.block? d = some block')
    (ne : c ≠ next) (ne' : d ≠ next) (one : l ∈ (glued b next absorbed c block).defs)
    (other : l ∈ (glued b next absorbed d block').defs) : c = d := by
  rcases can.mem_defs.1 one with mine | ⟨rfl, mine⟩ <;>
    rcases can.mem_defs.1 other with yours | ⟨rfl, yours⟩
  · exact sound.defs_apart c d block block' l here there mine yours
  · exact absurd (sound.defs_apart c next block absorbed l here can.behind mine yours) ne
  · exact absurd (sound.defs_apart d next block' absorbed l there can.behind yours mine) ne'
  · rfl

lemma uses {passed'} (enters' : (glue m b next absorbed).Enters c passed')
    (ne : c ≠ next) (here : m.block? c = some block)
    (reads' : (glue m b next absorbed).Reads c (glued b next absorbed c block) before' (.var l)) :
    l ∈ defined before' ++ passed' := by
  obtain ⟨passed, entered, sub⟩ := can.enters enters'
  rw [mem_append]
  rcases can.reads sound ne here reads' with read | ⟨rfl, before, rfl, read⟩
  · exact (mem_append.1 (sound.uses c passed block before' l entered here read)).imp id (sub l)
  · have second := can.enters_second entered here
    have passes := sound.uses next _ absorbed before l second can.behind read
    simp only [defined_append, mem_append] at passes ⊢
    rcases passes with later | first | older
    · exact .inl (.inr later)
    · exact .inl (.inl first)
    · exact .inr (sub l older)

lemma edge_exists {p} (leads : (glue m b next absorbed).Edge p t) :
    ((glue m b next absorbed).block? t).isSome = true := by
  obtain ⟨c, other, came⟩ : ∃ c, c ≠ b ∧ m.Edge c t := by
    obtain ⟨-, ⟨other, came⟩ | ⟨-, came⟩⟩ := can.edge.1 leads
    · exact ⟨p, other, came⟩
    · exact ⟨next, can.other, came⟩
  have elsewhere : t ≠ next := fun same => other (can.edge_second sound.linked (same ▸ came))
  rw [can.drops.isSome elsewhere]
  exact sound.edges c t came

end Gluable

lemma glue_sound {next absorbed} (sound : m.Sound)
    (can : Gluable m b next absorbed) : (glue m b next absorbed).Sound := by
  refine {
    layout_nodup := (can.glue_linked sound.linked).layout_nodup
    mem_layout := (can.glue_linked sound.linked).mem_layout
    entry := can.drops.entry_isSome.trans sound.entry
    edges := fun p t leads => can.edge_exists sound leads
    block_defs := fun c block' here' => ?_
    defs_apart := fun c d block₁ block₂ l one other mem mem' => ?_
    bound := fun c block' l here' mem => ?_
    phis_nodup := fun c block' p' here' mem => ?_
    phis_cover := fun c block' p' q here' mem leads => ?_
    uses := fun c passed block' before l entered here' reads => ?_
    handlers := fun trap mem h handler => ?_
    phis_edge := fun c block' p' q here' mem operand => ?_ }
  · obtain ⟨-, block, here, rfl⟩ := can.drops.found here'
    exact can.defs_nodup sound here
  · obtain ⟨ne, block, here, rfl⟩ := can.drops.found one
    obtain ⟨ne', block', there, rfl⟩ := can.drops.found other
    exact can.defs_apart sound here there ne ne' mem mem'
  · obtain ⟨-, block, here, rfl⟩ := can.drops.found here'
    rcases can.mem_defs.1 mem with mem | ⟨-, mem⟩
    · exact sound.bound c block l here mem
    · exact sound.bound next absorbed l can.behind mem
  · obtain ⟨ne, block, here, rfl⟩ := can.drops.found here'
    obtain ⟨p, merged, rfl⟩ := mem_map.1 mem
    exact can.rename_nodup sound ne here merged
  · obtain ⟨-, block, here, rfl⟩ := can.drops.found here'
    obtain ⟨p, merged, rfl⟩ := mem_map.1 mem
    obtain ⟨ne, ⟨-, came⟩ | ⟨rfl, came⟩⟩ := can.edge.1 leads
    · obtain ⟨o, operand, rfl⟩ := mem_map.1 (sound.phis_cover c block p q here merged came)
      exact mem_map.2 ⟨o, mem_rename.2 (.inl ⟨operand, ne⟩), rfl⟩
    · obtain ⟨o, operand, rfl⟩ := mem_map.1 (sound.phis_cover c block p next here merged came)
      exact mem_map.2 ⟨(q, o.2), mem_rename.2 (.inr ⟨rfl, operand⟩), rfl⟩
  · obtain ⟨ne, block, here, rfl⟩ := can.drops.found here'
    exact can.uses sound entered ne here reads
  · rw [can.drops.isSome (Method.target_ne_of_plain can.plain mem handler)]
    exact sound.handlers trap mem h handler
  · obtain ⟨elsewhere, block, here, rfl⟩ := can.drops.found here'
    obtain ⟨p, merged, rfl⟩ := mem_map.1 mem
    obtain ⟨⟨q, v⟩, among, rfl⟩ := mem_map.1 operand
    rcases mem_rename.1 among with ⟨came, ne⟩ | ⟨rfl, came⟩
    · have leads := sound.phis_edge c block p q here merged (mem_map.2 ⟨_, came, rfl⟩)
      refine can.edge.2 ⟨ne, .inl ⟨?_, leads⟩⟩
      rintro rfl
      exact elsewhere (can.edge_first leads)
    · have leads := sound.phis_edge c block p next here merged (mem_map.2 ⟨_, came, rfl⟩)
      exact can.edge.2 ⟨can.other.symm, .inr ⟨rfl, leads⟩⟩

/-! ## All jumps -/

lemma cleanLabels_sound (sound : m.Sound) : (cleanLabels m).1.Sound :=
  cleanLabels_preserves (P := Method.Sound) (fun _ _ _ _ sound _ can => skip_sound sound can)
    (fun _ _ _ _ sound _ can => glue_sound sound can) sound

end Restack.Pass
