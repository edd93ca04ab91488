/-
# Edges of lifted methods

An outline draws the edges between blocks before any instruction is read. A
lifted method has just these: the terminator that the last instruction of a span
became leads where the outline says (`Rendered.successors`), and a block under a
trap can throw (`Rendering.edge_iff`).
-/
import Restack.Proofs.Lifting.Throwing

namespace Restack.Lifting

open Register (Instruction Reg Code)
open Ir (BlockId Local Value Stmt Terminator Block)
open List Outcome
open Restack.Lists

variable {o : Outline}

variable {i : Instruction} {t b : BlockId}

lemma targets_of_straight (straight : i.isBranch = false) : i.targets = [] := by
  cases i <;> first | rfl | cases straight

lemma falls_of_straight (straight : i.isBranch = false) : i.endsFlow = false := by
  cases i <;> first | rfl | cases straight

lemma straight_of_throwingDest {dest} (writes : throwingDest? i = some dest) : i.isBranch = false := by
  cases i <;> first | rfl | simp [throwingDest?] at writes

lemma map_snd_packedKeys {α} (first : Int32) (targets : List α) :
    (packedKeys first targets).map (·.2) = targets := by
  rw [packedKeys, map_map]
  exact zipIdx_map_fst 0 targets

/-! ## Where the last instruction leads -/

lemma SpanEdge.source {span last p}
    (edge : SpanEdge o span last p t) : p ∈ span.id :: span.landing.toList := by
  cases edge with
  | jump | land | fall => exact mem_cons_self
  | leave _ landing => simp [landing]

variable {code : Code} {ranges : List (Nat × Nat)} {starts : List Nat}
  (drawn : Drawn code o ranges starts)

section Drawn

variable {span : Span} (member : span ∈ o.spans) {last : Instruction}
  (at_ : o.instructions[span.stop - 1]? = some last)

include drawn member

lemma Drawn.spanEdge_id : SpanEdge o span last span.id t ↔
    (∃ label ∈ last.targets, o.blockOf label = .ok t) ∨ last.endsFlow = false ∧ (span.landing = some t ∨
        span.landing = none ∧ o.blockAt span.stop = .ok t) := by
  constructor
  · intro edge
    cases edge with
    | jump target found => exact .inl ⟨_, target, found⟩
    | land falls landing => exact .inr ⟨falls, .inl landing⟩
    | leave _ landing => exact absurd rfl (drawn.id_ne_landing member landing)
    | fall falls landing next => exact .inr ⟨falls, .inr ⟨landing, next⟩⟩
  · rintro (⟨label, target, found⟩ | ⟨falls, landing | ⟨landing, next⟩⟩)
    · exact .jump target found
    · exact .land falls landing
    · exact .fall falls landing next

include at_

lemma Drawn.landing_dest {l} (landing : span.landing = some l) :
    isGuarded ranges (span.stop - 1) = true ∧ ∃ dest, throwingDest? last = some dest := by
  have needs := drawn.landing_isSome member
  rw [needsLanding, at_, landing] at needs
  simp only [Option.isSome_some, Bool.true_eq, Bool.and_eq_true, Option.isSome_iff_exists] at needs
  exact ⟨needs.2, needs.1⟩

lemma Drawn.landing_of_action {vs a} (does : Does o span.stop last vs a)
    (writes : ∀ dest e, a ≠ .define dest e) : span.landing = none := by
  rw [Option.eq_none_iff_forall_ne_some]
  intro l landing
  obtain ⟨-, dest, found⟩ := drawn.landing_dest member at_ landing
  obtain ⟨-, e, same⟩ := (does.throwingDest dest).1 found
  exact writes dest e same

lemma Drawn.finish_successors {vs t} (does : Does o span.stop last vs (.finish t)) (target : BlockId) :
    target ∈ t.successors ↔ SpanEdge o span last span.id target := by
  rw [drawn.spanEdge_id member, drawn.landing_of_action member at_ does (by simp)]
  cases does with
  | returnVoid | returnValue | throw =>
    simp [Terminator.successors, Instruction.targets, Instruction.endsFlow]
  | goto found =>
    simp [Terminator.successors, Instruction.targets, Instruction.endsFlow, found, eq_comm]
  | branch found next | branchZero found next =>
    simp [Terminator.successors, Instruction.targets, Instruction.endsFlow, found, next, eq_comm]
  | @packedSwitch _ _ targets _ bs _ found next =>
    have jumps : target ∈ bs ↔ ∃ label ∈ targets, o.blockOf label = .ok target := by
      constructor
      · exact fun member => forall₂_mem_right (mapM_ok.1 found) member
      · rintro ⟨label, among, leads⟩
        obtain ⟨b, member, same⟩ := mapM_mem found among
        rw [leads] at same
        cases same
        exact member
    simp [Terminator.successors, Instruction.targets, Instruction.endsFlow, map_snd_packedKeys, next,
      jumps, eq_comm]
  | @sparseSwitch _ cases _ bs _ found next =>
    have jumps : target ∈ bs.map (·.2) ↔ ∃ c ∈ cases, o.blockOf c.2 = .ok target := by
      rw [mem_map]
      constructor
      · rintro ⟨p, member, rfl⟩
        obtain ⟨c, among, made⟩ := forall₂_mem_right (mapM_ok.1 found) member
        obtain ⟨b, leads, same⟩ := bind_ok.1 made
        cases same
        exact ⟨c, among, leads⟩
      · rintro ⟨c, among, leads⟩
        obtain ⟨p, member, made⟩ := mapM_mem found among
        obtain ⟨b, leads', same⟩ := bind_ok.1 made
        rw [leads] at leads'
        cases leads'
        cases same
        exact ⟨_, member, rfl⟩
    simp only [Terminator.successors, mem_eraseDups, mem_append, jumps,
      mem_singleton, Instruction.targets, mem_map, Instruction.endsFlow, next, true_and,
      Except.ok.injEq, reduceCtorEq, false_or, eq_comm]
    simp

/-- A block leads where the outline says that its span does. -/
lemma Rendered.successors {f body before behind filling t}
    (rendered : Rendered o f body span before filling t behind) (target : BlockId) :
    target ∈ t.successors ↔ SpanEdge o span last span.id target := by
  obtain ⟨init, instructions, straight, -⟩ := drawn.straight_init member at_
  obtain ⟨_, head, _, _, -, own, -, line⟩ := (instructions ▸ rendered.lines).split_last straight
  have ends := own ▸ rendered.ends
  generalize (f.table span.id).written = writes at line
  have falls (straight : last.isBranch = false) (ends : Ends o span none t) :
      target ∈ t.successors ↔ SpanEdge o span last span.id target := by
    rw [drawn.spanEdge_id member, targets_of_straight straight, falls_of_straight straight]
    cases ends with
    | land landing => simp [Terminator.successors, landing, eq_comm]
    | fall landing behind => simp [Terminator.successors, landing, behind, eq_comm]
  cases line with
  | define _ _ does | defer _ _ does | keep _ _ does | drop _ _ does | take _ _ does
  | perform _ _ does => exact falls does.isBranch_eq ends
  | finish _ _ does =>
    cases ends
    exact drawn.finish_successors member at_ does target

end Drawn

/-! ## The blocks of a lifted method -/

section Rendering

variable {f : Registers} {params : List String} {ls defs : List Local} {m : Ir.Method}
  (rendering : Rendering code o f params ls defs m)

include rendering

lemma Rendering.block_of_body {stmts t}
    (body : (m.block? b).map (fun block => { block with phis := [] }) = some ⟨[], stmts, t⟩) :
    m.block? b = some ⟨phisOf f b, stmts, t⟩ := by
  obtain ⟨block, found, same⟩ := Option.map_eq_some_iff.1 body
  have phis := rendering.phis b block found
  obtain ⟨phis', stmts', t'⟩ := block
  cases same
  rw [found]
  cases phis
  rfl

lemma Rendering.landing_block {span} (member : span ∈ o.spans) {l}
    (landing : span.landing = some l) : ∃ next, o.blockAt span.stop = .ok next ∧
      m.block? l = some ⟨phisOf f l, [], .goto next⟩ := by
  obtain ⟨result, all⟩ := rendering.spans
  obtain ⟨_, _, _, _, rendered, -⟩ := all.span member
  obtain ⟨next, behind, body, -⟩ := rendered.landing l landing
  exact ⟨next, behind, rendering.block_of_body body⟩

include drawn

lemma Rendering.block_cases {block} (here : m.block? b = some block) :
    b = Lifting.entry ∧ block = ⟨[], paramStmts 0 ls, .goto ⟨1⟩⟩ ∨
    (∃ span ∈ o.spans, b = span.id) ∨ ∃ span ∈ o.spans, span.landing = some b ∧
      ∃ next, o.blockAt span.stop = .ok next ∧ block = ⟨phisOf f b, [], .goto next⟩ := by
  have small : b.index < o.size := rendering.size ▸ Ir.Method.index_lt_of_block? here
  rw [← drawn.mem_layout, drawn.layout] at small
  rcases mem_cons.1 small with rfl | inner
  · refine .inl ⟨rfl, ?_⟩
    obtain ⟨span, rest, spans, -, id⟩ := drawn.first_span
    have first : o.first = ⟨1⟩ := by simp [Outline.first, spans, id]
    rw [rendering.start, first] at here
    exact (Option.some.inj here).symm
  · obtain ⟨span, member, among⟩ := mem_flatMap.1 inner
    rcases mem_cons.1 among with rfl | landing
    · exact .inr (.inl ⟨span, member, rfl⟩)
    · have landing := Option.mem_toList.1 landing
      obtain ⟨next, behind, found⟩ := rendering.landing_block member landing
      cases here.symm.trans found
      exact .inr (.inr ⟨span, member, landing, next, behind, rfl⟩)

lemma Rendering.entry_block : m.block? Lifting.entry = some ⟨[], paramStmts 0 ls, .goto ⟨1⟩⟩ := by
  rcases rendering.block_cases drawn rendering.start with ⟨-, same⟩ | ⟨span, member, same⟩ |
      ⟨span, member, landing, -⟩
  · rw [rendering.start, same]
  · exact absurd same.symm (drawn.span_inner member mem_cons_self).1
  · exact absurd rfl (drawn.span_inner member (by simp [landing])).1

/-- Where a block's terminator leads. -/
lemma Rendering.jumps {block} (here : m.block? b = some block) :
    t ∈ block.terminator.successors ↔ b = Lifting.entry ∧ t = ⟨1⟩ ∨
      ∃ span ∈ o.spans, ∃ last, o.instructions[span.stop - 1]? = some last ∧ SpanEdge o span last b t := by
  have only {span : Span} {last : Instruction} (member : span ∈ o.spans)
      (among : b ∈ span.id :: span.landing.toList) (at_ : o.instructions[span.stop - 1]? = some last) :
      (b = Lifting.entry ∧ t = ⟨1⟩ ∨ ∃ span ∈ o.spans, ∃ last,
        o.instructions[span.stop - 1]? = some last ∧ SpanEdge o span last b t) ↔
      SpanEdge o span last b t := by
    constructor
    · rintro (⟨rfl, -⟩ | ⟨span', member', last', at', edge⟩)
      · exact absurd rfl (drawn.span_inner member among).1
      · obtain rfl := drawn.span_unique member' member edge.source among
        rw [at_] at at'
        cases at'
        exact edge
    · exact fun edge => .inr ⟨span, member, last, at_, edge⟩
  rcases rendering.block_cases drawn here with ⟨rfl, rfl⟩ | ⟨span, member, rfl⟩ |
      ⟨span, member, landing, next, behind, rfl⟩
  · simp only [Terminator.successors, mem_singleton, true_and]
    refine ⟨.inl, fun leads => leads.elim id ?_⟩
    rintro ⟨span, member, last, -, edge⟩
    exact absurd rfl (drawn.span_inner member edge.source).1
  · obtain ⟨last, at_⟩ := drawn.exists_last member
    rw [only member mem_cons_self at_]
    obtain ⟨result, all⟩ := rendering.spans
    obtain ⟨_, _, _, _, rendered, -⟩ := all.span member
    rw [rendering.block_of_body rendered.block] at here
    cases here
    exact rendered.successors drawn member at_ t
  · obtain ⟨last, at_⟩ := drawn.exists_last member
    rw [only member (by simp [landing]) at_]
    rw [Terminator.successors, mem_singleton]
    obtain ⟨-, dest, writes⟩ := drawn.landing_dest member at_ landing
    have falls := falls_of_straight (straight_of_throwingDest writes)
    constructor
    · rintro rfl
      exact .leave falls landing behind
    · intro edge
      cases edge with
      | jump | land | fall => exact absurd rfl (drawn.id_ne_landing member landing)
      | leave _ _ behind' => exact Except.ok.inj (behind'.symm.trans behind)

lemma Rendering.block_exists (small : b.index < o.size) : ∃ block, m.block? b = some block := by
  rw [← drawn.mem_layout, drawn.layout] at small
  rcases mem_cons.1 small with rfl | inner
  · exact ⟨_, rendering.start⟩
  · obtain ⟨span, member, among⟩ := mem_flatMap.1 inner
    rcases mem_cons.1 among with rfl | landing
    · obtain ⟨result, all⟩ := rendering.spans
      obtain ⟨_, _, _, _, rendered, -⟩ := all.span member
      exact ⟨_, rendering.block_of_body rendered.block⟩
    · obtain ⟨_, -, found⟩ := rendering.landing_block member (Option.mem_toList.1 landing)
      exact ⟨_, found⟩

lemma Rendering.covered_throws {trap} (member : trap ∈ o.traps)
    (covers : b ∈ trap.covered) : ∃ block, m.block? b = some block ∧ block.canThrow = true := by
  obtain ⟨span, inside, rfl, last, at_, throwing, guarded⟩ := drawn.covered_last member covers
  obtain ⟨block, here, -, -, -, place, -, -, -, -, -, only⟩ :=
    rendering.throwing_span drawn inside at_ throwing guarded
  refine ⟨block, here, ?_⟩
  rw [Block.canThrow, Bool.or_eq_true, any_eq_true]
  rcases Block.throwsAt_cases ((only place).2 rfl) with ⟨s, found, throws⟩ | ⟨-, ends⟩
  · exact .inl ⟨s, mem_of_getElem? found, throws⟩
  · exact .inr ends

/-- The edges of a lifted method are those that the outline drew. -/
lemma Rendering.edge_iff {p} : m.Edge p t ↔ (p, t) ∈ o.edges := by
  rw [drawn.mem_edges]
  constructor
  · rintro ⟨block, here, leads | ⟨-, caught⟩⟩
    · rw [← or_assoc]
      exact .inl ((rendering.jumps drawn here).1 leads)
    · exact .inr (.inr (rendering.traps ▸ caught))
  · rintro (leads | leads | ⟨trap, member, covers, h, handler, target⟩)
    · obtain ⟨rfl, rfl⟩ := leads
      exact ⟨_, rendering.entry_block drawn, .inl mem_cons_self⟩
    · obtain ⟨span, member, last, at_, edge⟩ := id leads
      obtain ⟨block, here⟩ := rendering.block_exists drawn
        (drawn.span_inner member edge.source).2
      exact ⟨block, here, .inl ((rendering.jumps drawn here).2 (.inr leads))⟩
    · obtain ⟨block, here, throws⟩ := rendering.covered_throws drawn member covers
      exact ⟨block, here, .inr ⟨throws, trap, rendering.traps ▸ member, covers, h, handler, target⟩⟩

end Rendering

end Restack.Lifting
