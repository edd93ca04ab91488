/-
# What handlers read behind copies

With phis replaced by copies, a local is assigned in the guarded part of a block
only if no handler of the block may read it (`replacePhis_opensBehind`). The locals
of the old method are still assigned on every path to a read (`strict_replacePhis`),
and a carrier is live only at the block whose phi it carries (`carrier_live`).
-/
import Restack.Proofs.Ir.Live
import Restack.Proofs.Lists
import Restack.Proofs.Pass.PhiRuns

namespace Restack.Pass

open List Ir

variable {m : Method} {b t : BlockId} {block : Block} {l : Local}

/-! ## The parts of a block -/

/-- What stands in front of the last statement that can throw. -/
abbrev spreadFront (m : Method) (b : BlockId) (block : Block) : List Stmt :=
  caughtHead block.stmts ++ headsOf m b ++ frontOf block ++
    (earlyCopies m (copiesOf m) b block).map Copy.stmt

lemma spread_stmts (m : Method) (b : BlockId) (block : Block) : (spreadBlock m b block).stmts =
    spreadFront m b block ++ backOf block ++ (lateCopies m (copiesOf m) b block).map Copy.stmt := by
  simp [spreadBlock, spreadFront]

lemma defined_headsOf : defined (headsOf m b) = (m.phisOf b).map (·.dst) := by
  rw [defined, headsOf, filterMap_map]
  exact congrFun filterMap_eq_map _

lemma defined_copies (cs : List Copy) : defined (cs.map Copy.stmt) = cs.map (·.carrier) := by
  rw [defined, filterMap_map]
  exact congrFun filterMap_eq_map _

/-- A block under a trap has one statement that can throw at most: the copies for
handlers stand in front of it and the others behind it. -/
lemma spread_shape (once : block.ThrowsOnce) : (∀ r ∈ (spreadBlock m b block).stmts, r.canThrow = false) ∨
    ∃ s, s.canThrow = true ∧ block.terminator.isThrow = false ∧
      block.stmts = caughtHead block.stmts ++ frontOf block ++ [s] ∧ (spreadBlock m b block).stmts =
        spreadFront m b block ++ s :: (lateCopies m (copiesOf m) b block).map Copy.stmt ∧
      ∀ r ∈ spreadFront m b block, r.canThrow = false := by
  have calm {front : List Stmt} (quiet : ∀ r ∈ caughtHead block.stmts ++ front, r.canThrow = false) :
      ∀ r ∈ caughtHead block.stmts ++ headsOf m b ++ front ++
        (earlyCopies m (copiesOf m) b block).map Copy.stmt, r.canThrow = false := by
    intro r mem
    simp only [mem_append] at mem
    rcases mem with ((caught | head) | front) | copy
    · exact caughtHead_calm _ r caught
    · exact headsOf_calm r head
    · exact quiet r (mem_append_right _ front)
    · exact copies_calm _ r copy
  rcases splitAtThrow_cases (behindCaught block.stmts) with ⟨s, rest, back, throws, -⟩ | ⟨back, quiet⟩
  · have back : backOf block = s :: rest := back
    have whole := stmts_eq block
    rw [back] at whole
    obtain ⟨quiet, rfl, goes⟩ := once.alone whole throws
    refine .inr ⟨s, throws, goes, whole, ?_, calm quiet⟩
    rw [spread_stmts, back, append_assoc, singleton_append]
  · have back : backOf block = [] := back
    refine .inl fun r mem => ?_
    rw [spread_stmts, back, append_nil, mem_append] at mem
    rcases mem with front | copy
    · refine calm (fun r mem => ?_) r front
      rcases mem_append.1 mem with caught | front
      · exact caughtHead_calm _ r caught
      · refine quiet r ?_
        rw [← splitAtThrow_append (behindCaught block.stmts)]
        exact mem_append_left _ front
    · exact copies_calm _ r copy

lemma mem_copies_parts (block : Block) (c : Copy) (copy : c ∈ copiesOf m) (source : c.source = b) :
    c ∈ earlyCopies m (copiesOf m) b block ∨ c ∈ lateCopies m (copiesOf m) b block := by
  simp only [earlyCopies, lateCopies, mem_filter, copy, true_and, source, beq_self_eq_true, Bool.true_and]
  cases goesEarly m b block c.target <;> simp

/-! ## Paths -/

section Paths

variable (sound : m.Sound)

include sound

lemma exceptionalSuccessors_replacePhis (b : BlockId) :
    (replacePhis m).1.exceptionalSuccessors b = m.exceptionalSuccessors b :=
  (replacePhis_replaced (dstsOf_nodup sound.toLoose) sound.layout_nodup).woven.exceptionalSuccessors

/-- A read behind copies is that of a carrier by its head, or a read of the old
method behind no more than what is behind it now. -/
lemma reads_spread (here : m.block? b = some block) {before' : List Stmt}
    (reads : (replacePhis m).1.Reads b (spreadBlock m b block) before' (.var l)) :
    (∃ p ∈ m.phisOf b, l = carrier m p.dst) ∨ ∃ before, m.Reads b block before (.var l) ∧
        ∀ k, k ∈ defined before ∨ k ∈ (m.phisOf b).map (·.dst) → k ∈ defined before' := by
  cases reads with
  | terminator operand =>
    refine .inr ⟨block.stmts, .terminator operand, fun k mem => ?_⟩
    rw [stmts_eq block] at mem
    simp only [spread_stmts, spreadFront, defined_append, mem_append, defined_headsOf] at mem ⊢
    tauto
  | phi _ there merged _ =>
    rw [block?_replacePhis sound.toLoose, Option.map_eq_some_iff] at there
    obtain ⟨_, -, rfl⟩ := there
    cases merged
  | @stmt _ rest s _ split operand =>
    rw [spread_stmts] at split
    rcases Lists.append_split split with ⟨more, split, -⟩ | ⟨mid, rfl, late⟩
    · rcases Lists.append_split split with ⟨_, split, -⟩ | ⟨mid, rfl, back⟩
      · rcases Lists.append_split split with ⟨more, split, -⟩ | ⟨mid, rfl, early⟩
        · rcases Lists.append_split split with ⟨_, split, -⟩ | ⟨mid, rfl, front⟩
          · rcases Lists.append_split split with ⟨_, caught, -⟩ | ⟨mid, rfl, head⟩
            · have mem : s ∈ caughtHead block.stmts := by rw [caught]; simp
              rcases caughtHead_cases block.stmts with ⟨k, same⟩ | ⟨same, -⟩
              · rw [same, mem_singleton] at mem
                subst mem
                cases operand
              · rw [same] at mem
                cases mem
            · have mem : s ∈ headsOf m b := by rw [head]; simp
              obtain ⟨p, phi, rfl⟩ := mem_map.1 mem
              exact .inl ⟨p, phi, by simpa [Stmt.values, Expr.values] using operand⟩
          · have whole : block.stmts =
                caughtHead block.stmts ++ mid ++ s :: (more ++ backOf block) := by
              conv_lhs => rw [stmts_eq block, front]
              simp
            refine .inr ⟨_, .stmt whole operand, fun k mem => ?_⟩
            simp only [defined_append, mem_append, defined_headsOf] at mem ⊢
            tauto
        · have mem : s ∈ (earlyCopies m (copiesOf m) b block).map Copy.stmt := by
            rw [early]; simp
          obtain ⟨c, among, rfl⟩ := mem_map.1 mem
          have value : c.value = .var l := by
            simpa [Copy.stmt, Stmt.values, Expr.values, eq_comm] using operand
          refine .inr ⟨_, early_reads sound here among value, fun k mem => ?_⟩
          simp only [defined_append, mem_append, defined_headsOf] at mem ⊢
          tauto
      · have whole : block.stmts = caughtHead block.stmts ++ frontOf block ++ mid ++ s :: more := by
          conv_lhs => rw [stmts_eq block, back]
          simp
        refine .inr ⟨_, .stmt whole operand, fun k mem => ?_⟩
        simp only [spreadFront, defined_append, mem_append, defined_headsOf] at mem ⊢
        tauto
    · have mem : s ∈ (lateCopies m (copiesOf m) b block).map Copy.stmt := by rw [late]; simp
      obtain ⟨c, among, rfl⟩ := mem_map.1 mem
      have value : c.value = .var l := by
        simpa [Copy.stmt, Stmt.values, Expr.values, eq_comm] using operand
      obtain ⟨copy, from_⟩ := mem_filter.1 among
      have source : c.source = b := eq_of_beq (Bool.and_eq_true_iff.1 from_).1
      obtain ⟨before, reads⟩ := copy_reads sound here copy source value
      obtain ⟨rest, split⟩ := reads.split
      refine .inr ⟨before, reads, fun k mem => ?_⟩
      have whole : k ∈ defined block.stmts ∨ k ∈ (m.phisOf b).map (·.dst) := by
        rw [split, defined_append]
        exact mem.imp_left (mem_append_left _)
      rw [stmts_eq block] at whole
      simp only [spreadFront, defined_append, mem_append, defined_headsOf] at whole ⊢
      tauto

/-- Control leaves a block as it did before, behind the heads of its phis and the
copies for where it goes. -/
lemma leaves_spread (once : m.ThrowsOnce) (here : m.block? b = some block) {before' : List Stmt}
    (leaves : (replacePhis m).1.Leaves b (spreadBlock m b block) before' t) :
    ∃ before, m.Leaves b block before t ∧
      (∀ k, k ∈ defined before ∨ k ∈ (m.phisOf b).map (·.dst) → k ∈ defined before') ∧
      ∀ c ∈ copiesOf m, c.source = b → c.target = t → c.carrier ∈ defined before' := by
  have caught := exceptionalSuccessors_replacePhis sound b
  have whole : (∀ k, k ∈ defined block.stmts ∨ k ∈ (m.phisOf b).map (·.dst) →
        k ∈ defined (spreadBlock m b block).stmts) ∧
      ∀ c ∈ copiesOf m, c.source = b → c.target = t →
        c.carrier ∈ defined (spreadBlock m b block).stmts := by
    simp only [spread_stmts, spreadFront, defined_append, mem_append, defined_headsOf, defined_copies]
    refine ⟨fun k mem => ?_, fun c copy source _ => ?_⟩
    · rw [stmts_eq block] at mem
      simp only [defined_append, mem_append] at mem
      tauto
    · rcases mem_copies_parts (m := m) (b := b) block c copy source with early | late
      · exact .inl (.inl (.inr (mem_map_of_mem early)))
      · exact .inr (mem_map_of_mem late)
  cases leaves with
  | jump leads => exact ⟨_, .jump leads, whole⟩
  | throw throws leads => exact ⟨_, .throw throws (caught ▸ leads), whole⟩
  | raise split throws leads =>
    rw [caught] at leads
    rcases spread_shape (m := m) (b := b) (once b block (Method.covered_of_caught leads) here) with
      calm | ⟨s, raises, goes, old, new, calm⟩
    · rw [calm _ (by rw [split]; simp)] at throws
      cases throws
    · rw [new] at split
      obtain ⟨rfl, rfl, -⟩ := split_unique split.symm throws calm (copies_calm _)
      refine ⟨_, .raise old raises leads, fun k mem => ?_, fun c copy source target => ?_⟩
      · simp only [defined_append, mem_append, defined_headsOf] at mem ⊢
        tauto
      · have early : c ∈ earlyCopies m (copiesOf m) b block := by
          simp [earlyCopies, mem_filter, copy, source, goesEarly, target, leads, goes]
        simp only [defined_append, mem_append, defined_copies]
        exact .inr (mem_map_of_mem early)

lemma enters_replacePhis (once : m.ThrowsOnce) {passed' : List Local}
    (entered : (replacePhis m).1.Enters b passed') :
    ∃ passed, m.Enters b passed ∧ ∀ k ∈ passed, k ∉ (m.phisOf b).map (·.dst) → k ∈ passed' := by
  induction entered with
  | start =>
    rw [(replacePhis_replaced (dstsOf_nodup sound.toLoose) sound.layout_nodup).woven.entry]
    exact ⟨[], .start, by simp⟩
  | @next b t passed' _ _ before' _ here leaves there ih =>
    obtain ⟨passed, entered, kept⟩ := ih
    rw [block?_replacePhis sound.toLoose, Option.map_eq_some_iff] at here there
    obtain ⟨block, here, rfl⟩ := here
    obtain ⟨target, there, rfl⟩ := there
    obtain ⟨before, leaves, sub, -⟩ := leaves_spread sound once here leaves
    refine ⟨_, .next entered here leaves there, fun k mem other => ?_⟩
    rw [Method.phisOf_eq there] at other
    have old := (mem_append.1 mem).resolve_left other
    refine mem_append_right _ (mem_append.2 ?_)
    rcases mem_append.1 old with stmt | earlier
    · exact .inl (sub k (.inl stmt))
    · by_cases phi : k ∈ (m.phisOf b).map (·.dst)
      · exact .inl (sub k (.inr phi))
      · exact .inr (kept k earlier phi)

lemma reached_replacePhis (once : m.ThrowsOnce) (reached : (replacePhis m).1.Reached b) : m.Reached b := by
  obtain ⟨passed', entered⟩ := reached
  obtain ⟨passed, entered, -⟩ := enters_replacePhis sound once entered
  exact ⟨passed, entered⟩

/-- The locals of the old method are still assigned before they are read. -/
lemma strict_replacePhis (once : m.ThrowsOnce) (bound : l.index < m.locals.size) :
    (replacePhis m).1.StrictOn l := by
  intro b passed' block' before' entered here reads
  rw [block?_replacePhis sound.toLoose, Option.map_eq_some_iff] at here
  obtain ⟨block, here, rfl⟩ := here
  obtain ⟨passed, entered, kept⟩ := enters_replacePhis sound once entered
  rcases reads_spread sound here reads with ⟨p, -, rfl⟩ | ⟨before, reads, sub⟩
  · exact absurd rfl (carrier_fresh bound)
  · refine mem_append.2 ?_
    rcases mem_append.1 (sound.uses b passed block before l entered here reads) with mine | earlier
    · exact .inl (sub l (.inl mine))
    · by_cases phi : l ∈ (m.phisOf b).map (·.dst)
      · exact .inl (sub l (.inr phi))
      · exact .inr (kept l earlier phi)

/-- A carrier is live only at the block of its phi. -/
lemma carrier_live (once : m.ThrowsOnce) {target} (there : m.block? t = some target) {p}
    (phi : p ∈ target.phis) (reached : m.Reached b)
    (live : (replacePhis m).1.Live (carrier m p.dst) b) : b = t := by
  induction live with
  | read here reads _ =>
    rw [block?_replacePhis sound.toLoose, Option.map_eq_some_iff] at here
    obtain ⟨block, here, rfl⟩ := here
    rcases reads_spread sound here reads with ⟨q, among, same⟩ | ⟨before, reads, -⟩
    · rw [Method.phisOf_eq here] at among
      exact (phi_of_carrier sound.toLoose here there among phi same.symm).1
    · obtain ⟨passed, entered⟩ := reached
      exact absurd rfl (carrier_fresh (sound.read_bound entered here reads))
  | next here leaves unassigned next _ _ ih =>
    rw [block?_replacePhis sound.toLoose, Option.map_eq_some_iff] at here next
    obtain ⟨block, here, rfl⟩ := here
    obtain ⟨block', next, rfl⟩ := next
    obtain ⟨before, leaves, -, copies⟩ := leaves_spread sound once here leaves
    have edge := leaves.edge here
    obtain rfl := ih (reached.next edge (by rw [next]; rfl))
    have covers := sound.phis_cover _ target p _ there phi edge
    obtain ⟨⟨_, v⟩, operand, rfl⟩ := mem_map.1 covers
    exact absurd (copies ⟨_, _, carrier m p.dst, v⟩
      ((mem_copies sound.toLoose).2 ⟨target, p, there, phi, operand, rfl⟩) rfl rfl) unassigned

lemma copies_undefined (cs : List Copy) (copies : ∀ c ∈ cs, c ∈ copiesOf m)
    (bound : l.index < m.locals.size) : l ∉ defined (cs.map Copy.stmt) := by
  rw [defined_copies]
  intro among
  obtain ⟨c, mem, rfl⟩ := mem_map.1 among
  obtain ⟨_, p, -, -, -, same⟩ := (mem_copies sound.toLoose).1 (copies c mem)
  exact carrier_fresh bound same

lemma defined_front (bound : l.index < m.locals.size) (mem : l ∈ defined (spreadFront m b block)) :
    l ∈ (m.phisOf b).map (·.dst) ∨ l ∈ defined (caughtHead block.stmts ++ frontOf block) := by
  have early := copies_undefined sound (earlyCopies m (copiesOf m) b block)
    (fun c among => (mem_filter.1 among).1) bound
  simp only [defined_append, mem_append, defined_headsOf] at mem ⊢
  tauto

lemma defined_spread (here : m.block? b = some block) (bound : l.index < m.locals.size)
    (mem : l ∈ defined (spreadBlock m b block).stmts) : l ∈ block.defs := by
  have late := copies_undefined sound (lateCopies m (copiesOf m) b block)
    (fun c among => (mem_filter.1 among).1) bound
  rw [spread_stmts, defined_append, defined_append, mem_append, mem_append] at mem
  rw [Block.defs, ← Method.phisOf_eq here, stmts_eq block, defined_append, mem_append, mem_append]
  have front := mem.resolve_right late
  rcases front with front | back
  · rcases defined_front sound bound front with phi | stmt
    · exact .inl phi
    · exact .inr (.inl stmt)
  · exact .inr (.inr back)

/-- Behind the replacement of phis every handler finds assigned what it may read. -/
lemma replacePhis_opensBehind (once : m.ThrowsOnce) : (replacePhis m).1.OpensBehind := by
  intro b block' h reached here caught l assigned live
  have reached' := reached_replacePhis sound once reached
  have handler := here
  rw [block?_replacePhis sound.toLoose, Option.map_eq_some_iff] at here
  obtain ⟨block, here, rfl⟩ := here
  rw [exceptionalSuccessors_replacePhis sound] at caught
  rcases spread_shape (m := m) (b := b) (once b block (Method.covered_of_caught caught) here) with
    calm | ⟨s, throws, goes, old, new, calm⟩
  · rw [guardedPart_calm calm] at assigned
    cases assigned
  rw [new, guardedPart_append throws calm, mem_defined_cons] at assigned
  have leaves : m.Leaves b block (caughtHead block.stmts ++ frontOf block) h := .raise old throws caught
  rcases assigned with mine | late
  · have mem : l ∈ defined block.stmts := by
      rw [old, defined_append]
      exact mem_append_right _ (mem_defined_cons.2 (.inl mine))
    have bound := sound.bound b block l here (mem_append_right _ mem)
    -- on the first visit the local is not assigned before the statement throws
    obtain ⟨passed', entered, clean⟩ := reached.unpassed (l := l)
      (by
        intro c _ there among
        rw [block?_replacePhis sound.toLoose, Option.map_eq_some_iff] at there
        obtain ⟨block', there, rfl⟩ := there
        exact sound.defs_apart c b block' block l there here (defined_spread sound there bound among)
          (mem_append_right _ mem))
      (by
        intro c _ there
        rw [block?_replacePhis sound.toLoose, Option.map_eq_some_iff] at there
        obtain ⟨_, -, rfl⟩ := there
        simp [spreadBlock])
    have front : l ∉ defined (spreadFront m b block) := by
      intro among
      have distinct := sound.block_defs b block here
      rw [Block.defs, old, defined_append, nodup_append, nodup_append] at distinct
      have own : l ∈ defined [s] := mem_defined_cons.2 (.inl mine)
      rcases defined_front sound bound among with phi | stmt
      · rw [Method.phisOf_eq here] at phi
        exact distinct.2.2 l phi l (mem_append_right _ own) rfl
      · exact distinct.2.1.2.2 l stmt l own rfl
    obtain ⟨target, there⟩ := Option.isSome_iff_exists.1 (sound.edges b h (leaves.edge here))
    have there' : (replacePhis m).1.block? h = some (spreadBlock m h target) := by
      rw [block?_replacePhis sound.toLoose, there]
      rfl
    have passes := (strict_replacePhis sound once bound).passed
      (.next entered handler (.raise new throws (exceptionalSuccessors_replacePhis sound b ▸ caught)) there')
      live
    rcases mem_append.1 passes with phi | old
    · cases phi
    · exact (mem_append.1 old).elim front clean
  · rw [defined_copies] at late
    obtain ⟨c, among, rfl⟩ := mem_map.1 late
    obtain ⟨copy, from_⟩ := mem_filter.1 among
    obtain ⟨target, p, there, phi, -, same⟩ := (mem_copies sound.toLoose).1 copy
    rw [same] at live
    have exists_ := sound.edges b h (leaves.edge here)
    obtain rfl := carrier_live sound once there phi (reached'.next (leaves.edge here) exists_) live
    simp [goesEarly, caught, goes] at from_

end Paths

end Restack.Pass
