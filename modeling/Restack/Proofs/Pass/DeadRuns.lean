/-
# Removing dead code keeps runs

No run comes to a block that no path reaches (`removeUnreachable_stop`), and sweeping leaves the
live locals alone (`trimmed_runs`). So runs go through the same blocks, answer for answer, and
agree on all live locals (`sweep_alike`), which are the only ones that are still read
(`isLive_of_uses`).
-/
import Restack.Proofs.Ir.Stops
import Restack.Proofs.Pass.Shape

namespace Restack.Ir.Method

variable {V : Type} {w : World V} {st : State V} {m : Method}

/-! ## Blocks that no path reaches -/

lemma Linked.edges (linked : m.Linked) (housed : m.Housed) (p t : BlockId) (leads : m.Edge p t) :
    (m.block? t).isSome = true := by
  obtain ⟨block, here, jumps | ⟨-, trap, mem, -, h, handler, rfl⟩⟩ := leads
  · exact linked.targets p block t here jumps
  · exact housed.handlers _ (isHandler_iff.2 ⟨trap, mem, h, handler, rfl⟩)

lemma advance_restrict {kept} (closed : ∀ p ∈ kept, ∀ t, m.Edge p t → t ∈ kept)
    {a} (inside : ¬ a.Outside (m.restrict kept)) : (m.restrict kept).advance w a = m.advance w a := by
  cases a with
  | ends e trace => rfl
  | moves b st =>
    obtain ⟨block, here'⟩ := Option.ne_none_iff_exists'.1 inside
    obtain ⟨mem, here⟩ := block?_restrict_some.1 here'
    have same : (m.restrict kept).leave w b block st = m.leave w b block st :=
      leave_congr rfl rfl fun _ => rfl
    rw [advance_moves here', advance_moves here, same]
    cases left : m.leave w b block st with
    | ends e trace => rfl
    | moves t st' =>
      obtain ⟨before, goes⟩ := goes_of_leave left
      have leads := closed b mem t ((goes.leaves here).edge here)
      rw [arrive, arrive, phisOf, phisOf, block?_restrict, if_pos leads]

lemma stop_restrict {kept} (linked : m.Linked) (housed : m.Housed)
    (entry : m.entry ∈ kept) (closed : ∀ p ∈ kept, ∀ t, m.Edge p t → t ∈ kept) (n : Nat) :
    (m.restrict kept).pruneEdges.stop w n st = m.stop w n st := by
  have edges := edges_restrict (linked.edges housed) closed
  rw [stop_pruneEdges (fun b found => ?_) edges]
  · refine stop_congr (show (m.restrict kept).entry = m.entry from rfl) ?_ edges
      (fun a inside => advance_restrict closed inside) n
    exact (congrArg Option.isSome ((block?_restrict (b := m.entry)).trans (if_pos entry))).trans
      housed.entry
  · obtain ⟨block, here⟩ := Option.isSome_iff_exists.1 found
    obtain ⟨mem, here⟩ := block?_restrict_some.1 here
    exact List.mem_filter.2 ⟨(linked.mem_layout b).2 (by simp [here]), by simpa using mem⟩

lemma removeUnreachable_stop (linked : m.Linked) (housed : m.Housed) (n : Nat) :
    m.removeUnreachable.1.stop w n st = m.stop w n st := by
  rw [removeUnreachable_eq]
  split
  · rfl
  · exact stop_restrict linked housed (reachable_searched.entry housed.entry)
      (reachable_closed (linked.edges housed)) n

end Restack.Ir.Method

namespace Restack.Pass

open List Ir

variable {V : Type} {w : World V} {st st' : State V} {m : Method}

/-! ## Statements that are trimmed -/

lemma Agree.trans {G H u} (first : Agree G st st')
    (second : Agree H st' u) : Agree (fun l => G l ∧ H l) st u :=
  ⟨second.caught.trans first.caught, second.trace.trans first.trace,
    fun l both => (second.env l both.2).trans (first.env l both.1)⟩

lemma stmt_effect {e : Expr} (throws : e.canThrow = true) (dst : Local) (st : State V) :
    ∃ t t' r, w.stmt st (.assign dst e) = (t, r) ∧ w.stmt st (.effect e) = (t', r) ∧
      Agree (· ≠ dst) t t' := by
  have event : (Stmt.assign dst e).operation? = (Stmt.effect e).operation? := rfl
  obtain ⟨op, found, ran⟩ := World.stmt_throwing (w := w) (s := .assign dst e) st throws
  obtain ⟨op', found', ran'⟩ := World.stmt_throwing (w := w) (s := .effect e) st throws
  obtain rfl : op' = op := Option.some.inj (found'.symm.trans (event.symm.trans found))
  have values : (Stmt.effect e).values = (Stmt.assign dst e).values := rfl
  rw [values] at ran'
  rcases ran with ⟨x, answer, ran⟩ | ⟨v, answer, ran⟩ <;>
    rcases ran' with ⟨x', answer', ran'⟩ | ⟨v', answer', ran'⟩ <;> rw [answer] at answer' <;>
    cases answer'
  · exact ⟨_, _, _, ran, ran', rfl, rfl, fun _ _ => rfl⟩
  · refine ⟨_, _, _, ran, ran', rfl, rfl, fun l other => ?_⟩
    exact (if_neg other).symm

/-- A statement and what is left of it do the same to live locals. -/
lemma trimmed_run {live : Local → Bool} {s} (agree : Agree (live · = true) st st')
    (reads : ∀ s', trimmed live s = some s' → ∀ l, .var l ∈ s'.values → live l = true) :
    (trimmed live s = none ∧ ∃ t, w.stmt st s = (t, none) ∧ Agree (live · = true) t st') ∨
      ∃ s' t t' r, trimmed live s = some s' ∧ w.stmt st s = (t, r) ∧ w.stmt st' s' = (t', r) ∧
        Agree (live · = true) t t' := by
  have kept (same : trimmed live s = some s) :
      ∃ s' t t' r, trimmed live s = some s' ∧ w.stmt st s = (t, r) ∧ w.stmt st' s' = (t', r) ∧
        Agree (live · = true) t t' := by
    obtain ⟨t, t', r, ran, ran', agree'⟩ := agree.stmt (w := w) (reads s same)
    exact ⟨s, t, t', r, same, ran, ran', agree'.mono fun l on => .inl on⟩
  cases s with
  | assign dst e =>
    by_cases on : live dst = true
    · exact .inr (kept (if_pos on))
    · by_cases pure_ : e.isPure = true
      · refine .inl ⟨by simp [trimmed, on, pure_], _, World.stmt_calm st ?_, ?_⟩
        · simp [Stmt.canThrow, Expr.canThrow_eq, pure_]
        · refine ⟨agree.caught, agree.trace, fun l live => ?_⟩
          have other : l ≠ dst := fun same => on (same ▸ live)
          exact (agree.env l live).trans (if_neg other).symm
      · have same : trimmed live (.assign dst e) = some (.effect e) := by simp [trimmed, on, pure_]
        have throws : e.canThrow = true := by simp [Expr.canThrow_eq, pure_]
        obtain ⟨t, u, r, ran, dropped, agree₁⟩ := stmt_effect (w := w) throws dst st
        obtain ⟨u', t', r', ran₁, ran', agree₂⟩ := agree.stmt (w := w) (reads _ same)
        obtain ⟨rfl, rfl⟩ := Prod.mk.inj (dropped.symm.trans ran₁)
        refine .inr ⟨_, t, t', r, same, ran, ran', (Agree.trans agree₁ agree₂).mono fun l live => ?_⟩
        exact ⟨fun same => on (same ▸ live), .inl live⟩
  | effect e =>
    by_cases pure_ : e.isPure = true
    · refine .inl ⟨by simp [trimmed, pure_], st, ?_, agree⟩
      exact World.stmt_calm st (by simp [Stmt.canThrow, Expr.canThrow_eq, pure_])
    · exact .inr (kept (if_neg pure_))
  | _ => exact .inr (kept rfl)

lemma trimmed_runs {live : Local → Bool} (stmts : List Stmt) (agree : Agree (live · = true) st st')
    (reads : ∀ s ∈ stmts, ∀ s', trimmed live s = some s' → ∀ l, .var l ∈ s'.values → live l = true) :
    ∃ t t' r, w.stmts st stmts = (t, r) ∧ w.stmts st' (stmts.filterMap (trimmed live)) = (t', r) ∧
      Agree (live · = true) t t' := by
  induction stmts generalizing st st' with
  | nil => exact ⟨st, st', none, rfl, rfl, agree⟩
  | cons s stmts ih =>
    obtain ⟨first, later⟩ := forall_mem_cons.1 reads
    rcases trimmed_run (w := w) agree first with
      ⟨gone, t, ran, agree'⟩ | ⟨s', t, t', r, left, ran, ran', agree'⟩
    · rw [filterMap_cons_none gone, World.stmts, ran]
      exact ih agree' later
    · rw [filterMap_cons_some left, World.stmts, World.stmts, ran, ran']
      cases r with
      | some x => exact ⟨t, t', some x, rfl, rfl, agree'⟩
      | none => exact ih agree' later

/-! ## Blocks that are swept -/

lemma assignPhis_live {live : Local → Bool} {phis : List Phi} (source : BlockId)
    (agree : Agree (live · = true) st st')
    (reads : ∀ p ∈ phis, live p.dst = true → ∀ q l, (q, .var l) ∈ p.operands → live l = true) :
    Agree (live · = true) (w.assignPhis source phis st)
      (w.assignPhis source (phis.filter fun p => live p.dst) st') := by
  refine ⟨agree.caught, agree.trace, fun l on => ?_⟩
  have same : (phis.filter fun p => live p.dst).find? (·.dst = l) = phis.find? (·.dst = l) := by
    rw [find?_filter]
    refine congrArg (find? · phis) (funext fun p => ?_)
    by_cases dst : p.dst = l <;> simp [dst, on]
  simp only [World.assignPhis, same]
  cases found : phis.find? (·.dst = l) with
  | none => exact agree.env l on
  | some p =>
    obtain rfl : p.dst = l := by simpa using find?_some found
    simp only [Option.bind_some]
    cases taken : p.operands.lookup source with
    | none => exact agree.env _ on
    | some v =>
      refine agree.value fun k var => ?_
      subst var
      exact reads p (mem_of_find?_eq_some found) on source k (Lookup.mem_of_lookup taken)

lemma isLive_of_operand {v v' l} (same : LiveOperand m v v') (var : v' = .var l) : isLive m l = true := by
  obtain ⟨rfl, live⟩ := same
  exact live l var

/-- What a block becomes. -/
def swept (m : Method) (block : Block) : Block := { block with
  phis := block.phis.filter fun p => isLive m p.dst
  stmts := block.stmts.filterMap (trimmed (isLive m)) }

lemma block?_sweep (b : BlockId) : (sweep m).block? b = (m.block? b).map (swept m) :=
  Method.block?_mapBlocks _

section Sweep

variable (bound : ∀ b block, m.block? b = some block → ReadsBound m block)

include bound

lemma swept_rewritten {b block} (here : m.block? b = some block) :
    block.Rewritten (trimmed (isLive m)) (isLive m) (LiveOperand m) (swept m block) := by
  have here' : (sweep m).block? b = some (swept m block) := by rw [block?_sweep, here]; rfl
  obtain ⟨block', found, rewritten⟩ := (sweep_rewrites bound).blocks b _ here'
  rw [here] at found
  cases found
  exact rewritten

lemma arrive_alike (b : BlockId) {a a' : Arrival V} (alike : a.Alike (isLive m · = true) a') :
    (m.arrive w b a).Alike (isLive m · = true) ((sweep m).arrive w b a') := by
  cases alike with
  | ends => exact .ends
  | @moves t st st' agree =>
    have phis : (sweep m).phisOf t = (m.phisOf t).filter fun p => isLive m p.dst := by
      rw [Method.phisOf, Method.phisOf, block?_sweep]
      cases m.block? t <;> rfl
    rw [Method.arrive, Method.arrive, phis]
    refine .moves (assignPhis_live b agree fun p merged live q l operand => ?_)
    obtain ⟨target, there, merged⟩ := Method.mem_phisOf merged
    have rewritten := swept_rewritten bound there
    obtain ⟨_, -, -, operands⟩ := rewritten.operands p (mem_filter.2 ⟨merged, live⟩)
    obtain ⟨v, -, same⟩ := operands q _ operand
    exact isLive_of_operand same rfl

/-- A swept block does to live locals what the block did. -/
lemma leave_alike {b block} (here : m.block? b = some block) (agree : Agree (isLive m · = true) st st') :
    (m.leave w b block st).Alike (isLive m · = true) ((sweep m).leave w b (swept m block) st') := by
  have rewritten := swept_rewritten bound here
  have raise {u u' : State V} (agree : Agree (isLive m · = true) u u') (x : V) :
      (m.raise w b u x).Alike (isLive m · = true) ((sweep m).raise w b u' x) := by
    change (m.raise w b u x).Alike _ (m.raise w b u' x)
    rcases Method.raise_cases m w b x with ⟨t, -, same⟩ | same
    · rw [same, same]
      exact .moves (agree.catching x)
    · rw [same, same, agree.trace]
      exact .ends
  obtain ⟨t, t', r, ran, ran', agree'⟩ := trimmed_runs (w := w) block.stmts agree
    fun s mem s' made l operand => by
      obtain ⟨v, -, same⟩ := rewritten.values s mem s' made _ operand
      exact isLive_of_operand same rfl
  cases r with
  | some x =>
    rw [Method.leave_raised ran, Method.leave_raised ran']
    exact raise agree' x
  | none =>
    have exits : w.exit t' (swept m block).terminator = w.exit t block.terminator :=
      agree'.exit fun l operand => by
        obtain ⟨v, -, same⟩ := rewritten.terminator _ operand
        exact isLive_of_operand same rfl
    rw [Method.leave_exit ran, Method.leave_exit ran', exits]
    cases w.exit t block.terminator with
    | goto t => exact .moves agree'
    | ret v =>
      rw [agree'.trace]
      exact .ends
    | raise x => exact raise agree' x

lemma sweep_advance {a a' : Arrival V} (alike : a.Alike (isLive m · = true) a') :
    (m.advance w a).Alike (isLive m · = true) ((sweep m).advance w a') := by
  cases alike with
  | ends => exact .ends
  | @moves b st st' agree =>
    have here' := block?_sweep (m := m) b
    cases here : m.block? b with
    | none =>
      simp only [Method.advance, here, here']
      exact .moves agree
    | some block =>
      rw [here] at here'
      rw [Method.advance_moves here, Method.advance_moves here']
      exact arrive_alike bound b (leave_alike bound here agree)

lemma sweep_alike (n : Nat) : (m.stop w n st).Alike (isLive m · = true) ((sweep m).stop w n st) :=
  Method.stop_alike (show (sweep m).entry = m.entry from rfl)
    (fun _ _ alike => sweep_advance bound alike) n

/-- What is still read is live. -/
lemma isLive_of_uses {l} (read : l ∈ (sweep m).uses) : isLive m l = true := by
  obtain ⟨b, block', here', read⟩ := Method.exists_mem_blockList.1 (mem_flatMap.1 read)
  rw [block?_sweep, Option.map_eq_some_iff] at here'
  obtain ⟨block, here, rfl⟩ := here'
  have rewritten := swept_rewritten bound here
  rw [mem_localsOf, mem_append, mem_append] at read
  rcases read with (phi | stmt) | ends
  · obtain ⟨p, merged, among⟩ := mem_flatMap.1 phi
    obtain ⟨o, taken, same⟩ := mem_map.1 among
    obtain ⟨_, -, -, operands⟩ := rewritten.operands p merged
    obtain ⟨v, -, kept⟩ := operands o.1 o.2 taken
    exact isLive_of_operand kept same
  · obtain ⟨s', mem, among⟩ := mem_flatMap.1 stmt
    obtain ⟨s, old, made⟩ := mem_filterMap.1 mem
    obtain ⟨v, -, kept⟩ := rewritten.values s old s' made _ among
    exact isLive_of_operand kept rfl
  · obtain ⟨v, -, kept⟩ := rewritten.terminator _ ends
    exact isLive_of_operand kept rfl

end Sweep

/-! ## All dead code -/

lemma readsBound_of_marked {mark} (marked : m.Marked mark) (b : BlockId) (block : Block)
    (here : m.block? b = some block) : ReadsBound m block := by
  have old := marked.blocks b block here
  exact ⟨fun s mem l operand => (old.stmts s mem).reads _ operand l rfl,
    fun l operand => old.terminator _ operand l rfl,
    fun p mem q l operand => (old.phis p mem).reads _ operand l rfl⟩

lemma removeDead_alike {mark} (linked : m.Linked) (housed : m.Housed) (marked : m.Marked mark) (n : Nat) :
    (m.stop w n st).Alike (· ∈ (removeDead m).1.uses) ((removeDead m).1.stop w n st) := by
  have keeps := Method.Keeps.removeUnreachable linked
  have bound := readsBound_of_marked marked.removeUnreachable.pruneEdges
  rw [← Method.removeUnreachable_stop linked housed, ← Method.stop_pruneEdges
    (fun b => (keeps.linked.mem_layout b).2) (keeps.linked.edges (keeps.housed housed)), removeDead_fst]
  exact (sweep_alike bound n).mono fun l read => isLive_of_uses bound read

lemma removeDead_reached {mark} (linked : m.Linked) (housed : m.Housed)
    (marked : m.Marked mark) (b : BlockId) (exists_ : ((removeDead m).1.block? b).isSome = true) :
    (removeDead m).1.Reached b := by
  have keeps := Method.Keeps.removeUnreachable linked
  have bound := readsBound_of_marked marked.removeUnreachable.pruneEdges
  rw [removeDead_fst] at exists_ ⊢
  rw [(sweep_rewrites bound).exists_, Method.block?_pruneEdges_isSome] at exists_
  refine (sweep_rewrites bound).reached (.prune (keeps.linked.edges (keeps.housed housed)) ?_)
  exact Method.reached_removeUnreachable housed.entry (linked.edges housed) b exists_

end Restack.Pass
