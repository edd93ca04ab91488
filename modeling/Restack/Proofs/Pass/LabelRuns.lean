/-
# Removing jumps keeps runs

A block that only jumps is passed by: from each of its sources a run comes to its target
with the same locals (`skip_hastens`). A glued pair does in one go what its two blocks did
one behind the other, and neither is under a trap, so what either throws escapes as it did
(`glue_hastens`). Each step removes a block, so the steps come to an end
(`cleanLabels_done`).
-/
import Restack.Proofs.Ir.Stops
import Restack.Proofs.Pass.Jumps

namespace Restack.Pass

open List Ir
open Lookup

variable {V : Type} {w : World V} {m : Method}

/-! ## Jumps with another target -/

/-- Comes to another block in place of one. -/
def redirect (old new : BlockId) : Arrival V → Arrival V
  | .moves t st => .moves (if t = old then new else t) st
  | .ends e trace => .ends e trace

lemma exit_retarget (st : State V) (t : Terminator) (old new : BlockId) :
    w.exit st (t.retarget old new) = match w.exit st t with
      | .goto t => .goto (if t = old then new else t)
      | e => e := by
  cases t with
  | branch test first second yes no =>
    simp only [Terminator.retarget, World.exit]
    split <;> rfl
  | switch v cases default =>
    simp only [Terminator.retarget, World.exit]
    congr 1
    induction cases with
    | nil => rfl
    | cons c cases ih =>
      by_cases same : w.key (w.value st.env v) = c.1
      · rw [map_cons, same, lookup_cons_self, lookup_cons_self]
        rfl
      · rw [map_cons, lookup_cons_ne same, lookup_cons_ne same, ih]
  | _ => rfl

variable {c t : BlockId} {found : Block} {p : Phi}

lemma leave_retarget {m' : Method} {b target block block' st} (stmts : block'.stmts = block.stmts)
    (terminator : block'.terminator = block.terminator.retarget b target)
    (handlers : m'.handlersOf c = m.handlersOf c) (plain : m.isHandler b = false) :
    m'.leave w c block' st = redirect b target (m.leave w c block st) := by
  have raise (u : State V) (x : V) : m'.raise w c u x = redirect b target (m.raise w c u x) := by
    rw [show m'.raise w c u x = m.raise w c u x by rw [Method.raise, Method.raise, handlers]]
    rcases Method.raise_cases m w c x with ⟨t, ⟨trap, mem, -, h, handler, rfl⟩, same⟩ | same
    · rw [same, redirect, if_neg (Method.target_ne_of_plain plain mem handler)]
    · rw [same]
      rfl
  cases ran : w.stmts st block.stmts with
  | mk u raised =>
    have ran' := ran
    rw [← stmts] at ran'
    cases raised with
    | some x => rw [Method.leave_raised ran, Method.leave_raised ran', raise]
    | none =>
      rw [Method.leave_exit ran, Method.leave_exit ran', terminator, exit_retarget]
      cases w.exit u block.terminator with
      | goto t => rfl
      | ret v => rfl
      | raise x => exact raise u x

/-! ## Leaving a block out -/

/-- Where each block that stays does what it did, or what it and then the block left out did. -/
lemma Drops.hastens {m' gone g} (drops : Drops gone g m m')
    (step : ∀ {V} (w : World V) (c : BlockId) (block : Block) (st : State V), c ≠ gone →
      m.block? c = some block → m'.arrive w c (m'.leave w c (g c block) st) = m.advance w (.moves c st) ∨
        ∃ u, m.advance w (.moves c st) = .moves gone u ∧
          m'.arrive w c (m'.leave w c (g c block) st) = m.advance w (.moves gone u)) : m'.Hastens m := by
  refine ⟨drops.entry, fun c none_ => ?_, fun {V} w a inside => ?_⟩
  · rw [drops.blocks, none_]
    split <;> rfl
  have one : ∀ j < 0, ((m.advance w)^[j + 1] a).Outside m' := by simp
  cases a with
  | ends e trace => exact ⟨0, rfl, one⟩
  | moves c st =>
    obtain ⟨block', here'⟩ := Option.ne_none_iff_exists'.1 inside
    obtain ⟨ne, block, here, rfl⟩ := drops.found here'
    rw [Method.advance_moves here']
    rcases step w c block st ne here with same | ⟨u, first, same⟩
    · exact ⟨0, same, one⟩
    · -- the run of the method stops at the block left out on the way
      refine ⟨1, by rw [same, ← first]; rfl, fun j small => ?_⟩
      obtain rfl : j = 0 := by omega
      rw [Function.iterate_one, first]
      exact (drops.blocks gone).trans (if_pos rfl)

variable {b target : BlockId} {sources : List BlockId}

namespace Skippable

variable (can : Skippable m b target sources) (sound : m.Sound)

include can sound

lemma mem_sources_of_edge (leads : m.Edge c b) : c ∈ sources := by
  obtain ⟨block, here, jumps | ⟨-, trap, mem, -, h, handler, same⟩⟩ := leads
  · exact can.mem_sources_of_jump sound.linked here jumps
  · exact absurd same (Method.target_ne_of_plain can.plain mem handler)

lemma reroute_nodup (there : m.block? target = some found) (merged : p ∈ found.phis) :
    ((Phi.reroute b sources p).operands.map (·.1)).Nodup := by
  refine (can.loose sound).phis_nodup target (bypassed b target sources target found) _ ?_ ?_
  · exact (can.drops sound.linked).stays there can.other
  · rw [bypassed, if_pos rfl]
    exact mem_map_of_mem merged

lemma lookup_through (there : m.block? target = some found) (merged : p ∈ found.phis)
    (source : c ∈ sources) : (Phi.reroute b sources p).operands.lookup c = p.operands.lookup b := by
  obtain ⟨v, through, operands⟩ := can.reroute_operands sound there merged
  rw [(lookup_eq_some_iff_mem (sound.phis_nodup target found p there merged)).2 through,
    lookup_eq_some_iff_mem (can.reroute_nodup sound there merged), operands]
  exact mem_append_right _ (mem_map.2 ⟨c, source, rfl⟩)

lemma lookup_direct (there : m.block? target = some found) (merged : p ∈ found.phis)
    (other : c ≠ b) (leads : m.Edge c target) :
    (Phi.reroute b sources p).operands.lookup c = p.operands.lookup c := by
  obtain ⟨v, taken⟩ := lookup_isSome_of_mem (sound.phis_cover target found p c there merged leads)
  obtain ⟨_, -, operands⟩ := can.reroute_operands sound there merged
  rw [taken, lookup_eq_some_iff_mem (can.reroute_nodup sound there merged), operands]
  exact mem_append_left _ (mem_filter.2 ⟨mem_of_lookup taken, by simpa using other⟩)

lemma phisOf_bypass (other : t ≠ b) : (bypass m b target sources).phisOf t =
    if t = target then (m.phisOf t).map (Phi.reroute b sources) else m.phisOf t := by
  rw [Method.phisOf, Method.phisOf, (can.drops sound.linked).blocks, if_neg other]
  cases m.block? t with
  | none => simp
  | some block => simp only [Option.map_some, Option.getD_some, bypassed]

lemma arrive_bypass (other : c ≠ b) (leads : m.Edge c t) (st : State V) :
    (bypass m b target sources).arrive w c (redirect b target (.moves t st)) =
      if t = b then m.arrive w b (.moves target st) else m.arrive w c (.moves t st) := by
  rw [redirect]
  by_cases through : t = b
  · subst through
    have source := can.mem_sources_of_edge sound leads
    rw [if_pos rfl, if_pos rfl, Method.arrive, Method.arrive, can.phisOf_bypass sound can.other, if_pos rfl]
    refine congrArg (Arrival.moves target) (World.assignPhis_map fun p merged => ?_)
    obtain ⟨found, there, merged⟩ := Method.mem_phisOf merged
    exact ⟨reroute_dst .., can.lookup_through sound there merged source⟩
  · rw [if_neg through, Method.arrive, can.phisOf_bypass sound through]
    split
    · subst t
      refine congrArg (Arrival.moves target) (World.assignPhis_map fun p merged => ?_)
      obtain ⟨found, there, merged⟩ := Method.mem_phisOf merged
      exact ⟨reroute_dst .., can.lookup_direct sound there merged other leads⟩
    · rfl

lemma bypass_hastens : (bypass m b target sources).Hastens m := by
  have drops := can.drops sound.linked
  refine drops.hastens fun w c block st ne here => ?_
  have handlers : (bypass m b target sources).handlersOf c = m.handlersOf c := by
    rw [Method.handlersOf, Method.handlersOf, drops.traps]
  have left' : (bypass m b target sources).leave w c (bypassed b target sources c block) st =
      redirect b target (m.leave w c block st) := leave_retarget rfl rfl handlers can.plain
  rw [Method.advance_moves here, left']
  cases left : m.leave w c block st with
  | ends e trace => exact .inl rfl
  | moves t st' =>
    obtain ⟨before, goes⟩ := Method.goes_of_leave left
    rw [can.arrive_bypass sound ne ((goes.leaves here).edge here)]
    by_cases through : t = b
    · subst through
      refine .inr ⟨st', ?_, ?_⟩
      · rw [Method.arrive, Method.phisOf_eq can.block, World.assignPhis_nil]
      · rw [if_pos rfl, Method.advance_moves can.block]
        rfl
    · exact .inl (if_neg through)

end Skippable

lemma pruneEdges_hastens (listed : ∀ b, (m.block? b).isSome = true → b ∈ m.layout)
    (edges : m.EdgesLand) : m.pruneEdges.Hastens m := by
  refine ⟨rfl, fun b gone => ?_, fun w a _ => ⟨0, Method.advance_pruneEdges listed edges a, by simp⟩⟩
  rw [Method.block?_pruneEdges, gone, Option.map_none]

lemma skip_hastens (sound : m.Sound) (can : Skippable m b target sources) :
    (skip m b target sources).Hastens m := by
  have loose := can.loose sound
  exact (pruneEdges_hastens (fun c => (loose.mem_layout c).2) loose.edges).trans
    (can.bypass_hastens sound) loose.edges

lemma skip_handlersOf (sound : m.Sound) (can : Skippable m b target sources)
    (exists_ : ((skip m b target sources).block? c).isSome = true) :
    (skip m b target sources).handlersOf c = m.handlersOf c := by
  have drops := can.drops sound.linked
  rw [skip_eq, Method.block?_pruneEdges_isSome] at exists_
  rw [skip_eq, Method.handlersOf_pruneEdges exists_, Method.handlersOf, Method.handlersOf,
    drops.traps, filter_eq_self]
  intro h among
  obtain ⟨trap, mem, handler⟩ := mem_flatMap.1 among
  have mem := (mem_filter.1 mem).1
  rw [drops.isSome (Method.target_ne_of_plain can.plain mem handler)]
  exact sound.handlers trap mem h handler

/-! ## Gluing a block to its predecessor -/

lemma raise_uncovered {b} (uncovered : m.isCovered b = false) (st : State V) (x : V) :
    m.raise w b st x = .ends (.escaped x) st.trace := by
  rcases Method.raise_cases m w b x with ⟨t, ⟨trap, mem, covers, -⟩, -⟩ | same
  · have covered := Method.isCovered_iff.2 ⟨trap, mem, covers⟩
    rw [uncovered] at covered
    cases covered
  · exact same st

namespace Gluable

variable {next : BlockId} {absorbed : Block} (can : Gluable m b next absorbed) (sound : m.Sound)

include can

/-- The glued block does what the first block and, unless that throws, the second do. -/
lemma leave_glued {block} (here : m.block? b = some block) (st : State V) :
    (∃ e trace, m.leave w b block st = .ends e trace ∧
      (glue m b next absorbed).leave w b (glued b next absorbed b block) st = .ends e trace) ∨
    ∃ u, m.leave w b block st = .moves next u ∧
      (glue m b next absorbed).leave w b (glued b next absorbed b block) st = m.leave w next absorbed u := by
  obtain ⟨block', here', jumps⟩ := can.block
  rw [here] at here'
  cases here'
  have escapes := raise_uncovered (m := glue m b next absorbed) (w := w) can.uncovered
  have stmts : (glued b next absorbed b block).stmts = block.stmts ++ absorbed.stmts := if_pos rfl
  have terminator : (glued b next absorbed b block).terminator = absorbed.terminator := if_pos rfl
  cases ran : w.stmts st block.stmts with
  | mk u raised =>
    cases raised with
    | some x =>
      have ran' := World.stmts_append_some absorbed.stmts ran
      rw [← stmts] at ran'
      refine .inl ⟨.escaped x, u.trace, ?_, ?_⟩
      · rw [Method.leave_raised ran, raise_uncovered can.uncovered]
      · rw [Method.leave_raised ran', escapes]
    | none =>
      have both := World.stmts_append_none absorbed.stmts ran
      rw [← stmts] at both
      refine .inr ⟨u, by rw [Method.leave_exit ran, jumps]; rfl, ?_⟩
      cases ran' : w.stmts u absorbed.stmts with
      | mk u' raised =>
        rw [ran'] at both
        cases raised with
        | some x =>
          rw [Method.leave_raised both, Method.leave_raised ran', escapes, raise_uncovered can.uncovered_next]
        | none =>
          rw [Method.leave_exit both, Method.leave_exit ran', terminator]
          cases w.exit u' absorbed.terminator with
          | goto t => rfl
          | ret v => rfl
          | raise x => exact (escapes u' x).trans (raise_uncovered can.uncovered_next u' x).symm

lemma phisOf_glue (other : t ≠ next) :
    (glue m b next absorbed).phisOf t = (m.phisOf t).map (Phi.rename next b) := by
  rw [Method.phisOf, Method.phisOf, can.drops.blocks, if_neg other]
  cases m.block? t <;> rfl

include sound

lemma lookup_rename (merged : p ∈ m.phisOf t) (elsewhere : t ≠ next) (leads : m.Edge c t) :
    (Phi.rename next b p).operands.lookup (if c = next then b else c) = p.operands.lookup c := by
  obtain ⟨found, there, merged⟩ := Method.mem_phisOf merged
  obtain ⟨v, taken⟩ := lookup_isSome_of_mem (sound.phis_cover t found p c there merged leads)
  rw [taken, lookup_eq_some_iff_mem (can.rename_nodup sound elsewhere there merged), mem_rename]
  split
  · rename_i second
    exact .inr ⟨rfl, second ▸ mem_of_lookup taken⟩
  · rename_i apart
    exact .inl ⟨mem_of_lookup taken, apart⟩

lemma arrive_glue (leads : m.Edge c t) (other : c ≠ b) (st : State V) :
    (glue m b next absorbed).arrive w (if c = next then b else c) (.moves t st) =
      m.arrive w c (.moves t st) := by
  have elsewhere : t ≠ next := fun same => other (can.edge_second sound.linked (same ▸ leads))
  rw [Method.arrive, can.phisOf_glue elsewhere]
  exact congrArg (Arrival.moves t) (World.assignPhis_map fun p merged =>
    ⟨rfl, can.lookup_rename sound merged elsewhere leads⟩)

end Gluable

lemma glue_hastens {b next absorbed} (sound : m.Sound)
    (can : Gluable m b next absorbed) : (glue m b next absorbed).Hastens m := by
  refine can.drops.hastens fun w c block st ne here => ?_
  rw [Method.advance_moves here]
  by_cases same : c = b
  · subst same
    rcases can.leave_glued (w := w) here st with ⟨e, trace, left, left'⟩ | ⟨u, left, left'⟩
    · rw [left, left']
      exact .inl rfl
    · refine .inr ⟨u, ?_, ?_⟩
      · rw [left, Method.arrive, Method.phisOf_eq can.behind, can.bare, World.assignPhis_nil]
      · rw [Method.advance_moves can.behind, left']
        cases beyond : m.leave w next absorbed u with
        | ends e trace => rfl
        | moves t st' =>
          obtain ⟨before, goes⟩ := Method.goes_of_leave beyond
          have leads := (goes.leaves can.behind).edge can.behind
          have arrives := can.arrive_glue (w := w) sound leads can.other st'
          rwa [if_pos rfl] at arrives
  · have left' : (glue m b next absorbed).leave w c (Gluable.glued b next absorbed c block) st =
        m.leave w c block st := Method.leave_congr (if_neg same) (if_neg same) fun _ => rfl
    rw [left']
    cases left : m.leave w c block st with
    | ends e trace => exact .inl rfl
    | moves t st' =>
      obtain ⟨before, goes⟩ := Method.goes_of_leave left
      have arrives := can.arrive_glue (w := w) sound ((goes.leaves here).edge here) same st'
      rw [if_neg ne] at arrives
      exact .inl arrives

/-! ## All jumps -/

/-- A method with fewer blocks that runs like another and sends exceptions where it does. -/
structure Shortens (m' m : Method) : Prop where
  sound : m'.Sound
  hastens : m'.Hastens m
  handlers : ∀ b, (m'.block? b).isSome = true → m'.handlersOf b = m.handlersOf b

lemma Shortens.step {m' m''} (shortens : Shortens m' m) (sound : m''.Sound) (hastens : m''.Hastens m')
    (handlers : ∀ b, (m''.block? b).isSome = true → m''.handlersOf b = m'.handlersOf b) : Shortens m'' m := by
  refine ⟨sound, hastens.trans shortens.hastens shortens.sound.edges, fun b exists_ =>
    (handlers b exists_).trans (shortens.handlers b ?_)⟩
  exact Option.ne_none_iff_isSome.1 fun gone =>
    Option.ne_none_iff_isSome.2 exists_ (hastens.blocks b gone)

lemma cleanLabels_shortens (sound : m.Sound) : Shortens (cleanLabels m).1 m := by
  refine cleanLabels_preserves (P := fun m' => Shortens m' m) ?_ ?_ ⟨sound, .refl m, fun _ _ => rfl⟩
  · intro m' b target sources shortens _ can
    exact shortens.step (skip_sound shortens.sound can) (skip_hastens shortens.sound can)
      fun _ exists_ => skip_handlersOf shortens.sound can exists_
  · intro m' b next absorbed shortens _ can
    exact shortens.step (glue_sound shortens.sound can) (glue_hastens shortens.sound can) fun _ _ => rfl

lemma step_smaller {smaller} (sound : m.Sound) (step : (skipFirst? m <|> glueFirst? m) = some smaller) :
    smaller.Sound ∧ smaller.layout.length < m.layout.length := by
  have drop {b : BlockId} (mem : b ∈ m.layout) :
      (m.layout.filter (· != b)).length < m.layout.length :=
    length_filter_lt_length_iff_exists.2 ⟨b, mem, by simp⟩
  rcases cleanLabels_step step with ⟨b, target, sources, mem, can, rfl⟩ |
      ⟨b, next, absorbed, -, can, rfl⟩
  · refine ⟨skip_sound sound can, ?_⟩
    rw [skip_eq, Method.pruneEdges_layout, (can.drops sound.linked).layout]
    exact drop mem
  · refine ⟨glue_sound sound can, drop ((sound.mem_layout next).2 ?_)⟩
    rw [can.behind]
    rfl

/-- There are no more steps than blocks, so none is left to be done. -/
lemma cleanLabels_done (sound : m.Sound) :
    (skipFirst? (cleanLabels m).1 <|> glueFirst? (cleanLabels m).1) = none := by
  have enough (fuel : Nat) : ∀ m : Method, m.Sound → m.layout.length ≤ fuel →
      (skipFirst? (cleanLabelsWith fuel m).1 <|> glueFirst? (cleanLabelsWith fuel m).1) = none := by
    induction fuel with
    | zero =>
      intro m _ short
      have empty : m.layout = [] := length_eq_zero_iff.1 (Nat.le_zero.1 short)
      simp [cleanLabelsWith, skipFirst?, glueFirst?, empty]
    | succ fuel ih =>
      intro m sound short
      rw [cleanLabelsWith]
      split
      · rename_i smaller step
        obtain ⟨sound', less⟩ := step_smaller sound step
        exact ih smaller sound' (by omega)
      · rename_i done
        exact done
  exact enough _ m sound (Nat.le_refl _)

/-- Removing jumps comes to an end and keeps every run: the new method stops where the
old one does, at the same blocks with the same locals, the same exception caught and the
same events, and passes by nothing but blocks that are gone. The blocks that are left
have the handlers that they had. -/
theorem cleanLabels_keeps_runs (valid : m.Valid) (bound : ∀ l ∈ m.defs, l.index < m.locals.size) :
    let m' := (cleanLabels m).1
    (skipFirst? m' = none ∧ glueFirst? m' = none) ∧
    (∀ b, (m'.block? b).isSome = true → m'.handlersOf b = m.handlersOf b) ∧
    ∀ (V : Type) (w : World V) (st : State V), ∃ g : Nat → Nat, g 0 = 0 ∧ StrictMono g ∧
      (∀ k, m'.stop w k st = m.stop w (g k) st ∧ m'.run w k st = m.run w (g k) st) ∧
      ∀ n, n ∉ Set.range g → (m.stop w n st).Outside m' := by
  have sound := valid.sound bound
  have shortens := cleanLabels_shortens sound
  have done := cleanLabels_done sound
  refine ⟨?_, shortens.handlers, fun V w st => ?_⟩
  · cases skipped : skipFirst? (cleanLabels m).1 with
    | some smaller => simp [skipped] at done
    | none => exact ⟨rfl, by simpa [skipped] using done⟩
  · obtain ⟨g, zero, rising, stops, missed⟩ :=
      shortens.hastens.stops shortens.sound.entry shortens.sound.edges w st
    refine ⟨g, zero, rising, fun k => ⟨stops k, ?_⟩, missed⟩
    rw [Method.run_eq_stop, Method.run_eq_stop]
    exact congrArg Arrival.observed (stops k)

/-- A guarded call whose two ways out lead through blocks that only jump to where they
join with the handler; what follows there can be glued, and two more blocks jump to each
other. -/
def detour : Method where
  owner := "LDetour;"
  name := "run"
  descriptor := "()V"
  isStatic := true
  params := #[]
  returnType := "V"
  blocks := #[some ⟨[], [.effect (.invoke .static ⟨"LDetour;", "see", "()V"⟩ [])],
      .branch .eq (.const (.int 0)) none ⟨1⟩ ⟨2⟩⟩, some ⟨[], [], .goto ⟨3⟩⟩, some ⟨[], [], .goto ⟨3⟩⟩,
    some ⟨[], [], .goto ⟨5⟩⟩, some ⟨[], [.assign ⟨0⟩ .caught], .goto ⟨5⟩⟩,
    some ⟨[⟨⟨1⟩, [(⟨3⟩, .const .null), (⟨4⟩, .var ⟨0⟩)]⟩],
      [.putStatic ⟨"LDetour;", "last", "Ljava/lang/Object;"⟩ (.var ⟨1⟩)], .goto ⟨6⟩⟩,
    some ⟨[], [], .ret none⟩, some ⟨[], [], .goto ⟨8⟩⟩, some ⟨[], [], .goto ⟨7⟩⟩]
  layout := [⟨0⟩, ⟨1⟩, ⟨2⟩, ⟨3⟩, ⟨4⟩, ⟨5⟩, ⟨6⟩, ⟨7⟩, ⟨8⟩]
  entry := ⟨0⟩
  traps := [⟨[⟨0⟩, ⟨1⟩], [⟨none, ⟨4⟩⟩]⟩]
  locals := Array.replicate 2 .unknown

lemma detour_valid : detour.Valid :=
  Method.valid_of_near (by decide) (by decide) (by decide) (by decide) (by decide)

theorem detour_keeps_runs : detour.Valid ∧ (∀ l ∈ detour.defs, l.index < detour.locals.size) ∧
    (cleanLabels detour).1.layout = [⟨0⟩, ⟨4⟩, ⟨5⟩, ⟨8⟩] ∧
    (skipFirst? (cleanLabels detour).1 = none ∧ glueFirst? (cleanLabels detour).1 = none) ∧
    (∀ b, ((cleanLabels detour).1.block? b).isSome = true →
      (cleanLabels detour).1.handlersOf b = detour.handlersOf b) ∧
    ∀ (V : Type) (w : World V) (st : State V), ∃ g : Nat → Nat, g 0 = 0 ∧ StrictMono g ∧
      (∀ k, (cleanLabels detour).1.stop w k st = detour.stop w (g k) st ∧
        (cleanLabels detour).1.run w k st = detour.run w (g k) st) ∧
      ∀ n, n ∉ Set.range g → (detour.stop w n st).Outside (cleanLabels detour).1 :=
  ⟨detour_valid, by decide, by decide, cleanLabels_keeps_runs detour_valid (by decide)⟩

end Restack.Pass
