/-
# What registers hold on the way from block to block

A block may define again what an earlier visit to it defined, so a local that
follows a register must not be one of those. It is not: on the first way to a
block its own definitions are still to come, while the locals that the tables
name at its entry are there on every way (`Rendering.ready`). So what registers hold
at the end of a block they hold at the entry of the next (`Rendering.arrive`).
-/
import Restack.Proofs.Ir.Run
import Restack.Proofs.Lifting.Form

namespace Restack.Lifting

open List

open Register (Reg Code)
open Ir (BlockId Local Value Block World defined)

section First

variable {m : Ir.Method} {b c : BlockId} {block : Block} {passed : List Local} {l : Local}

/-- What a path has passed was passed for the first time at some step. -/
lemma first_passed (entered : m.Enters c passed) (among : l ∈ passed) :
    ∃ p source before t target passed', m.Enters p passed' ∧ m.block? p = some source ∧
      m.Leaves p source before t ∧ m.block? t = some target ∧ l ∉ passed' ∧
      (l ∈ target.phis.map (·.dst) ∨ l ∈ defined before) := by
  induction entered with
  | start => cases among
  | @next p t passed source target before entered here leaves there ih =>
    by_cases earlier : l ∈ passed
    · exact ih earlier
    · refine ⟨p, source, before, t, target, passed, entered, here, leaves, there, earlier, ?_⟩
      exact (mem_append.1 among).imp_right fun rest => (mem_append.1 rest).resolve_right earlier

lemma first_entry (loose : m.Loose) (here : m.block? b = some block)
    (mem : l ∈ defined block.stmts) (entered : m.Enters c passed) (among : l ∈ passed) :
    ∃ passed', m.Enters b passed' ∧ l ∉ passed' := by
  obtain ⟨p, source, before, t, target, passed', entered', here', leaves, there, absent, phi | new⟩ :=
    first_passed entered among
  · exact (loose.phi_apart there here phi mem).elim
  · obtain rfl := loose.defs_apart b p _ _ l here here' (mem_append_right _ mem)
      (mem_append_right _ (leaves.defined_sub new))
    exact ⟨passed', entered', absent⟩

lemma first_arrival (loose : m.Loose) (here : m.block? b = some block)
    (mem : l ∈ block.phis.map (·.dst)) (entered : m.Enters c passed) (among : l ∈ passed) :
    ∃ p source before passed', m.Enters p passed' ∧ m.block? p = some source ∧
      m.Leaves p source before b ∧ l ∉ defined before ++ passed' := by
  obtain ⟨p, source, before, t, target, passed', entered', here', leaves, there, absent, first⟩ :=
    first_passed entered among
  have apart : l ∉ defined before := fun new => loose.phi_apart here here' mem (leaves.defined_sub new)
  obtain rfl := loose.defs_apart b t _ _ l here there (mem_append_left _ mem)
    (mem_append_left _ (first.resolve_right apart))
  exact ⟨p, source, before, passed', entered', here', leaves, by simp [apart, absent]⟩

end First

/-- What the finished tables say of the registers at the end of a block. -/
def Registers.exits (f : Registers) (b : BlockId) : Reg → Option Value :=
  after (f.known b) (f.table b).written

section Rendering

variable {code : Code} {o : Outline} {ranges : List (Nat × Nat)} {starts : List Nat}
  (drawn : Drawn code o ranges starts) {f : Registers} {params : List String} {ls defs : List Local}
  {m : Ir.Method} (rendering : Rendering code o f params ls defs m)
  (follow : entersResult code = false)

include drawn rendering follow

lemma Rendering.known_apart {b block passed}
    (entered : m.Enters b passed) (here : m.block? b = some block) {r l}
    (held : f.known b r = some (.var l)) : l ∉ defined block.stmts := by
  intro mem
  have among := rendering.ready drawn follow entered r l held
  obtain ⟨passed', entered', absent⟩ :=
    first_entry (rendering.sound drawn follow).toLoose here mem entered among
  exact absent (rendering.ready drawn follow entered' r l held)

variable {p t : BlockId} {source target : Block} {passed : List Local} {before : List Ir.Stmt}
  (entered : m.Enters p passed) (here : m.block? p = some source)
  (leaves : m.Leaves p source before t) (there : m.block? t = some target) {r : Reg} {v : Value}

include entered here leaves there

lemma Rendering.agreed_apart (agree : ∀ q ∈ o.sourcesOf t, f.Agrees q r v) {l}
    (held : f.resolve v = .var l) : l ∉ target.phis.map (·.dst) := by
  have ends {q : BlockId} {passed : List Local} {source : Block} {before : List Ir.Stmt}
      (entered : m.Enters q passed) (here : m.block? q = some source)
      (leaves : m.Leaves q source before t) : l ∈ defined before ++ passed := by
    have edge := (rendering.edge_iff drawn).1 (leaves.edge here)
    obtain ⟨x, exit, agrees⟩ := agree q (drawn.mem_sourcesOf.2 ⟨(drawn.target_inner edge).2, edge⟩)
    exact rendering.exit_passed drawn follow entered (rendering.ready drawn follow entered) here
      leaves exit (agrees.trans held)
  intro phi
  obtain ⟨q, source', before', passed', entered', here', leaves', absent⟩ :=
    first_arrival (rendering.sound drawn follow).toLoose there phi (.next entered here leaves there)
      (mem_append_right _ (ends entered here leaves))
  exact absent (ends entered' here' leaves')

/-- What a register holds at the end of a block, it holds at the entry of the
next. -/
lemma Rendering.arrive {V} {w : World V} {st} (held : f.known t r = some v) {x}
    (ends : ∀ u, f.exits p r = some u → w.value st.env u = x) :
    w.value (w.assignPhis p target.phis st).env v = x := by
  have edge := leaves.edge here
  have edge' := (rendering.edge_iff drawn).1 edge
  have inner := drawn.target_inner edge'
  have agreed {u : Value} (agrees : f.Agrees p r u) : w.value st.env (f.resolve u) = x :=
    ends _ (after_of_agrees rendering.good (.refl f) agrees)
  have loose := (rendering.sound drawn follow).toLoose
  obtain ⟨u, found, rfl⟩ := Option.map_eq_some_iff.1 held
  cases rendering.good.entered t r u found with
  | unset start => exact absurd start inner.1
  | @phi φ merge made block_ merges resolved =>
    obtain ⟨q, mem, dst, operands⟩ : ∃ q ∈ target.phis, q.dst = φ ∧
        q.operands = merge.operands.map fun o => (o.1, f.resolve o.2) := by
      refine ⟨⟨φ, merge.operands.map fun o => (o.1, f.resolve o.2)⟩, ?_, rfl, rfl⟩
      rw [rendering.phis t target there]
      exact (mem_phisOf rendering.good).2 ⟨merge, made, block_, rfl⟩
    have covered := loose.phis_cover t target q p there mem edge
    rw [operands, map_map, mem_map] at covered
    obtain ⟨⟨q', u'⟩, among, same⟩ := covered
    have same : q' = p := same
    subst same
    have agrees := ((rendering.good.merged φ merge made).operands _ _ among).2.2
    rw [merges] at agrees
    have operand : (q', f.resolve u') ∈ q.operands := by
      rw [operands]
      exact mem_map.2 ⟨(q', u'), among, rfl⟩
    have assigned : (w.assignPhis q' target.phis st).env q.dst = w.value st.env (f.resolve u') :=
      World.assignPhis_dst (nodup_append.1 (loose.block_defs t target there)).1 mem
        (loose.phis_nodup t target q there mem) operand
    rw [resolved, World.value, ← dst, assigned]
    exact agreed agrees
  | passed _ _ agree =>
    have same := agreed (agree p (drawn.mem_sourcesOf.2 ⟨inner.2, edge'⟩))
    cases value : f.resolve u with
    | const c => rwa [value] at same
    | var l =>
      have apart := rendering.agreed_apart drawn follow entered here leaves there agree value
      rw [value] at same
      rw [World.value, World.assignPhis_other apart]
      exact same

end Rendering

end Restack.Lifting
