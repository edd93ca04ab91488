/-
# Reading keeps the tables good

A read goes back through single predecessors (`search_spec`) and, where predecessors
meet, makes a phi and reads an operand for each of them (`gather_spec`). Each phi made
on the way gives one more block a value for the register, so a read needs no more fuel
than there are blocks without one (`missing`). After a read the tables are good,
nothing was written, and the block ends with the value returned (`read_spec`).
-/
import Mathlib.Data.Finset.Card
import Restack.Proofs.Lifting.Registers.Simplify

namespace Restack.Lifting.Registers

open Register (Reg)
open Ir (BlockId Local Value)
open List Lookup

variable {o : Outline} {s f : Registers} {pending : List Local}

/-! ## Searching -/

/-- The blocks that a search has passed: each is closed, says nothing of the
register, and has one source, the block passed after it. -/
structure Trail (o : Outline) (s : Registers) (r : Reg) (passed : List BlockId) (last : BlockId) :
    Prop where
  here : last.index < o.size
  apart : last ∉ passed
  distinct : passed.Nodup
  inside : ∀ c ∈ passed, c.index < o.size
  unknown : ∀ c ∈ passed, s.exit? c r = none
  closed : ∀ c ∈ passed, (s.table c).closed = true
  back : (last :: passed).IsChain fun p c => o.sourcesOf c = [p]

/-- What ends a search. -/
def Found.Holds (o : Outline) (s : Registers) (r : Reg) (passed : List BlockId) (last : BlockId) :
    Found → Prop
  | .value v => s.exit? last r = some v
  | .open => s.exit? last r = none ∧ (s.table last).closed = false
  | .unset => s.exit? last r = none ∧ (s.table last).closed = true ∧
      (o.sourcesOf last).length ≤ 1 ∧ ∀ p ∈ o.sourcesOf last, p = last ∨ p ∈ passed
  | .join => s.exit? last r = none ∧ (s.table last).closed = true ∧ 1 < (o.sourcesOf last).length

lemma Trail.length_lt {r passed last} (trail : Trail o s r passed last) : passed.length < o.size := by
  have distinct : ((last :: passed).map (·.index)).Nodup := by
    refine (nodup_cons.2 ⟨trail.apart, trail.distinct⟩).map ?_
    rintro ⟨i⟩ ⟨j⟩ same
    simpa using same
  have within : (last :: passed).map (·.index) ⊆ range o.size := by
    intro i mem
    obtain ⟨c, among, rfl⟩ := mem_map.1 mem
    rcases mem_cons.1 among with rfl | earlier
    · exact mem_range.2 trail.here
    · exact mem_range.2 (trail.inside c earlier)
  have := (subperm_of_subset distinct within).length_le
  simp only [length_map, length_cons, length_range] at this
  omega

/-- Where a search ends, and that the reading goes on from there. -/
lemma search_spec (closed : o.Closed) {r passed b fuel}
    (trail : Trail o s r passed b) (enough : o.size < fuel + passed.length) :
    ∃ passed' last found, search o s r fuel passed b = (passed', last, found) ∧
      Trail o s r passed' last ∧ Found.Holds o s r passed' last found ∧
      (b = last ∨ b ∈ passed') ∧ passed ⊆ passed' ∧
      ∀ ts v f, Runs o (.read r passed' last) s ts v f → Runs o (.read r passed b) s ts v f := by
  induction fuel generalizing passed b with
  | zero =>
    have := trail.length_lt
    omega
  | succ fuel ih =>
    rw [search]
    cases known : (s.table b).value? r with
    | some v =>
      exact ⟨passed, b, .value v, rfl, trail, known, .inl rfl, Subset.refl _, fun _ _ _ run => run⟩
    | none =>
      by_cases isOpen : (s.table b).closed = false
      · rw [isOpen]
        exact ⟨passed, b, .open, rfl, trail, ⟨known, isOpen⟩, .inl rfl, Subset.refl _, fun _ _ _ run => run⟩
      have isClosed : (s.table b).closed = true := by simpa using isOpen
      rw [isClosed]
      simp only [Bool.not_true, Bool.false_eq_true, if_false]
      split
      · rename_i none
        exact ⟨passed, b, .unset, rfl, trail, ⟨known, isClosed, by simp [none], by simp [none]⟩,
          .inl rfl, Subset.refl _, fun _ _ _ run => run⟩
      · rename_i source single
        by_cases again : source = b ∨ source ∈ passed
        · rw [if_pos (by simpa using again)]
          refine ⟨passed, b, .unset, rfl, trail, ⟨known, isClosed, by simp [single], ?_⟩, .inl rfl,
            Subset.refl _, fun _ _ _ run => run⟩
          intro p mem
          rw [single, mem_singleton] at mem
          exact mem ▸ again
        · rw [if_neg (by simpa using again)]
          have other := again
          have trail' : Trail o s r (b :: passed) source := {
            here := closed.sources_inside b source (by simp [single])
            apart := by simp [again]
            distinct := nodup_cons.2 ⟨trail.apart, trail.distinct⟩
            inside := by simpa using ⟨trail.here, trail.inside⟩
            unknown := by simpa using ⟨known, trail.unknown⟩
            closed := by simpa using ⟨isClosed, trail.closed⟩
            back := .cons_cons single trail.back }
          obtain ⟨passed', last, found, eq, reached, holds, -, more, runs⟩ :=
            ih trail' (by simp only [length_cons]; omega)
          exact ⟨passed', last, found, eq, reached, holds, .inr (more mem_cons_self),
            fun c mem => more (mem_cons_of_mem _ mem),
            fun ts v f run => .back known isClosed single other (runs ts v f run)⟩
      · rename_i some single
        refine ⟨passed, b, .join, rfl, trail, ⟨known, isClosed, ?_⟩, .inl rfl, Subset.refl _,
          fun _ _ _ run => run⟩
        rcases sources : o.sourcesOf b with _ | ⟨p, _ | ⟨q, ps⟩⟩
        · exact absurd sources some
        · exact absurd sources (single p)
        · simp

variable {c : BlockId} {v : Value} {ops : List (BlockId × Value)}

section Trail

variable {r : Reg} {passed : List BlockId} {last : BlockId} (trail : Trail o s r passed last)

include trail

lemma Trail.source (mem : c ∈ passed) : ∃ p, o.sourcesOf c = [p] ∧ (p = last ∨ p ∈ passed) := by
  have chain := trail.back
  clear trail
  induction passed generalizing last with
  | nil => cases mem
  | cons d passed ih =>
    obtain ⟨single, rest⟩ := isChain_cons_cons.1 chain
    rcases mem_cons.1 mem with rfl | earlier
    · exact ⟨last, single, .inl rfl⟩
    · obtain ⟨p, only, place⟩ := ih earlier rest
      refine ⟨p, only, .inr ?_⟩
      rcases place with rfl | place
      · exact mem_cons_self
      · exact mem_cons_of_mem _ place

lemma Trail.inner (isClosed : o.Closed) (mem : c ∈ passed) : c ≠ entry := by
  rintro rfl
  obtain ⟨p, single, -⟩ := trail.source mem
  rw [isClosed.entry_sources] at single
  cases single

lemma Trail.same (reads : Reads o pending s f)
    (known : ∀ x, f.exit? last r = some x → f.resolve x = f.resolve v) (mem : c ∈ passed)
    {w} (found : f.exit? c r = some w) : f.resolve w = f.resolve v := by
  have chain := trail.back
  have passes : ∀ c ∈ passed, ∀ p w, o.sourcesOf c = [p] → f.exit? c r = some w →
      f.Agrees p r w := by
    intro c mem p w single found
    obtain ⟨unwritten, absent⟩ := exit?_eq_none.1 (trail.unknown c mem)
    rw [exit?_of_unwritten (reads.writes c ▸ unwritten)] at found
    exact reads.passes c p r w (trail.closed c mem) single absent found
  clear trail
  induction passed generalizing last w c with
  | nil => cases mem
  | cons d passed ih =>
    obtain ⟨single, rest⟩ := isChain_cons_cons.1 chain
    have first (w : Value) (found : f.exit? d r = some w) : f.resolve w = f.resolve v := by
      obtain ⟨x, ends, same⟩ := passes d mem_cons_self last w single found
      exact same.symm.trans (known x ends)
    rcases mem_cons.1 mem with rfl | earlier
    · exact first w found
    · exact ih first earlier found rest fun c h => passes c (mem_cons_of_mem _ h)

/-- Records what the last block ends with in the blocks passed on the way to it. -/
lemma Trail.record (isClosed : o.Closed) (good : Good o pending f) (reads : Reads o pending s f)
    (known : f.Agrees last r v) {bs}
    (blocks : bs = passed ∨ bs = last :: passed ∧ (s.table last).written.lookup r = none) :
    Good o pending (f.enterAll r v bs) ∧ Reads o pending f (f.enterAll r v bs) ∧
      ∀ c, c = last ∨ c ∈ passed → (f.enterAll r v bs).Agrees c r v := by
  have ends (x : Value) (found : f.exit? last r = some x) : f.resolve x = f.resolve v := by
    obtain ⟨y, found', same⟩ := known
    rw [found] at found'
    cases found'
    exact same
  have among : ∀ c ∈ bs, c ∈ passed ∨ c = last ∧ (s.table last).written.lookup r = none := by
    intro c mem
    rcases blocks with rfl | ⟨rfl, unwritten⟩
    · exact .inl mem
    · rcases mem_cons.1 mem with rfl | earlier
      · exact .inr ⟨rfl, unwritten⟩
      · exact .inl earlier
  have unwritten : ∀ c ∈ bs, (f.table c).written.lookup r = none := by
    intro c mem
    rw [reads.writes]
    rcases among c mem with earlier | ⟨rfl, unwritten⟩
    · exact (exit?_eq_none.1 (trail.unknown c earlier)).1
    · exact unwritten
  obtain ⟨good', reads', agrees⟩ := good.record isClosed (enterAll_recorded f r v bs)
    (fun c mem => by
      refine ⟨?_, unwritten c mem, fun w found => ?_⟩
      · rcases among c mem with earlier | ⟨rfl, -⟩
        · exact trail.inside c earlier
        · exact trail.here
      · rw [← exit?_of_unwritten (unwritten c mem)] at found
        rcases among c mem with earlier | ⟨rfl, -⟩
        · exact trail.same reads ends earlier found
        · exact ends w found)
    (fun c mem => by
      rcases among c mem with earlier | ⟨rfl, -⟩
      · refine .inr ⟨trail.inner isClosed earlier, reads.closed c (trail.closed c earlier), ?_⟩
        intro p source
        obtain ⟨q, single, place⟩ := trail.source earlier
        rw [single, mem_singleton] at source
        subst source
        rcases place with rfl | place
        · exact .inr known
        · refine .inl ?_
          rcases blocks with rfl | ⟨rfl, -⟩
          · exact place
          · exact mem_cons_of_mem _ place
      · obtain ⟨w, found, same⟩ := known
        rw [exit?_of_unwritten (unwritten c mem)] at found
        exact .inl ((good.entered c r w found).congr same))
    (good.agrees_bound known)
  refine ⟨good', reads', fun c place => ?_⟩
  rcases place with rfl | earlier
  · exact reads'.agrees known
  · refine agrees c ?_
    rcases blocks with rfl | ⟨rfl, -⟩
    · exact earlier
    · exact mem_cons_of_mem _ earlier

end Trail

/-! ## Gathering operands -/

lemma merge?_addOperand (s : Registers) (φ ψ : Local) (p : BlockId) (v : Value) :
    (s.addOperand φ p v).merge? ψ = (s.merge? ψ).map fun m =>
        if ψ = φ then { m with operands := m.operands ++ [(p, v)] } else m := by
  simp only [merge?, addOperand]
  induction s.merges with
  | nil => rfl
  | cons e ms ih =>
    obtain ⟨χ, m⟩ := e
    simp only [map_cons]
    by_cases found : ψ = χ
    · subst found
      by_cases same : ψ = φ <;> simp [same]
    · rw [lookup_cons_ne found, ← ih]
      split <;> rw [lookup_cons_ne found]

lemma addOperand_later (s : Registers) (φ : Local) (p : BlockId) (v : Value) :
    Later s (s.addOperand φ p v) where
  locals := Nat.le_refl _
  same _ _ h := h
  plain l plain := ⟨plain.bound, by rw [merge?_addOperand, plain.unmerged]; rfl, plain.unreplaced⟩
  entered b r v found := ⟨v, found, rfl⟩
  filled _ h := h
  closed _ h := h
  written _ _ := rfl
  makes ψ m made := by
    rw [merge?_addOperand, Option.map_eq_some_iff] at made
    obtain ⟨m', made, rfl⟩ := made
    refine .inr ⟨m', made, ?_⟩
    split <;> exact ⟨rfl, rfl⟩

lemma Good.addOperand {φ b p r} (good : Good o pending s)
    (made : s.merge? φ = some ⟨b, r, ops⟩) (growing : φ ∈ s.growing) (source : p ∈ o.sourcesOf b)
    (filled : (s.table p).filled = true) (agrees : s.Agrees p r v) : Good o pending (s.addOperand φ p v) := by
  have later := addOperand_later s φ p v
  have other {ψ : Local} (ne : ψ ≠ φ) : (s.addOperand φ p v).merge? ψ = s.merge? ψ := by
    rw [merge?_addOperand]
    cases s.merge? ψ <;> simp [ne]
  have self : (s.addOperand φ p v).merge? φ = some ⟨b, r, ops ++ [(p, v)]⟩ := by
    rw [merge?_addOperand, made]
    simp
  have places : KeepsPlaces s (s.addOperand φ p v) := by
    intro ψ m before
    by_cases same : ψ = φ
    · subst same
      rw [made] at before
      cases before
      exact ⟨_, self, rfl, rfl⟩
    · exact ⟨m, (other same).trans before, rfl, rfl⟩
  refine good.advance later places rfl rfl ?_ good.closed good.plain (fun _ _ _ found => .inl found)
    (fun ψ m made' => ?_) (fun ψ m made' => ?_) (fun c r' ψ mem => ?_) good.waiting_distinct
    (fun ψ mem => ?_) fun ψ mem => ?_
  · have keys : (s.addOperand φ p v).merges.map (·.1) = s.merges.map (·.1) := by
      simp only [Registers.addOperand, map_map]
      refine map_congr_left fun e _ => ?_
      simp only [Function.comp]
      split <;> rfl
    exact keys ▸ good.distinct
  · by_cases same : ψ = φ
    · subst same
      rw [self] at made'
      cases made'
      have merged := good.merged_later later rfl made
      refine .inr ⟨good.bound ψ _ made, good.unreplaced ψ _ made, merged.inside, merged.inner,
        merged.recorded, fun q w mem => ?_⟩
      rcases mem_append.1 mem with older | new
      · exact merged.operands q w older
      · cases mem_singleton.1 new
        exact ⟨source, filled, later.agrees rfl agrees⟩
    · exact .inl ((other same).symm.trans made')
  · by_cases same : ψ = φ
    · exact .growing (same ▸ growing)
    · exact (good.stage ψ m ((other same).symm.trans made')).later (fun mem => .growing mem)
        .pending (fun bare mem => .waiting bare mem) id
  · obtain ⟨h, idle, outside, isOpen⟩ := good.waiting c r' ψ mem
    refine ⟨?_, idle, outside, isOpen⟩
    rw [other, h]
    rintro rfl
    exact idle growing
  · obtain ⟨m, h⟩ := good.growing ψ mem
    obtain ⟨m', h', -⟩ := places ψ m h
    exact ⟨m', h'⟩
  · obtain ⟨idle, m, h, bare⟩ := good.pending ψ mem
    refine ⟨idle, m, ?_, bare⟩
    rw [other, h]
    rintro rfl
    exact idle growing

/-- Between two operands of a phi `φ` of block `b` for register `r`; `s` is the
state before the first and `ops` what was gathered. -/
structure Gathering (o : Outline) (pending : List Local) (b : BlockId) (r : Reg) (φ : Local)
    (ops : List (BlockId × Value)) (s t : Registers) : Prop where
  good : Good o pending t
  later : Later s t
  writes : ∀ c, (t.table c).written = (s.table c).written
  fills : ∀ c, (t.table c).filled = (s.table c).filled
  growing : t.growing = φ :: s.growing
  idle : φ ∉ s.growing
  frame : ∀ ψ, ψ ∈ pending ∨ ψ ∈ s.growing → t.merge? ψ = s.merge? ψ
  passes : Passes o s t
  made : t.merge? φ = some ⟨b, r, ops⟩

section Gather

variable {b : BlockId} {r : Reg} {φ : Local}

lemma Good.gathering (good : Good o (φ :: pending) s) (made : s.merge? φ = some ⟨b, r, []⟩)
    (fresh : φ ∉ pending) : Gathering o pending b r φ [] s { s with growing := φ :: s.growing } := by
  have advanced := advanced_growing s (φ :: s.growing)
  have idle := (good.pending φ mem_cons_self).1
  refine ⟨advanced.good good good.closed good.plain (fun ψ m _ stage => ?_) (fun c r' ψ mem => ?_)
    good.waiting_distinct (fun ψ mem => ?_) fun ψ mem => ?_, advanced.later, fun _ => rfl,
    fun _ => rfl, rfl, idle, fun _ _ => rfl, .of_start?_eq fun _ _ => rfl, made⟩
  · refine stage.later (fun mem => .growing (mem_cons_of_mem _ mem)) (fun bare mem => ?_)
      (fun bare mem => .waiting bare mem) id
    rcases mem_cons.1 mem with rfl | older
    · exact .growing mem_cons_self
    · exact .pending bare older
  · obtain ⟨h, idle, outside, isOpen⟩ := good.waiting c r' ψ mem
    rw [mem_cons, not_or] at outside
    exact ⟨h, by simpa using ⟨outside.1, idle⟩, outside.2, isOpen⟩
  · rcases mem_cons.1 mem with rfl | older
    · exact ⟨_, made⟩
    · exact good.growing ψ older
  · obtain ⟨idle, known⟩ := good.pending ψ (mem_cons_of_mem _ mem)
    refine ⟨?_, known⟩
    rw [mem_cons, not_or]
    refine ⟨?_, idle⟩
    rintro rfl
    exact fresh mem

/-- What a read gives. -/
structure ReadSpec (o : Outline) (pending : List Local) (s : Registers) (b : BlockId) (r : Reg)
    (out : Value × Registers) : Prop where
  good : Good o pending out.2
  reads : Reads o pending s out.2
  agrees : out.2.Agrees b r out.1
  traced : Traced o (.read r [] b) s (some out.1) out.2

lemma Gathering.step {t p out}
    (gathering : Gathering o pending b r φ ops s t) (closed : (t.table b).closed = true)
    (source : p ∈ o.sourcesOf b) (read : ReadSpec o pending t p r out) :
    Gathering o pending b r φ (ops ++ [(p, out.1)]) s (out.2.addOperand φ p out.1) := by
  have growing : φ ∈ t.growing := gathering.growing ▸ mem_cons_self
  have made : out.2.merge? φ = some ⟨b, r, ops⟩ :=
    (read.reads.frame φ (.inr growing)).trans gathering.made
  have filled : (out.2.table p).filled = true :=
    read.reads.filled p (gathering.good.closed b closed p source)
  have growing' : φ ∈ out.2.growing := by rw [read.reads.growing]; exact growing
  refine {
    good := read.good.addOperand made growing' source filled read.agrees
    later := (gathering.later.trans read.reads.toLater).trans (addOperand_later _ _ _ _)
    writes := fun c => (read.reads.writes c).trans (gathering.writes c)
    fills := fun c => (read.reads.fills c).trans (gathering.fills c)
    growing := read.reads.growing.trans gathering.growing
    idle := gathering.idle
    frame := fun ψ kept => ?_
    passes := gathering.passes.trans gathering.later read.reads.passes
      (read.reads.toLater.trans (addOperand_later _ _ _ _)) read.reads.writes
    made := by rw [merge?_addOperand, made]; simp }
  have kept' : ψ ∈ pending ∨ ψ ∈ t.growing := by
    rw [gathering.growing]
    exact kept.imp id (mem_cons_of_mem _)
  rw [merge?_addOperand, read.reads.frame ψ kept', gathering.frame ψ kept]
  have ne : ψ ≠ φ := by
    rintro rfl
    rcases kept with mem | mem
    · exact (gathering.good.pending ψ mem).1 growing
    · exact gathering.idle mem
  cases s.merge? ψ <;> simp [ne]

/-- When every source gave an operand the phi is complete. -/
lemma Gathering.finish {t} (gathering : Gathering o pending b r φ ops s t)
    (closed : (t.table b).closed = true) (sources : ops.map (·.1) = o.sourcesOf b) (fresh : φ ∉ pending) :
    Good o pending { t with growing := t.growing.filter (· != φ) } ∧
      Reads o pending s { t with growing := t.growing.filter (· != φ) } ∧
      Ready o pending { t with growing := t.growing.filter (· != φ) } φ := by
  have growing : t.growing.filter (· != φ) = s.growing := by
    rw [gathering.growing, filter_cons_of_neg (by simp), filter_eq_self]
    intro ψ mem
    have : ψ ≠ φ := by
      rintro rfl
      exact gathering.idle mem
    simpa using this
  rw [growing]
  have good := gathering.good
  have older : ∀ {ψ : Local}, ψ ∈ s.growing → ψ ∈ t.growing := by
    intro ψ mem
    rw [gathering.growing]
    exact mem_cons_of_mem _ mem
  have advanced := advanced_growing t s.growing
  refine ⟨advanced.good good good.closed good.plain (fun ψ m known stage => ?_)
    (fun c r' ψ mem => ?_) good.waiting_distinct (fun ψ mem => good.growing ψ (older mem))
    fun ψ mem => ?_, ⟨gathering.later.trans advanced.later, gathering.writes, gathering.fills, rfl,
    gathering.frame, gathering.passes⟩, ?_⟩
  · refine stage.later (fun mem => ?_) .pending (fun bare mem => .waiting bare mem) id
    rw [gathering.growing] at mem
    rcases mem_cons.1 mem with rfl | older
    · rw [gathering.made] at known
      cases known
      exact .complete ⟨sources, closed⟩
    · exact .growing older
  · obtain ⟨h, idle, outside, isOpen⟩ := good.waiting c r' ψ mem
    exact ⟨h, fun mem => idle (older mem), outside, isOpen⟩
  · obtain ⟨idle, known⟩ := good.pending ψ mem
    exact ⟨fun mem => idle (older mem), known⟩
  · refine ⟨fun m h => ?_, gathering.idle, fresh⟩
    have known : t.merge? φ = some m := h
    rw [gathering.made] at known
    cases known
    exact ⟨sources, closed⟩

/-! ## Fuel -/

/-- How many blocks have no value for a register. -/
def missing (o : Outline) (s : Registers) (r : Reg) : Nat :=
  ((Finset.range o.size).filter fun i => s.exit? ⟨i⟩ r = none).card

lemma Later.exit?_ne_none (later : Later s f) {r}
    (written : (f.table c).written = (s.table c).written) (known : s.exit? c r ≠ none) :
    f.exit? c r ≠ none := by
  cases found : s.exit? c r with
  | none => exact absurd found known
  | some v =>
    obtain ⟨w, found', -⟩ := later.agrees written ⟨v, found, rfl⟩
    rw [found']
    exact Option.some_ne_none w

lemma Later.missing_subset (later : Later s f) (r : Reg)
    (written : ∀ c, (f.table c).written = (s.table c).written) :
    (Finset.range o.size).filter (fun i => f.exit? ⟨i⟩ r = none) ⊆
      (Finset.range o.size).filter fun i => s.exit? ⟨i⟩ r = none := by
  intro i mem
  rw [Finset.mem_filter] at mem ⊢
  refine ⟨mem.1, ?_⟩
  by_contra known
  exact later.exit?_ne_none (written _) known mem.2

lemma Later.missing_le (later : Later s f) (r : Reg)
    (written : ∀ c, (f.table c).written = (s.table c).written) : missing o f r ≤ missing o s r :=
  Finset.card_le_card (later.missing_subset r written)

lemma Later.missing_lt (later : Later s f) {r}
    (written : ∀ c, (f.table c).written = (s.table c).written) (inside : c.index < o.size)
    (unknown : s.exit? c r = none) (known : f.exit? c r ≠ none) : missing o f r < missing o s r := by
  refine Finset.card_lt_card ⟨later.missing_subset r written, fun within => ?_⟩
  have : c.index ∈ (Finset.range o.size).filter fun i => s.exit? ⟨i⟩ r = none :=
    Finset.mem_filter.2 ⟨Finset.mem_range.2 inside, unknown⟩
  exact known (Finset.mem_filter.1 (within this)).2

lemma missing_le_size (s : Registers) (r : Reg) : missing o s r ≤ o.size := by
  calc missing o s r ≤ (Finset.range o.size).card := Finset.card_filter_le _ _
    _ = o.size := Finset.card_range _

/-! ## Reading -/

/-- Gathering the operands of a phi with a read that is right on `bound` missing values. -/
lemma gather_spec (isClosed : o.Closed) {bound read} (reads : ∀ {t c}, Good o pending t → c.index < o.size →
      missing o t r < bound → ReadSpec o pending t c r (read c t))
    (good : Good o (φ :: pending) s) (made : s.merge? φ = some ⟨b, r, []⟩) (fresh : φ ∉ pending)
    (closed : (s.table b).closed = true) (enough : missing o s r < bound) :
    let out := gather read (o.sourcesOf b) φ s
    Good o pending out.2 ∧ Reads o pending s out.2 ∧
      out.2.resolve out.1 = out.2.resolve (.var φ) ∧ Traced o (.complete r φ) s (some out.1) out.2 := by
  have loop (sources : List BlockId) (among : sources ⊆ o.sourcesOf b)
      {ops : List (BlockId × Value)} {t : Registers}
      (gathering : Gathering o pending b r φ ops s t) :
      ∃ ops', Gathering o pending b r φ (ops ++ ops') s (sources.foldl (fun s source =>
        (read source s).2.addOperand φ source (read source s).1) t) ∧ ops'.map (·.1) = sources ∧
        Traced o (.operands r φ sources) t none (sources.foldl (fun s source =>
          (read source s).2.addOperand φ source (read source s).1) t) := by
    induction sources generalizing ops t with
    | nil => exact ⟨[], by simpa using gathering, rfl, [], .last, (Later.refl t).tracked⟩
    | cons p sources ih =>
      have source := among mem_cons_self
      have first := reads gathering.good (isClosed.sources_inside b p source)
        (Nat.lt_of_le_of_lt (gathering.later.missing_le r gathering.writes) enough)
      have step := gathering.step (gathering.later.closed b closed) source first
      obtain ⟨ops', done, keys, ts', rest, tracked'⟩ := ih (fun q h => among (mem_cons_of_mem _ h)) step
      obtain ⟨ts, run, tracked⟩ := first.traced
      refine ⟨(p, (read p t).1) :: ops', ?_, by simp [keys], _, .operand run rest,
        tracked.append first.good ((addOperand_later _ _ _ _).tracked.append step.good tracked')⟩
      rw [append_cons]
      exact done
  have start := good.gathering made fresh
  obtain ⟨ops, gathering, keys, ts, run, tracked⟩ := loop (o.sourcesOf b) (Subset.refl _) start
  obtain ⟨good', reads', ready⟩ :=
    gathering.finish (gathering.later.closed b closed) keys fresh
  intro out
  have simplified : Simplified o pending _ φ out := simplifyWith_spec good' ready (Nat.lt_succ_self _)
  obtain ⟨ts', run', tracked'⟩ := simplified.traced
  have before := (advanced_growing s (φ :: s.growing)).later.tracked.append start.good tracked
  have behind := (advanced_growing _ _).later.tracked.append good' tracked'
  exact ⟨simplified.good, reads'.trans simplified.reads, simplified.same, _,
    .complete made rfl run rfl run', before.append gathering.good behind⟩

end Gather

lemma readWith_spec (isClosed : o.Closed) {r fuel b}
    (good : Good o pending s) (inside : b.index < o.size) (enough : missing o s r < fuel) :
    ReadSpec o pending s b r (readWith o r fuel b s) := by
  induction fuel generalizing pending s b with
  | zero => exact absurd enough (Nat.not_lt_zero _)
  | succ fuel ih =>
    have start : Trail o s r [] b := ⟨inside, by simp, by simp, by simp, by simp, by simp, by simp⟩
    obtain ⟨passed, last, found, searched, trail, holds, reached, -, runs⟩ :=
      search_spec isClosed start (Nat.lt_succ_self o.size)
    have outcome {t : Registers} {v : Value} {ts : List Registers} (good : Good o pending t)
        (reads : Reads o pending s t) (agrees : ∀ c, c = last ∨ c ∈ passed → t.Agrees c r v)
        (run : Runs o (.read r passed last) s ts (some v) t) (tracked : Tracked o s ts t) :
        ReadSpec o pending s b r (v, t) :=
      ⟨good, reads, agrees b reached, ts, runs _ _ _ run, tracked⟩
    simp only [readWith, searched]
    cases found with
    | value v =>
      obtain ⟨good', reads, agrees⟩ := trail.record isClosed good (.refl _ s)
        ⟨v, holds, (good.grounded.resolve_resolve v).symm⟩ (.inl rfl)
      exact outcome good' reads agrees (.known holds) reads.toLater.tracked
    | unset =>
      obtain ⟨unknown, closed, few, sources⟩ := holds
      have unknown' : ∀ c ∈ last :: passed, s.exit? c r = none := by
        simpa using ⟨unknown, trail.unknown⟩
      obtain ⟨good', reads, agrees⟩ := good.record isClosed
        (enterAll_recorded s r .zero (last :: passed))
        (fun c mem => by
          obtain ⟨unwritten, absent⟩ := exit?_eq_none.1 (unknown' c mem)
          refine ⟨?_, unwritten, fun w found => ?_⟩
          · rcases mem_cons.1 mem with rfl | earlier
            · exact trail.here
            · exact trail.inside c earlier
          · rw [absent] at found
            cases found)
        (fun c mem => by
          by_cases start : c = entry
          · exact .inl (.unset start rfl)
          refine .inr ⟨start, ?_, fun p source => .inl ?_⟩
          · rcases mem_cons.1 mem with rfl | earlier
            · exact closed
            · exact trail.closed c earlier
          · rcases mem_cons.1 mem with rfl | earlier
            · exact mem_cons.2 (sources p source)
            · obtain ⟨q, single, place⟩ := trail.source earlier
              rw [single, mem_singleton] at source
              exact mem_cons.2 (source ▸ place))
        bound_zero
      exact outcome good' reads (fun c place => agrees c (mem_cons.2 place))
        (.unset unknown closed few sources) reads.toLater.tracked
    | «open» =>
      obtain ⟨unknown, isOpen⟩ := holds
      have inner : last ≠ entry := by
        rintro rfl
        rw [good.entry_closed] at isOpen
        cases isOpen
      have several : (s.table last).closed = true → ∀ p, o.sourcesOf last ≠ [p] := by
        intro closed
        rw [isOpen] at closed
        cases closed
      obtain ⟨φ, t, new⟩ : ∃ φ t, s.newPhi r last = (φ, t) := ⟨_, _, rfl⟩
      have created : Created r last φ s t := by simpa only [new] using newPhi_created s r last
      simp only [new]
      have good' := created.good good trail.here inner unknown several
      have reads := created.reads good unknown several
      obtain ⟨good'', reads'⟩ := good'.await (created.made good) (created.not_mem good).1
        ((created.recorded.closed last).trans isOpen)
      have known := created.exit?_self (good.size ▸ trail.here) unknown
      obtain ⟨good₃, reads₃, agrees⟩ := trail.record isClosed good'' (reads.trans reads')
        (reads'.agrees ⟨_, known, rfl⟩) (.inl rfl)
      exact outcome good₃ ((reads.trans reads').trans reads₃) agrees (.await unknown isOpen new)
        (reads.toLater.tracked.append good' (reads'.toLater.tracked.append good'' reads₃.toLater.tracked))
    | join =>
      obtain ⟨unknown, closed, several⟩ := holds
      have inner : last ≠ entry := by
        rintro rfl
        simp [isClosed.entry_sources] at several
      have several' (_ : (s.table last).closed = true) (p : BlockId) : o.sourcesOf last ≠ [p] := by
        intro single
        simp [single] at several
      obtain ⟨φ, t, new⟩ : ∃ φ t, s.newPhi r last = (φ, t) := ⟨_, _, rfl⟩
      have created : Created r last φ s t := by simpa only [new] using newPhi_created s r last
      simp only [new]
      have good' := created.good good trail.here inner unknown several'
      have reads := created.reads good unknown several'
      have known := created.exit?_self (good.size ▸ trail.here) unknown
      have fewer : missing o t r < missing o s r := by
        refine reads.missing_lt reads.writes trail.here unknown ?_
        rw [known]
        exact Option.some_ne_none _
      obtain ⟨good'', reads', same, ts, run, tracked⟩ := gather_spec isClosed (fun good inside enough =>
        ih good inside enough) good' (created.made good) (created.not_mem good).1
        (reads.closed last closed) (by omega)
      obtain ⟨good₃, reads₃, agrees⟩ := trail.record isClosed good'' (reads.trans reads')
        ((reads'.agrees ⟨_, known, rfl⟩).congr same.symm) (.inr ⟨rfl, (exit?_eq_none.1 unknown).1⟩)
      exact outcome good₃ ((reads.trans reads').trans reads₃) agrees (.join unknown closed several new run)
        ((reads.toLater.tracked.append good' tracked).append good'' reads₃.toLater.tracked)

lemma read_spec (isClosed : o.Closed) {r b} (good : Good o pending s)
    (inside : b.index < o.size) : ReadSpec o pending s b r (s.read o b r) :=
  readWith_spec isClosed good inside (Nat.lt_succ_of_le (missing_le_size s r))

end Restack.Lifting.Registers
