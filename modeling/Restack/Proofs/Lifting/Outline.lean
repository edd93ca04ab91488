/-
# Where blocks begin and end

The spans of an outline tile the instructions (`Drawn.spans_chain`), a span ends behind
every branch and behind every instruction that throws in a guarded range
(`Drawn.calm_inside`), and every place control can be sent to begins a span.
-/
import Mathlib.Data.List.Pairwise
import Mathlib.Data.List.Range
import Restack.Lifting.Outline
import Restack.Proofs.Outcome

namespace Restack.Lifting

open Register (Instruction Label Code TryRange CatchClause)
open Ir (BlockId Trap Handler)
open List Restack.Lists
open Outcome

/-- How an outline was made from a body. -/
structure Drawn (code : Code) (o : Outline) (ranges : List (Nat × Nat)) (starts : List Nat) :
    Prop where
  separated : separate code.instructions 0 = (o.instructions.toList, o.labels)
  nonempty : 0 < o.instructions.size
  guards : List.Forall₂ (fun t range => rangeOf o.labels t = .ok range) code.tries ranges
  begun : beginnings o.labels ranges code.tries o.instructions = .ok starts
  spans : o.spans = withLandings (needsLanding o.instructions ranges) (1 + starts.length)
    (spansFrom o.instructions.size 1 starts)
  layout : o.layout = entry :: o.spans.flatMap fun s => s.id :: s.landing.toList
  traps : ∃ made, List.Forall₂ (fun t trap =>
      trapOf? o.labels o.spans o.instructions t.1 t.2 = .ok trap) (code.tries.zip ranges) made ∧
    o.traps = made.filterMap id
  edges : ∃ made, List.Forall₂ (fun s es => (match o.instructions[s.stop - 1]? with
      | some last => spanEdges o.labels o.spans s last
      | none => .ok []) = .ok es) o.spans made ∧
    o.edges = (entry, ⟨1⟩) :: made.flatten ++ o.traps.flatMap trapEdges
  sources : o.sources = ((List.range (1 + o.spans.length + (o.spans.filterMap (·.landing)).length)).map
    fun b => ((o.edges.filter fun e => e.2.index == b).map (·.1)).eraseDups).toArray

lemma spansFrom_length (size id : Nat) (starts : List Nat) :
    (spansFrom size id starts).length = starts.length := by
  induction starts generalizing id with
  | nil => rfl
  | cons start rest ih => simp [spansFrom, ih]

lemma ofCode_drawn {code o} (made : Outline.ofCode code = .ok o) :
    ∃ ranges starts, Drawn code o ranges starts := by
  simp only [Outline.ofCode] at made
  obtain ⟨kept, labels, separated⟩ : ∃ kept labels, separate code.instructions 0 = (kept, labels) :=
    ⟨_, _, rfl⟩
  rw [guard_ok] at made
  obtain ⟨nonempty, made⟩ := made
  obtain ⟨ranges, rangesMade, made⟩ := bind_ok.1 made
  obtain ⟨starts, startsMade, made⟩ := bind_ok.1 made
  obtain ⟨edges, edgesMade, made⟩ := bind_ok.1 made
  obtain ⟨traps, trapsMade, made⟩ := bind_ok.1 made
  cases made
  refine ⟨ranges, starts, {
    separated := by simp [separated]
    nonempty := ?_
    guards := mapM_ok.1 rangesMade
    begun := startsMade
    spans := by simp only [spansFrom_length]
    layout := rfl
    traps := ⟨traps, mapM_ok.1 trapsMade, rfl⟩
    edges := ⟨edges, mapM_ok.1 edgesMade, rfl⟩
    sources := rfl }⟩
  cases kept <;> simp_all

/-! ## Beginnings -/

/-- Which positions begin a block. -/
structure Begins (labels : List (Label × Nat)) (ranges : List (Nat × Nat)) (tries : List TryRange)
    (instructions : Array Instruction) (starts : List Nat) : Prop where
  ascending : starts.Pairwise (· < ·)
  inside : ∀ p ∈ starts, p < instructions.size
  first : 0 < instructions.size → 0 ∈ starts
  range_start : ∀ range ∈ ranges, range.1 < instructions.size → range.1 ∈ starts
  range_stop : ∀ range ∈ ranges, range.2 < instructions.size → range.2 ∈ starts
  handler : ∀ t ∈ tries, ∀ c ∈ t.clauses, ∃ p, position labels c.handler = .ok p ∧
    (p < instructions.size → p ∈ starts)
  target : ∀ (pos : Nat) (i : Instruction), instructions[pos]? = some i → ∀ label ∈ i.targets,
    ∃ p, position labels label = .ok p ∧ (p < instructions.size → p ∈ starts)
  behind : ∀ (pos : Nat) (i : Instruction), instructions[pos]? = some i →
    (i.isBranch || (throws i && isGuarded ranges pos)) = true →
    pos + 1 < instructions.size → pos + 1 ∈ starts

variable {pos id : Nat} {span span' : Span} {b t p : BlockId}

lemma beginningsOf_ok {labels ranges i ps} (made : beginningsOf labels ranges pos i = .ok ps) :
    (∀ label ∈ i.targets, ∃ p, position labels label = .ok p ∧ p ∈ ps) ∧
      ((i.isBranch || (throws i && isGuarded ranges pos)) = true → pos + 1 ∈ ps) := by
  obtain ⟨targets, found, made⟩ := bind_ok.1 made
  cases made
  refine ⟨fun label mem => ?_, fun ends => by simp [ends]⟩
  obtain ⟨p, among, at_⟩ := mapM_mem found mem
  refine ⟨p, at_, ?_⟩
  split
  · exact mem_append_left _ among
  · exact among

lemma beginnings_spec {labels ranges tries instructions starts}
    (made : beginnings labels ranges tries instructions = .ok starts) :
    Begins labels ranges tries instructions starts := by
  obtain ⟨handlers, handlersMade, made⟩ := bind_ok.1 made
  obtain ⟨inside, insideMade, made⟩ := bind_ok.1 made
  cases made
  have start {p : Nat} (small : p < instructions.size)
      (among : p ∈ 0 :: ranges.flatMap (fun r => [r.1, r.2]) ++ handlers.flatten ++ inside.flatten) :
      p ∈ (range instructions.size).filter (0 :: ranges.flatMap (fun r => [r.1, r.2]) ++
        handlers.flatten ++ inside.flatten).contains := by
    rw [mem_filter, mem_range, contains_iff_mem]
    exact ⟨small, among⟩
  have within {pos : Nat} {i : Instruction} (at_ : instructions[pos]? = some i) :
      ∃ ps ∈ inside, beginningsOf labels ranges pos i = .ok ps :=
    mapM_mem insideMade (mk_mem_zipIdx_iff_getElem?.2 (by simpa using at_))
  refine {
    ascending := Pairwise.sublist filter_sublist pairwise_lt_range
    inside := fun p mem => mem_range.1 (mem_filter.1 mem).1
    first := fun nonempty => start nonempty (by simp)
    range_start := fun range mem small => start small ?_
    range_stop := fun range mem small => start small ?_
    handler := fun t mem c clause => ?_
    target := fun pos i at_ label mem => ?_
    behind := fun pos i at_ ends small => start small ?_ }
  · simp only [cons_append, mem_cons, mem_append, mem_flatMap]
    exact .inr (.inl (.inl ⟨range, mem, by simp⟩))
  · simp only [cons_append, mem_cons, mem_append, mem_flatMap]
    exact .inr (.inl (.inl ⟨range, mem, by simp⟩))
  · obtain ⟨hs, among, made⟩ := mapM_mem handlersMade mem
    obtain ⟨p, among', at_⟩ := mapM_mem made clause
    refine ⟨p, at_, fun small => start small ?_⟩
    simp only [cons_append, mem_cons, mem_append, mem_flatten]
    exact .inr (.inl (.inr ⟨hs, among, among'⟩))
  · obtain ⟨ps, among, made⟩ := within at_
    obtain ⟨p, found, among'⟩ := (beginningsOf_ok made).1 label mem
    refine ⟨p, found, fun small => start small ?_⟩
    simp only [cons_append, mem_cons, mem_append, mem_flatten]
    exact .inr (.inr ⟨ps, among, among'⟩)
  · obtain ⟨ps, among, made⟩ := within at_
    simp only [cons_append, mem_cons, mem_append, mem_flatten]
    exact .inr (.inr ⟨ps, among, (beginningsOf_ok made).2 ends⟩)

/-! ## Spans -/

lemma spansFrom_start (size id : Nat) (starts : List Nat) :
    (spansFrom size id starts).map (·.start) = starts := by
  induction starts generalizing id with
  | nil => rfl
  | cons start rest ih => simp [spansFrom, ih]

lemma spansFrom_id (size id : Nat) (starts : List Nat) :
    (spansFrom size id starts).map (·.id) = (List.range' id starts.length).map BlockId.mk := by
  induction starts generalizing id with
  | nil => rfl
  | cons start rest ih => simp [spansFrom, ih, range'_succ]

lemma spansFrom_bare {size starts} (mem : span ∈ spansFrom size id starts) : span.landing = none := by
  induction starts generalizing id with
  | nil => cases mem
  | cons start rest ih =>
    rcases mem_cons.1 mem with rfl | later
    · rfl
    · exact ih later

lemma spansFrom_chain (size id : Nat) (starts : List Nat) :
    (spansFrom size id starts).IsChain fun a b => b.start = a.stop := by
  induction starts generalizing id with
  | nil => exact .nil
  | cons start rest ih =>
    have later := ih (id + 1)
    cases rest with
    | nil => exact .singleton _
    | cons next rest => exact .cons_cons rfl later

/-- A span between two neighbouring beginnings. -/
structure Tile (size : Nat) (starts : List Nat) (span : Span) : Prop where
  begins : span.start ∈ starts
  proper : span.start < span.stop
  inside : span.stop ≤ size
  between : ∀ p, span.start < p → p < span.stop → p ∉ starts
  ends : span.stop < size → span.stop ∈ starts

lemma spansFrom_tile {size} {starts : List Nat} (ascending : starts.Pairwise (· < ·))
    (inside : ∀ p ∈ starts, p < size) (mem : span ∈ spansFrom size id starts) : Tile size starts span := by
  induction starts generalizing id with
  | nil => cases mem
  | cons start rest ih =>
    obtain ⟨above, ascending⟩ := pairwise_cons.1 ascending
    rcases mem_cons.1 mem with rfl | later
    · cases rest with
      | nil =>
        refine ⟨mem_cons_self, inside start mem_cons_self, Nat.le_refl _, ?_, ?_⟩
        · intro p low _ among
          simp only [mem_singleton] at among
          exact absurd low (by simp [among])
        · exact fun less => absurd less (Nat.lt_irrefl _)
      | cons next rest =>
        have bound := inside next (by simp)
        refine ⟨mem_cons_self, above next mem_cons_self, Nat.le_of_lt bound, ?_, ?_⟩
        · intro p low high among
          simp only [head?_cons, Option.getD_some] at low high
          rcases mem_cons.1 among with rfl | among
          · exact Nat.lt_irrefl _ low
          · rcases mem_cons.1 among with rfl | among
            · exact Nat.lt_irrefl _ high
            · have := (pairwise_cons.1 ascending).1 p among
              omega
        · exact fun _ => by simp
    · have tile := ih ascending (fun p h => inside p (mem_cons_of_mem _ h)) later
      refine ⟨mem_cons_of_mem _ tile.begins, tile.proper, tile.inside, ?_,
        fun less => mem_cons_of_mem _ (tile.ends less)⟩
      intro p low high among
      rcases mem_cons.1 among with rfl | among
      · have := above _ tile.begins
        omega
      · exact tile.between p low high among

lemma withLandings_map {α : Type} (view : Span → α)
    (blind : ∀ s landing, view { s with landing } = view s) (needs : Span → Bool) (id : Nat)
    (spans : List Span) : (withLandings needs id spans).map view = spans.map view := by
  induction spans generalizing id with
  | nil => rfl
  | cons s spans ih =>
    rw [withLandings]
    split <;> simp [ih, blind]

lemma withLandings_isSome {needs} (blind : ∀ s landing, needs { s with landing } = needs s) {spans}
    (bare : ∀ s ∈ spans, s.landing = none) (mem : span ∈ withLandings needs id spans) :
    span.landing.isSome = needs span := by
  induction spans generalizing id with
  | nil => cases mem
  | cons s spans ih =>
    have bare' := fun t h => bare t (mem_cons_of_mem _ h)
    rw [withLandings] at mem
    split at mem
    · rename_i needed
      rcases mem_cons.1 mem with rfl | later
      · rw [blind, needed]
        rfl
      · exact ih bare' later
    · rename_i needed
      rcases mem_cons.1 mem with rfl | later
      · rw [bare span mem_cons_self]
        simpa using needed
      · exact ih bare' later

lemma withLandings_landings (needs : Span → Bool) (id : Nat) {spans : List Span}
    (bare : ∀ s ∈ spans, s.landing = none) : (withLandings needs id spans).filterMap (·.landing) =
      (List.range' id (spans.countP needs)).map BlockId.mk := by
  induction spans generalizing id with
  | nil => rfl
  | cons s spans ih =>
    have bare' := fun t h => bare t (mem_cons_of_mem _ h)
    rw [withLandings]
    split
    · rename_i needed
      rw [countP_cons_of_pos needed, range'_succ, map_cons, ← ih (id + 1) bare']
      rfl
    · rename_i needed
      rw [countP_cons_of_neg needed, ← ih id bare', filterMap_cons_none (bare s mem_cons_self)]

variable {code : Code} {o : Outline} {ranges : List (Nat × Nat)} {starts : List Nat}
  (drawn : Drawn code o ranges starts)

namespace Drawn

include drawn

lemma begins : Begins o.labels ranges code.tries o.instructions starts :=
  beginnings_spec drawn.begun

lemma spans_start : o.spans.map (·.start) = starts := by
  rw [drawn.spans, withLandings_map _ fun _ _ => rfl, spansFrom_start]

lemma spans_id : o.spans.map (·.id) = (List.range' 1 starts.length).map BlockId.mk := by
  rw [drawn.spans, withLandings_map _ fun _ _ => rfl, spansFrom_id]

lemma spans_bounds : o.spans.map (fun s => (s.start, s.stop)) =
    (spansFrom o.instructions.size 1 starts).map (fun s => (s.start, s.stop)) := by
  rw [drawn.spans]
  exact withLandings_map _ (fun _ _ => rfl) _ _ _

lemma tile (mem : span ∈ o.spans) : Tile o.instructions.size starts span := by
  have among : (span.start, span.stop) ∈ o.spans.map (fun s => (s.start, s.stop)) :=
    mem_map.2 ⟨span, mem, rfl⟩
  rw [drawn.spans_bounds] at among
  obtain ⟨bare, mem', same⟩ := mem_map.1 among
  simp only [Prod.mk.injEq] at same
  have tile := spansFrom_tile drawn.begins.ascending drawn.begins.inside mem'
  exact ⟨same.1 ▸ tile.begins, same.1 ▸ same.2 ▸ tile.proper, same.2 ▸ tile.inside,
    same.1 ▸ same.2 ▸ tile.between, same.2 ▸ tile.ends⟩

/-- Each span begins where the one before it ends. -/
lemma spans_chain : o.spans.IsChain fun a b => b.start = a.stop := by
  have chain := spansFrom_chain o.instructions.size 1 starts
  have bounds : ((spansFrom o.instructions.size 1 starts).map fun s => (s.start, s.stop)).IsChain
      fun a b => b.1 = a.2 := (isChain_map _).2 chain
  rw [← drawn.spans_bounds] at bounds
  exact (isChain_map _).1 bounds

lemma landing_isSome (mem : span ∈ o.spans) :
    span.landing.isSome = needsLanding o.instructions ranges span := by
  rw [drawn.spans] at mem
  exact withLandings_isSome (fun _ _ => rfl) (fun _ => spansFrom_bare) mem

/-! ## Numbers of blocks -/

lemma size_eq : o.size = 1 + starts.length +
    (spansFrom o.instructions.size 1 starts).countP (needsLanding o.instructions ranges) := by
  have landings : (o.spans.filterMap (·.landing)).length =
      (spansFrom o.instructions.size 1 starts).countP (needsLanding o.instructions ranges) := by
    rw [drawn.spans, withLandings_landings _ _ fun _ => spansFrom_bare]
    simp
  have spans : o.spans.length = starts.length := by
    simpa using congrArg length drawn.spans_start
  rw [Outline.size, drawn.sources]
  simp only [size_toArray, length_map, length_range]
  rw [landings, spans]

lemma layout_perm : o.layout.Perm ((List.range o.size).map BlockId.mk) := by
  have landings := withLandings_landings (needsLanding o.instructions ranges) (1 + starts.length)
    fun s (mem : s ∈ spansFrom o.instructions.size 1 starts) => spansFrom_bare mem
  rw [← drawn.spans] at landings
  have numbers : (range o.size).map BlockId.mk =
      entry :: (o.spans.map (·.id) ++ o.spans.filterMap (·.landing)) := by
    rw [landings, drawn.spans_id, ← map_append, range'_append_1, drawn.size_eq,
      Nat.add_assoc, Nat.add_comm 1, range_eq_range', range'_succ]
    rfl
  rw [drawn.layout, numbers]
  exact (flatMap_cons_toList_perm _ _ _).cons _

lemma layout_nodup : o.layout.Nodup := by
  rw [drawn.layout_perm.nodup_iff]
  refine nodup_range.map ?_
  intro i j same
  simpa using same

lemma mem_layout : b ∈ o.layout ↔ b.index < o.size := by
  rw [drawn.layout_perm.mem_iff, mem_map]
  constructor
  · rintro ⟨i, mem, rfl⟩
    exact mem_range.1 mem
  · exact fun small => ⟨b.index, mem_range.2 small, rfl⟩

lemma span_unique (mem : span ∈ o.spans) (mem' : span' ∈ o.spans)
    (among : b ∈ span.id :: span.landing.toList) (among' : b ∈ span'.id :: span'.landing.toList) :
    span = span' := by
  have nodup := drawn.layout_nodup
  rw [drawn.layout, nodup_cons, nodup_flatMap] at nodup
  have symm : Std.Symm (Function.onFun Disjoint fun s : Span => s.id :: s.landing.toList) :=
    ⟨fun _ _ disjoint _ one other => disjoint other one⟩
  by_contra ne
  exact nodup.2.2.forall mem mem' ne among among'

lemma span_inner (mem : span ∈ o.spans) (among : b ∈ span.id :: span.landing.toList) :
    b ≠ entry ∧ b.index < o.size := by
  have nodup := drawn.layout_nodup
  rw [drawn.layout, nodup_cons] at nodup
  have inside : b ∈ o.spans.flatMap fun s => s.id :: s.landing.toList :=
    mem_flatMap.2 ⟨span, mem, among⟩
  constructor
  · rintro rfl
    exact nodup.1 inside
  · rw [← drawn.mem_layout, drawn.layout]
    exact mem_cons_of_mem _ inside

lemma id_ne_landing (mem : span ∈ o.spans) (landing : span.landing = some b) : span.id ≠ b := by
  have nodup := drawn.layout_nodup
  rw [drawn.layout, nodup_cons, nodup_flatMap] at nodup
  have := nodup.2.1 span mem
  rintro rfl
  simp [landing] at this

lemma span_eq_of_id (mem : span ∈ o.spans) (mem' : span' ∈ o.spans)
    (same : span.id = span'.id) : span = span' :=
  drawn.span_unique mem mem' mem_cons_self (same ▸ mem_cons_self)

lemma span_eq_of_start (mem : span ∈ o.spans) (mem' : span' ∈ o.spans)
    (same : span.start = span'.start) : span = span' := by
  have nodup : (o.spans.map (·.start)).Nodup := by
    rw [drawn.spans_start]
    exact drawn.begins.ascending.imp Nat.ne_of_lt
  exact inj_on_of_nodup_map nodup mem mem' same

/-! ## Finding blocks -/

lemma blockAt?_eq_some :
    blockAt? o.spans pos = some b ↔ ∃ span ∈ o.spans, span.start = pos ∧ span.id = b := by
  rw [blockAt?, Option.map_eq_some_iff]
  constructor
  · rintro ⟨span, found, rfl⟩
    have := find?_some found
    exact ⟨span, mem_of_find?_eq_some found, by simpa using this, rfl⟩
  · rintro ⟨span, mem, start, rfl⟩
    cases found : o.spans.find? (·.start == pos) with
    | none =>
      have := find?_eq_none.1 found span mem
      simp [start] at this
    | some span' =>
      have at_ : span'.start = pos := by simpa using find?_some found
      have := drawn.span_eq_of_start mem (mem_of_find?_eq_some found) (start.trans at_.symm)
      exact ⟨span', rfl, by rw [this]⟩

lemma blockAt_ok : o.blockAt pos = .ok b ↔ ∃ span ∈ o.spans, span.start = pos ∧ span.id = b := by
  rw [← drawn.blockAt?_eq_some, Outline.blockAt]
  cases blockAt? o.spans pos <;> simp

lemma blockOf_ok {label} : o.blockOf label = .ok b ↔
      ∃ span ∈ o.spans, position o.labels label = .ok span.start ∧ span.id = b := by
  rw [Outline.blockOf, blockOf, bind_ok]
  constructor
  · rintro ⟨pos, found, made⟩
    cases at_ : blockAt? o.spans pos with
    | none => simp [at_] at made
    | some b' =>
      simp only [at_, Except.ok.injEq] at made
      obtain ⟨span, mem, start, id⟩ := drawn.blockAt?_eq_some.1 at_
      exact ⟨span, mem, start ▸ found, id.trans made⟩
  · rintro ⟨span, mem, found, rfl⟩
    refine ⟨_, found, ?_⟩
    rw [drawn.blockAt?_eq_some.2 ⟨span, mem, rfl, rfl⟩]

lemma exists_span (mem : pos ∈ starts) : ∃ span ∈ o.spans, span.start = pos := by
  rw [← drawn.spans_start] at mem
  exact mem_map.1 mem

lemma exists_last (mem : span ∈ o.spans) : ∃ last, o.instructions[span.stop - 1]? = some last := by
  have tile := drawn.tile mem
  have := tile.proper
  have := tile.inside
  exact ⟨_, Array.getElem?_eq_getElem (by omega)⟩

/-- Inside a span nothing branches and nothing throws in a guarded range. -/
lemma calm_inside (mem : span ∈ o.spans) {i} (low : span.start ≤ pos)
    (high : pos + 1 < span.stop) (at_ : o.instructions[pos]? = some i) :
    i.isBranch = false ∧ (throws i && isGuarded ranges pos) = false := by
  have tile := drawn.tile mem
  have bound := tile.inside
  have absent := tile.between (pos + 1) (by omega) high
  have := mt (fun ends => drawn.begins.behind pos i at_ ends (by omega)) absent
  simpa using this

lemma inRange_iff (mem : span ∈ o.spans) {range} (among : range ∈ ranges)
    (low : span.start ≤ pos) (high : pos < span.stop) : inRange range pos = inRange range span.start := by
  have tile := drawn.tile mem
  have bound := tile.inside
  have one : range.1 ≤ pos ↔ range.1 ≤ span.start := by
    refine ⟨fun less => ?_, fun less => by omega⟩
    by_contra more
    exact tile.between range.1 (by omega) (by omega)
      (drawn.begins.range_start range among (by omega))
  have two : pos < range.2 ↔ span.start < range.2 := by
    refine ⟨fun less => by omega, fun less => ?_⟩
    by_contra more
    exact tile.between range.2 (by omega) (by omega)
      (drawn.begins.range_stop range among (by omega))
  simp only [inRange, one, two]

end Drawn

/-! ## Traps -/

/-- A handler stands for a clause. -/
def Receives (o : Outline) (c : CatchClause) (h : Handler) : Prop :=
  h.catches = c.catches ∧ o.blockOf c.handler = .ok h.target

/-- Whether the last instruction of a span throws. -/
def Outline.endsThrowing (o : Outline) (span : Span) : Bool :=
  (o.instructions[span.stop - 1]?).any throws

lemma trapOf?_ok {o t range trap} (made : trapOf? o.labels o.spans o.instructions t range = .ok trap) :
    (trap = none ∧ ∀ span ∈ o.spans, (inRange range span.start && o.endsThrowing span) = false) ∨
    ∃ made, trap = some made ∧ List.Forall₂ (Receives o) t.clauses made.handlers ∧ ∀ b, b ∈ made.covered ↔
        ∃ span ∈ o.spans, (inRange range span.start && o.endsThrowing span) = true ∧ span.id = b := by
  rw [trapOf?] at made
  split at made
  · rename_i empty
    cases made
    refine .inl ⟨rfl, fun span mem => ?_⟩
    simp only [List.isEmpty_iff, map_eq_nil_iff, filter_eq_nil_iff] at empty
    simpa [Outline.endsThrowing] using empty span mem
  · obtain ⟨handlers, received, made⟩ := bind_ok.1 made
    cases made
    refine .inr ⟨_, rfl, ?_, fun b => ?_⟩
    · refine (mapM_ok.1 received).imp fun c h made => ?_
      obtain ⟨target, found, made⟩ := bind_ok.1 made
      cases made
      exact ⟨rfl, found⟩
    · simp only [mem_map, mem_filter]
      constructor
      · rintro ⟨span, ⟨mem, holds⟩, rfl⟩
        exact ⟨span, mem, holds, rfl⟩
      · rintro ⟨span, mem, holds, rfl⟩
        exact ⟨span, ⟨mem, holds⟩, rfl⟩

namespace Drawn

include drawn

lemma covered {trap} (mem : trap ∈ o.traps) (covers : b ∈ trap.covered) :
    ∃ span ∈ o.spans, span.id = b ∧ o.endsThrowing span = true ∧
      ∃ range ∈ ranges, inRange range span.start = true := by
  obtain ⟨made, related, traps⟩ := drawn.traps
  rw [traps, mem_filterMap] at mem
  obtain ⟨_, among, rfl⟩ := mem
  obtain ⟨⟨t, range⟩, pair, attempt⟩ := forall₂_mem_right related among
  rcases trapOf?_ok attempt with ⟨absent, -⟩ | ⟨_, same, -, covered⟩
  · cases absent
  · cases same
    obtain ⟨span, inside, holds, id⟩ := (covered b).1 covers
    rw [Bool.and_eq_true] at holds
    exact ⟨span, inside, id, holds.2, range, (of_mem_zip pair).2, holds.1⟩

/-- The traps that cover a span that ends by throwing are those of the ranges
that hold it, in order. -/
lemma covering (mem : span ∈ o.spans) (throwing : o.endsThrowing span = true) :
    List.Forall₂ (fun t trap => List.Forall₂ (Receives o) t.1.clauses trap.handlers)
      ((code.tries.zip ranges).filter fun t => inRange t.2 span.start)
      (o.traps.filter (·.covered.contains span.id)) := by
  obtain ⟨made, related, traps⟩ := drawn.traps
  rw [traps]
  clear traps
  generalize code.tries.zip ranges = pairs at related ⊢
  induction related with
  | nil => exact .nil
  | @cons t trap ts traps attempt _ ih =>
    rcases trapOf?_ok attempt with ⟨rfl, outside⟩ | ⟨trap, rfl, handlers, covered⟩
    · have := outside span mem
      rw [throwing, Bool.and_true] at this
      rw [filter_cons_of_neg (by simp [this])]
      exact ih
    · have iff : trap.covered.contains span.id = inRange t.2 span.start := by
        rw [Bool.eq_iff_iff, contains_iff_mem, covered]
        constructor
        · rintro ⟨span', mem', holds, same⟩
          rw [drawn.span_eq_of_id mem' mem same, Bool.and_eq_true] at holds
          exact holds.1
        · intro holds
          exact ⟨span, mem, by rw [holds, throwing]; rfl, rfl⟩
      rw [filterMap_cons_some (f := id) (b := trap) rfl]
      by_cases holds : inRange t.2 span.start = true
      · rw [filter_cons_of_pos (by simpa using holds), filter_cons_of_pos (by rw [iff]; exact holds)]
        exact .cons handlers ih
      · rw [filter_cons_of_neg (by simpa using holds), filter_cons_of_neg (by rw [iff]; exact holds)]
        exact ih

end Drawn

/-! ## Edges -/

/-- Normal edges out of the blocks of a span that ends with a given instruction. -/
inductive SpanEdge (o : Outline) (span : Span) (last : Instruction) : BlockId → BlockId → Prop
  | jump {label t} (target : label ∈ last.targets)
      (found : o.blockOf label = .ok t) : SpanEdge o span last span.id t
  | land {l} (falls : last.endsFlow = false) (landing : span.landing = some l) :
      SpanEdge o span last span.id l
  | leave {l t} (falls : last.endsFlow = false) (landing : span.landing = some l)
      (next : o.blockAt span.stop = .ok t) : SpanEdge o span last l t
  | fall {t : BlockId} (falls : last.endsFlow = false) (landing : span.landing = none)
      (next : o.blockAt span.stop = .ok t) : SpanEdge o span last span.id t

lemma blockAt_iff {o : Outline} : o.blockAt pos = .ok t ↔ blockAt? o.spans pos = some t := by
  rw [Outline.blockAt]
  cases blockAt? o.spans pos <;> simp

lemma spanEdges_ok {o last es} (made : spanEdges o.labels o.spans span last = .ok es) (p t : BlockId) :
    (p, t) ∈ es ↔ SpanEdge o span last p t := by
  obtain ⟨targets, found, made⟩ := bind_ok.1 made
  have jumps : (p, t) ∈ targets.map (span.id, ·) ↔
      p = span.id ∧ ∃ label ∈ last.targets, o.blockOf label = .ok t := by
    rw [mem_map]
    constructor
    · rintro ⟨_, mem, same⟩
      cases same
      obtain ⟨label, among, at_⟩ := forall₂_mem_right (mapM_ok.1 found) mem
      exact ⟨rfl, label, among, at_⟩
    · rintro ⟨rfl, label, among, at_⟩
      obtain ⟨t', mem, at'⟩ := mapM_mem found among
      have same : t' = t := by simpa using at'.symm.trans at_
      exact ⟨t', mem, by rw [same]⟩
  have next (b : BlockId) : (p, t) ∈ (blockAt? o.spans span.stop).toList.map (b, ·) ↔
      p = b ∧ o.blockAt span.stop = .ok t := by
    rw [mem_map, blockAt_iff]
    constructor
    · rintro ⟨_, mem, same⟩
      cases same
      exact ⟨rfl, Option.mem_toList.1 mem⟩
    · rintro ⟨rfl, at_⟩
      exact ⟨t, Option.mem_toList.2 at_, rfl⟩
  split at made
  · rename_i ends
    cases made
    rw [jumps]
    constructor
    · rintro ⟨rfl, label, target, at_⟩
      exact .jump target at_
    · rintro (⟨target, at_⟩ | ⟨falls, _⟩ | ⟨falls, _, _⟩ | ⟨falls, _, _⟩)
      · exact ⟨rfl, _, target, at_⟩
      all_goals rw [ends] at falls; cases falls
  · rename_i falls
    rw [Bool.not_eq_true] at falls
    split at made
    · rename_i l landing
      cases made
      rw [mem_append, mem_cons, jumps, next, Prod.mk.injEq]
      constructor
      · rintro ((⟨rfl, rfl⟩ | ⟨rfl, at_⟩) | ⟨rfl, label, target, at_⟩)
        · exact .land falls landing
        · exact .leave falls landing at_
        · exact .jump target at_
      · rintro (⟨target, at_⟩ | ⟨_, landing'⟩ | ⟨_, landing', at_⟩ | ⟨_, landing', _⟩)
        · exact .inr ⟨rfl, _, target, at_⟩
        · rw [landing] at landing'
          cases landing'
          exact .inl (.inl ⟨rfl, rfl⟩)
        · rw [landing] at landing'
          cases landing'
          exact .inl (.inr ⟨rfl, at_⟩)
        · rw [landing] at landing'
          cases landing'
    · rename_i landing
      cases made
      rw [mem_append, jumps, next]
      constructor
      · rintro (⟨rfl, label, target, at_⟩ | ⟨rfl, at_⟩)
        · exact .jump target at_
        · exact .fall falls landing at_
      · rintro (⟨target, at_⟩ | ⟨_, landing'⟩ | ⟨_, landing', _⟩ | ⟨_, _, at_⟩)
        · exact .inl ⟨rfl, _, target, at_⟩
        · rw [landing] at landing'
          cases landing'
        · rw [landing] at landing'
          cases landing'
        · exact .inr ⟨rfl, at_⟩

namespace Drawn

include drawn

lemma mem_edges : (p, t) ∈ o.edges ↔ p = entry ∧ t = ⟨1⟩ ∨
    (∃ span ∈ o.spans, ∃ last, o.instructions[span.stop - 1]? = some last ∧ SpanEdge o span last p t) ∨
    ∃ trap ∈ o.traps, p ∈ trap.covered ∧ ∃ h ∈ trap.handlers, h.target = t := by
  obtain ⟨made, related, edges⟩ := drawn.edges
  have spans : (p, t) ∈ made.flatten ↔
      ∃ span ∈ o.spans, ∃ last, o.instructions[span.stop - 1]? = some last ∧
        SpanEdge o span last p t := by
    rw [mem_flatten]
    constructor
    · rintro ⟨es, among, mem⟩
      obtain ⟨span, inside, attempt⟩ := forall₂_mem_right related among
      obtain ⟨last, at_⟩ := drawn.exists_last inside
      simp only [at_] at attempt
      exact ⟨span, inside, last, at_, (spanEdges_ok attempt p t).1 mem⟩
    · rintro ⟨span, inside, last, at_, edge⟩
      obtain ⟨es, among, attempt⟩ := forall₂_mem_left related inside
      simp only [at_] at attempt
      exact ⟨es, among, (spanEdges_ok attempt p t).2 edge⟩
  have traps : (p, t) ∈ o.traps.flatMap trapEdges ↔
      ∃ trap ∈ o.traps, p ∈ trap.covered ∧ ∃ h ∈ trap.handlers, h.target = t := by
    simp only [mem_flatMap, trapEdges, mem_map, Prod.mk.injEq]
    constructor
    · rintro ⟨trap, mem, b, covers, h, handler, rfl, rfl⟩
      exact ⟨trap, mem, covers, h, handler, rfl⟩
    · rintro ⟨trap, mem, covers, h, handler, rfl⟩
      exact ⟨trap, mem, p, covers, h, handler, rfl, rfl⟩
  rw [edges, mem_append, mem_cons, spans, traps, Prod.mk.injEq, or_assoc]

lemma mem_sourcesOf : p ∈ o.sourcesOf b ↔ b.index < o.size ∧ (p, b) ∈ o.edges := by
  have size : o.size = 1 + o.spans.length + (o.spans.filterMap (·.landing)).length := by
    rw [Outline.size, drawn.sources]
    simp
  rw [Outline.sourcesOf, drawn.sources, Array.getD_eq_getD_getElem?, getElem?_toArray, getElem?_map]
  by_cases small : b.index < o.size
  · rw [getElem?_range (size ▸ small), Option.map_some, Option.getD_some, mem_eraseDups]
    simp only [mem_map, mem_filter, beq_iff_eq, small, true_and]
    constructor
    · rintro ⟨⟨_, t⟩, ⟨mem, same⟩, rfl⟩
      have : t = b := by
        cases t
        cases b
        simpa using same
      exact this ▸ mem
    · exact fun mem => ⟨(p, b), ⟨mem, rfl⟩, rfl⟩
  · rw [getElem?_eq_none (by rw [length_range, ← size]; omega)]
    simp [small]

lemma sourcesOf_nodup (b : BlockId) : (o.sourcesOf b).Nodup := by
  rw [Outline.sourcesOf, drawn.sources, Array.getD_eq_getD_getElem?, getElem?_toArray, getElem?_map]
  cases (range _)[b.index]? with
  | none => exact nodup_nil
  | some _ => exact nodup_eraseDups _

lemma first_span : ∃ span rest, o.spans = span :: rest ∧ span.start = 0 ∧ span.id = ⟨1⟩ := by
  have first := drawn.begins.first drawn.nonempty
  have starts := drawn.spans_start
  have ids := drawn.spans_id
  cases spans : o.spans with
  | nil =>
    rw [spans] at starts
    simp [← starts] at first
  | cons span rest =>
    refine ⟨span, rest, rfl, ?_, ?_⟩
    · have ascending := drawn.begins.ascending
      rw [spans] at starts
      rw [← starts] at first ascending
      rcases mem_cons.1 first with zero | later
      · exact zero.symm
      · exact absurd ((pairwise_cons.1 ascending).1 0 later) (Nat.not_lt_zero _)
    · rw [spans, ← starts, spans, map_cons, map_cons, length_cons, range'_succ, map_cons] at ids
      exact (cons.inj ids).1

lemma received {trap} (mem : trap ∈ o.traps) {h} (handler : h ∈ trap.handlers) :
    ∃ t ∈ code.tries, ∃ c ∈ t.clauses, Receives o c h := by
  obtain ⟨made, related, traps⟩ := drawn.traps
  rw [traps, mem_filterMap] at mem
  obtain ⟨_, among, rfl⟩ := mem
  obtain ⟨⟨t, range⟩, pair, attempt⟩ := forall₂_mem_right related among
  rcases trapOf?_ok attempt with ⟨absent, -⟩ | ⟨_, same, handlers, -⟩
  · cases absent
  · cases same
    obtain ⟨c, clause, receives⟩ := forall₂_mem_right handlers handler
    exact ⟨t, (of_mem_zip pair).1, c, clause, receives⟩

lemma target_inner (edge : (p, t) ∈ o.edges) : t ≠ entry ∧ t.index < o.size := by
  have labelled {label : Label} {t : BlockId} (found : o.blockOf label = .ok t) :
      t ≠ entry ∧ t.index < o.size := by
    obtain ⟨span, mem, -, rfl⟩ := drawn.blockOf_ok.1 found
    exact drawn.span_inner mem mem_cons_self
  have next {pos : Nat} {t : BlockId} (found : o.blockAt pos = .ok t) :
      t ≠ entry ∧ t.index < o.size := by
    obtain ⟨span, mem, -, rfl⟩ := drawn.blockAt_ok.1 found
    exact drawn.span_inner mem mem_cons_self
  rcases drawn.mem_edges.1 edge with ⟨-, rfl⟩ | ⟨span, mem, last, -, edge⟩ |
      ⟨trap, mem, -, h, handler, rfl⟩
  · obtain ⟨span, rest, spans, -, id⟩ := drawn.first_span
    exact drawn.span_inner (spans ▸ mem_cons_self) (id ▸ mem_cons_self)
  · cases edge with
    | jump _ found => exact labelled found
    | land _ landing => exact drawn.span_inner mem (by simp [landing])
    | leave _ _ at_ | fall _ _ at_ => exact next at_
  · obtain ⟨t, -, c, -, -, found⟩ := drawn.received mem handler
    exact labelled found

lemma source_inside (edge : (p, t) ∈ o.edges) : p.index < o.size := by
  rcases drawn.mem_edges.1 edge with ⟨rfl, -⟩ | ⟨span, mem, last, -, edge⟩ | ⟨trap, mem, covers, -⟩
  · rw [← drawn.mem_layout, drawn.layout]
    exact mem_cons_self
  · cases edge with
    | jump | land | fall => exact (drawn.span_inner mem mem_cons_self).2
    | leave _ landing _ => exact (drawn.span_inner mem (by simp [landing])).2
  · obtain ⟨span, inside, rfl, -⟩ := drawn.covered mem covers
    exact (drawn.span_inner inside mem_cons_self).2

end Drawn

end Restack.Lifting
