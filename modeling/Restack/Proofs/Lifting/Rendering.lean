/-
# The lifted method as a rendering of its body

`Rendering` says all that a lifted method is: its blocks hold the lines of the
spans with the values of the finished tables, and each begins with the phis that the
tables kept for it. Nothing behind `lift_rendering` looks at how the tables came about.
-/
import Restack.Proofs.Ir.Graph
import Restack.Proofs.Lifting.Filling
import Restack.Proofs.Lifting.Outline

namespace Restack.Lifting

open Register (Instruction Reg Code)
open Ir (BlockId Local Value Stmt Terminator Block Phi defined defined_mapValues)
open List Lookup
open Outcome
open Registers (Good Later Settles Reached)

lemma Drawn.closed {code : Code} {o : Outline} {ranges : List (Nat × Nat)} {starts : List Nat}
    (drawn : Drawn code o ranges starts) : o.Closed where
  sources_inside b p mem := drawn.source_inside (drawn.mem_sourcesOf.1 mem).2
  targets_inside b t mem := by
    rw [Outline.targetsOf, mem_eraseDups, mem_map] at mem
    obtain ⟨⟨p, _⟩, among, rfl⟩ := mem
    exact (drawn.target_inner (mem_filter.1 among).1).2
  entry_inside := by
    rw [← drawn.mem_layout, drawn.layout]
    exact mem_cons_self
  entry_sources := by
    rw [eq_nil_iff_forall_not_mem]
    intro p mem
    exact (drawn.target_inner (drawn.mem_sourcesOf.1 mem).2).1 rfl

lemma separate_proper {is pos i} (mem : i ∈ (separate is pos).1) : isProper i = true := by
  fun_induction separate is pos with
  | case1 => cases mem
  | case2 pos label rest kept labels eq ih =>
    exact ih (by rw [eq]; exact mem)
  | case3 pos rest ih => exact ih mem
  | case4 pos i' rest h1 h2 kept labels eq ih =>
    rcases mem_cons.1 mem with rfl | later
    · cases i <;> simp_all [isProper]
    · exact ih (by rw [eq]; exact later)

lemma Drawn.proper {code o ranges starts} (drawn : Drawn code o ranges starts) {pos : Nat} {i}
    (at_ : o.instructions[pos]? = some i) : isProper i = true := by
  have mem : i ∈ (separate code.instructions 0).1 := by
    rw [drawn.separated]
    exact Array.mem_toList_iff.2 (Array.mem_of_getElem? at_)
  exact separate_proper mem

/-! ## Parameters -/

/-- The registers in which parameters lie. -/
def paramRegs : Reg → List String → List Reg
  | _, [] => []
  | r, d :: rest => r :: paramRegs (r + paramWidth d) rest

/-- The statements that define parameters from a number on. -/
def paramStmts (n : Nat) (ls : List Local) : List Stmt :=
  (ls.zipIdx n).map fun p => .assign p.1 (.param p.2)

lemma defined_paramStmts (n : Nat) (ls : List Local) : defined (paramStmts n ls) = ls := by
  induction ls generalizing n with
  | nil => rfl
  | cons l ls ih =>
    have := ih (n + 1)
    simp only [defined, paramStmts] at this ⊢
    simp [Stmt.def?, this]

variable {order : ClosingOrder} {o : Outline}

lemma paramStmts_mapValues (f : Value → Value) (n : Nat) (ls : List Local) :
    (paramStmts n ls).map (Stmt.mapValues f) = paramStmts n ls := by
  rw [paramStmts, map_map]
  rfl

lemma defineParams_spec (n : Nat) (r : Reg) (ds : List String) {s}
    (reached : Reached o s) (unfilled : (s.table entry).filled = false) :
    ∃ ls, (defineParams n r ds s).1 = paramStmts n ls ∧ ls.length = ds.length ∧
      ((defineParams n r ds s).2.table entry).written =
        ((paramRegs r ds).zip ls).reverse ++ (s.table entry).written ∧
      Reached o (defineParams n r ds s).2 ∧ Later s (defineParams n r ds s).2 ∧
      (∀ c, c ≠ entry → ((defineParams n r ds s).2.table c).written = (s.table c).written) ∧
      (∀ c, ((defineParams n r ds s).2.table c).filled = (s.table c).filled) ∧
      Ascending s.locals (defineParams n r ds s).2.locals ls ∧
      ∀ l ∈ ls, (defineParams n r ds s).2.Plain l := by
  induction ds generalizing n r s with
  | nil =>
    exact ⟨[], rfl, rfl, rfl, reached, .refl s, fun _ _ => rfl, fun _ => rfl, .nil _ _, by simp⟩
  | cons d ds ih =>
    obtain ⟨reached', settles, plain⟩ := reached.freshLocal
    obtain ⟨reached'', later⟩ := reached'.write (r := r) ((settles.fills entry).trans unfilled) plain
    have inside' : entry.index < s.freshLocal.2.tables.size :=
      reached'.good.size ▸ reached.closed.entry_inside
    obtain ⟨ls, stmts, length, written, reached₃, later', others, fills, fresh, plains⟩ :=
      ih (n + 1) (r + paramWidth d) reached'' ((Registers.filled_write entry).trans
        ((settles.fills entry).trans unfilled))
    refine ⟨s.freshLocal.1 :: ls, ?_, by simp [length], ?_, reached₃,
      (settles.toLater.trans later).trans later', ?_, ?_, ?_, ?_⟩
    · simp only [defineParams, stmts]
      rfl
    · simp only [defineParams, written, paramRegs, zip_cons_cons, reverse_cons,
        Registers.written_write inside', settles.writes, append_assoc, cons_append, nil_append]
    · intro c ne
      exact (others c ne).trans ((Registers.written_write_ne ne).trans (settles.writes c))
    · intro c
      exact (fills c).trans ((Registers.filled_write c).trans (settles.fills c))
    · exact (Ascending.single s.locals).append fresh (Nat.le_succ _) later'.locals
    · intro l mem
      rcases mem_cons.1 mem with rfl | older
      · exact later'.plain _ (later.plain _ plain)
      · exact plains l older

/-! ## Spans -/

/-- How the block of a span ends: by its own terminator, at its landing or at
the block behind it. -/
inductive Ends (o : Outline) (span : Span) : Option Terminator → Terminator → Prop
  | own {t} : Ends o span (some t) t
  | land {l} (landing : span.landing = some l) : Ends o span none (.goto l)
  | fall {next} (landing : span.landing = none) (behind : o.blockAt span.stop = .ok next) :
      Ends o span none (.goto next)

/-- The blocks of a span. -/
def Span.blocks (span : Span) : List BlockId := span.id :: span.landing.toList

/-- What a span becomes, with the values of the tables `f`; `body` gives the
blocks without their phis. -/
structure Rendered (o : Outline) (f : Registers) (body : BlockId → Option Block) (span : Span)
    (result : Option Local) (filling : Filling) (terminator : Terminator) (result' : Option Local) :
    Prop where
  lines : Lines o span (f.known span.id) span.start (o.spanInstructions span) [] result filling
    (f.table span.id).written result'
  ends : Ends o span filling.terminator terminator
  block : body span.id = some ⟨[], filling.stmts, terminator⟩
  landing : ∀ l, span.landing = some l → ∃ next, o.blockAt span.stop = .ok next ∧
    body l = some ⟨[], [], .goto next⟩ ∧ (f.table l).written = filling.deferred.toList

/-- Spans one after the other; the last index lists what they define. -/
inductive RenderedAll (o : Outline) (f : Registers) (body : BlockId → Option Block) :
    List Span → Option Local → Option Local → List Local → Prop
  | nil {result} : RenderedAll o f body [] result result []
  | cons {span rest result filling terminator result' result'' defs}
      (first : Rendered o f body span result filling terminator result')
      (later : RenderedAll o f body rest result' result'' defs) :
      RenderedAll o f body (span :: rest) result result'' (defined filling.stmts ++ defs)

variable {f : Registers} {body : BlockId → Option Block} {spans : List Span}
  {result result' : Option Local} {defs : List Local} {p p' : Progress}
  {blocks : Array (Option Block)} {b : BlockId} {t : Terminator}

lemma RenderedAll.span (all : RenderedAll o f body spans result result' defs) {span} (mem : span ∈ spans) :
    ∃ before filling terminator behind, Rendered o f body span before filling terminator behind ∧
      (defined filling.stmts).Sublist defs := by
  induction all with
  | nil => cases mem
  | cons first _ ih =>
    rcases mem_cons.1 mem with rfl | later
    · exact ⟨_, _, _, _, first, sublist_append_left _ _⟩
    · obtain ⟨before, filling, terminator, behind, rendered, among⟩ := ih later
      exact ⟨before, filling, terminator, behind, rendered, among.trans (sublist_append_right _ _)⟩

lemma RenderedAll.handed (all : RenderedAll o f body spans result result' defs)
    (chain : spans.IsChain fun a b => b.start = a.stop) {span} (mem : span ∈ spans) :
    ∃ before filling terminator behind, Rendered o f body span before filling terminator behind ∧
      (spans.head? = some span ∧ before = result ∨ ∃ prev ∈ spans, span.start = prev.stop ∧
        ∃ before' filling' terminator', Rendered o f body prev before' filling' terminator' before) := by
  induction all with
  | nil => cases mem
  | @cons head rest _ _ _ _ _ _ first later ih =>
    rcases mem_cons.1 mem with rfl | among
    · exact ⟨_, _, _, _, first, .inl ⟨rfl, rfl⟩⟩
    · obtain ⟨joined, chain⟩ := isChain_cons.1 chain
      obtain ⟨before, filling, terminator, behind, rendered, from_⟩ := ih chain among
      refine ⟨before, filling, terminator, behind, rendered, .inr ?_⟩
      rcases from_ with ⟨next, rfl⟩ | ⟨prev, within, stop, came⟩
      · exact ⟨head, mem_cons_self, joined span next, _, _, _, first⟩
      · exact ⟨prev, mem_cons_of_mem _ within, stop, came⟩

lemma Rendered.congr {body' span filling} (rendered : Rendered o f body span result filling t result')
    (same : ∀ b ∈ span.blocks, ∀ stmts t, body b = some ⟨[], stmts, t⟩ → body' b = some ⟨[], stmts, t⟩) :
    Rendered o f body' span result filling t result' := by
  refine ⟨rendered.lines, rendered.ends, same _ mem_cons_self _ _ rendered.block, fun l landing => ?_⟩
  obtain ⟨next, behind, block, written⟩ := rendered.landing l landing
  exact ⟨next, behind, same l (by simp [Span.blocks, landing]) _ _ block, written⟩

lemma RenderedAll.congr {body'} (all : RenderedAll o f body spans result result' defs)
    (same : ∀ b stmts terminator, body b = some ⟨[], stmts, terminator⟩ →
      body' b = some ⟨[], stmts, terminator⟩) : RenderedAll o f body' spans result result' defs := by
  induction all with
  | nil => exact .nil
  | cons first _ ih => exact .cons (first.congr fun b _ => same b) ih

/-- Blocks under way, with the values of the tables `f`. -/
def bodyOf (f : Registers) (blocks : Array (Option Block)) (b : BlockId) : Option Block :=
  (blocks[b.index]?).join.map (Block.mapValues f.resolve)

/-- How reading some blocks changes the state of a lift. -/
structure Proceeds (o : Outline) (bs : List BlockId) (p p' : Progress) : Prop where
  reached : Reached o p'.registers
  later : Later p.registers p'.registers
  result : ∀ l, p'.result = some l → p'.registers.Plain l
  size : p'.blocks.size = p.blocks.size
  written : ∀ c, c ∉ bs → (p'.registers.table c).written = (p.registers.table c).written
  filled : ∀ c, c ∉ bs → (p'.registers.table c).filled = (p.registers.table c).filled
  done : ∀ c ∈ bs, (p'.registers.table c).filled = true
  blocks : ∀ c, c ∉ bs → p'.blocks[c.index]? = p.blocks[c.index]?

lemma Proceeds.refl (reached : Reached o p.registers)
    (result : ∀ l, p.result = some l → p.registers.Plain l) : Proceeds o [] p p :=
  ⟨reached, .refl _, result, rfl, fun _ _ => rfl, fun _ _ => rfl, by simp, fun _ _ => rfl⟩

lemma Proceeds.trans {bs cs : List BlockId} {q : Progress} (first : Proceeds o bs p q)
    (second : Proceeds o cs q p') : Proceeds o (bs ++ cs) p p' where
  reached := second.reached
  later := first.later.trans second.later
  result := second.result
  size := second.size.trans first.size
  written c outside := by
    rw [mem_append, not_or] at outside
    exact (second.written c outside.2).trans (first.written c outside.1)
  filled c outside := by
    rw [mem_append, not_or] at outside
    exact (second.filled c outside.2).trans (first.filled c outside.1)
  done c mem := by
    by_cases late : c ∈ cs
    · exact second.done c late
    · rw [second.filled c late]
      exact first.done c ((mem_append.1 mem).resolve_right late)
  blocks c outside := by
    rw [mem_append, not_or] at outside
    exact (second.blocks c outside.2).trans (first.blocks c outside.1)

lemma getElem?_setIfInBounds_of_ne {c block} (ne : c ≠ b) :
    (blocks.setIfInBounds b.index block)[c.index]? = blocks[c.index]? := by
  rw [Array.getElem?_setIfInBounds_ne]
  intro same
  exact ne (by cases b; cases c; simp_all)

lemma Proceeds.place {block filling} (inside : b.index < o.size) (fills : Fills o b p p' filling) :
    Proceeds o [b] p { p' with
      registers := p'.registers.finishBlock order o b
      blocks := p'.blocks.setIfInBounds b.index (some block) } := by
  obtain ⟨reached, later, written, filled, others⟩ := fills.reached.finishBlock order inside
  refine {
    reached := reached
    later := fills.later.trans later
    result := fun l found => later.plain l (fills.result l found)
    size := by simp [fills.blocks]
    written := fun c outside => ?_
    filled := fun c outside => ?_
    done := fun c mem => ?_
    blocks := fun c outside => ?_ }
  · exact (written c).trans (fills.others c (by simpa using outside))
  · exact (others c (by simpa using outside)).trans (fills.fills c)
  · rw [mem_singleton.1 mem]
    exact filled
  · simp only [fills.blocks]
    exact getElem?_setIfInBounds_of_ne (by simpa using outside)

lemma bodyOf_setIfInBounds {block} (inside : b.index < blocks.size) :
    bodyOf f (blocks.setIfInBounds b.index (some block)) b = some (block.mapValues f.resolve) := by
  simp [bodyOf, inside]

lemma bodyOf_congr {blocks'}
    (same : blocks'[b.index]? = blocks[b.index]?) : bodyOf f blocks' b = bodyOf f blocks b := by
  simp only [bodyOf, same]

lemma fillLanding_spec {span deferred landing} (made : fillLanding order o span deferred landing p = .ok p')
    (inside : landing.index < o.size) (room : p.blocks.size = o.size) (reached : Reached o p.registers)
    (unfilled : (p.registers.table landing).filled = false) (bare : (p.registers.table landing).written = [])
    (result : ∀ l, p.result = some l → p.registers.Plain l)
    (plain : ∀ r l, deferred = some (r, l) → p.registers.Plain l) :
    Proceeds o [landing] p p' ∧ p'.result = p.result ∧
      (p'.registers.table landing).written = deferred.toList ∧ ∃ next, o.blockAt span.stop = .ok next ∧
        ∀ f, bodyOf f p'.blocks landing = some ⟨[], [], .goto next⟩ := by
  obtain ⟨next, behind, made⟩ := bind_ok.1 made
  cases made
  obtain ⟨reached', settles⟩ := reached.closeIfReady inside
  have bare' := (settles.writes landing).trans bare
  have result' := fun l found => settles.plain l (result l found)
  have unwritten : Fills o landing p { p with registers := p.registers.closeIfReady o landing }
      .empty := .of_settles reached' settles result' rfl rfl
  have inside' : landing.index < (p.registers.closeIfReady o landing).tables.size :=
    reached'.good.size ▸ inside
  have finished (t : Registers) (fills : Fills o landing p { p with registers := t } .empty)
      (written : (t.table landing).written = deferred.toList) :
      Proceeds o [landing] p { p.setBlock landing ⟨[], [], .goto next⟩ with
        registers := t.finishBlock order o landing } ∧
      ((t.finishBlock order o landing).table landing).written = deferred.toList := by
    refine ⟨.place inside fills, ?_⟩
    rw [(fills.reached.finishBlock order inside).2.2.1, written]
  have body : ∃ next', o.blockAt span.stop = .ok next' ∧
      ∀ f, bodyOf f (p.setBlock landing ⟨[], [], .goto next⟩).blocks landing =
        some ⟨[], [], .goto next'⟩ :=
    ⟨next, behind, fun f => bodyOf_setIfInBounds (room ▸ inside)⟩
  cases deferred with
  | none =>
    obtain ⟨proceeds, written⟩ := finished _ unwritten bare'
    exact ⟨proceeds, rfl, written, body⟩
  | some d =>
    obtain ⟨r, l⟩ := d
    have fills := unwritten.write (r := r) unfilled (settles.plain l (plain r l rfl)) result'
    obtain ⟨proceeds, written⟩ := finished _ fills
      (by rw [Registers.written_write inside', bare']; rfl)
    exact ⟨proceeds, rfl, written, body⟩

lemma ends_mapValues {span own} (f : Value → Value) (ends : Ends o span own t) :
    Ends o span (own.map (Terminator.mapValues f)) (t.mapValues f) := by
  cases ends with
  | own => exact .own
  | land landing => exact .land landing
  | fall landing behind => exact .fall landing behind

lemma ending_ok {span own} (made : o.ending span own = .ok t) : Ends o span own t := by
  cases own with
  | some t' =>
    cases made
    exact .own
  | none =>
    rw [Outline.ending] at made
    cases landing : span.landing with
    | some l =>
      rw [landing] at made
      cases made
      exact .land landing
    | none =>
      rw [landing] at made
      obtain ⟨next, behind, made⟩ := bind_ok.1 made
      cases made
      exact .fall landing behind

section Span

variable {code : Code} {ranges : List (Nat × Nat)} {starts : List Nat}
  (drawn : Drawn code o ranges starts)

include drawn

lemma spanInstructions_proper {span} : ∀ i ∈ o.spanInstructions span, isProper i = true := by
  intro i mem
  rw [Outline.spanInstructions, Array.mem_toList_iff] at mem
  obtain ⟨k, at_⟩ := Array.mem_iff_getElem?.1 mem
  rw [Array.getElem?_extract] at at_
  split at at_
  · exact drawn.proper at_
  · cases at_

lemma fillSpan_spec {span} (mem : span ∈ o.spans) (made : fillSpan order o span p = .ok p')
    (room : p.blocks.size = o.size) (reached : Reached o p.registers)
    (result : ∀ l, p.result = some l → p.registers.Plain l)
    (untouched : ∀ b ∈ span.blocks, (p.registers.table b).filled = false ∧
      (p.registers.table b).written = []) : ∃ filling : Filling, Proceeds o span.blocks p p' ∧
      Ascending p.registers.locals p'.registers.locals (defined filling.stmts) ∧
      (∀ l ∈ defined filling.stmts, p'.registers.Plain l) ∧ ∀ f, Later p'.registers f → ∃ terminator,
        Rendered o f (bodyOf f p'.blocks) span p.result (filling.mapValues f.resolve) terminator
          p'.result := by
  have inside := (drawn.span_inner mem mem_cons_self).2
  obtain ⟨unfilled, bare⟩ := untouched span.id mem_cons_self
  obtain ⟨⟨filling, q⟩, filled, made⟩ := bind_ok.1 made
  obtain ⟨terminator, ended, made⟩ := bind_ok.1 made
  have ends := ending_ok ended
  obtain ⟨reached', settles⟩ := reached.closeIfReady inside
  obtain ⟨fills, lines⟩ := fillFrom_spec inside filled (spanInstructions_proper drawn) reached'
    ((settles.fills span.id).trans unfilled) fun l found => settles.plain l (result l found)
  have fills' := Fills.after_reads settles fills
  -- the block of the span is in place
  obtain ⟨q', placed⟩ : ∃ q' : Progress, q' = ⟨q.registers.finishBlock order o span.id, q.result,
    q.blocks.setIfInBounds span.id.index (some ⟨[], filling.stmts, terminator⟩)⟩ := ⟨_, rfl⟩
  have first : Proceeds o [span.id] p q' := placed ▸ .place inside fills'
  obtain ⟨-, laterFinish, written, -⟩ := fills'.reached.finishBlock order inside
  have laterQ : Later q.registers q'.registers := placed ▸ laterFinish
  have writtenQ : (q'.registers.table span.id).written = (q.registers.table span.id).written :=
    placed ▸ written span.id
  have resultQ : q'.result = q.result := by rw [placed]
  have body (f : Registers) : bodyOf f q'.blocks span.id =
      some ⟨[], filling.stmts.map (Stmt.mapValues f.resolve), terminator.mapValues f.resolve⟩ := by
    rw [placed]
    exact bodyOf_setIfInBounds (by rw [fills'.blocks, room]; exact inside)
  have lines' (f : Registers) (later : Later q'.registers f) :
      Lines o span (f.known span.id) span.start (o.spanInstructions span) [] p.result
        (filling.mapValues f.resolve) (f.table span.id).written q.result := by
    have line := lines f (laterQ.trans later)
    rw [settles.writes, bare] at line
    rw [later.written span.id (first.done span.id (by simp)), writtenQ]
    exact line
  -- so is the landing, if there is one
  obtain ⟨second, resultP, landed⟩ : Proceeds o span.landing.toList q' p' ∧ p'.result = q'.result ∧
      ∀ l, span.landing = some l → (p'.registers.table l).written = filling.deferred.toList ∧
        ∃ next, o.blockAt span.stop = .ok next ∧ ∀ f, bodyOf f p'.blocks l = some ⟨[], [], .goto next⟩ := by
    cases landing : span.landing with
    | none =>
      rw [landing] at made
      obtain rfl : q' = p' := placed.trans (Except.ok.inj made)
      exact ⟨.refl first.reached first.result, rfl, by simp⟩
    | some l =>
      rw [landing] at made
      replace made : fillLanding order o span filling.deferred l q' = .ok p' := placed ▸ made
      have among : l ∈ span.blocks := by simp [Span.blocks, landing]
      have apart : l ∉ [span.id] := by
        rw [mem_singleton]
        exact fun same => drawn.id_ne_landing mem landing same.symm
      obtain ⟨unfilled', bare'⟩ := untouched l among
      obtain ⟨second, resultP, written', landed⟩ :=
        fillLanding_spec made (drawn.span_inner mem among).2 (first.size.trans room)
          first.reached ((first.filled l apart).trans unfilled') ((first.written l apart).trans bare')
          first.result fun r k found => laterQ.plain k (fills'.deferred r k found)
      refine ⟨second, resultP, fun k found => ?_⟩
      cases found
      exact ⟨written', landed⟩
  have apart : span.id ∉ span.landing.toList := fun among =>
    drawn.id_ne_landing mem (Option.mem_toList.1 among) rfl
  refine ⟨filling, first.trans second, fills'.fresh.mono (Nat.le_trans laterQ.locals second.later.locals),
    fun k h => second.later.plain k (laterQ.plain k (fills'.plain k h)),
    fun f later => ⟨terminator.mapValues f.resolve, ?_, ends_mapValues _ ends, ?_, fun l landing => ?_⟩⟩
  · rw [resultP, resultQ]
    exact lines' f (second.later.trans later)
  · rw [bodyOf_congr (second.blocks span.id apart)]
    exact body f
  · obtain ⟨written, next, behind, landed⟩ := landed l landing
    refine ⟨next, behind, landed f, ?_⟩
    rw [later.written l (second.done l (Option.mem_toList.2 landing)), written]
    rfl

lemma fillSpans_spec (among : ∀ span ∈ spans, span ∈ o.spans) (distinct : (spans.flatMap Span.blocks).Nodup)
    (made : spans.foldlM (fun p span => fillSpan order o span p) p = .ok p')
    (room : p.blocks.size = o.size) (reached : Reached o p.registers)
    (result : ∀ l, p.result = some l → p.registers.Plain l)
    (untouched : ∀ b ∈ spans.flatMap Span.blocks, (p.registers.table b).filled = false ∧
      (p.registers.table b).written = []) : ∃ defs, Proceeds o (spans.flatMap Span.blocks) p p' ∧
      Ascending p.registers.locals p'.registers.locals defs ∧ (∀ l ∈ defs, p'.registers.Plain l) ∧
      ∀ f, Later p'.registers f → RenderedAll o f (bodyOf f p'.blocks) spans p.result p'.result defs := by
  induction spans generalizing p with
  | nil =>
    cases made
    exact ⟨[], .refl reached result, .nil _ _, by simp, fun f _ => .nil⟩
  | cons span spans ih =>
    obtain ⟨q, step, made⟩ := foldlM_cons_ok.1 made
    rw [flatMap_cons, nodup_append] at distinct
    obtain ⟨-, distinct, apart⟩ := distinct
    have mem := among span mem_cons_self
    obtain ⟨filling, first, fresh, plain, rendered⟩ := fillSpan_spec drawn mem step room reached
      result fun b h => untouched b (mem_append_left _ h)
    have outside (b : BlockId) (h : b ∈ spans.flatMap Span.blocks) : b ∉ span.blocks :=
      fun h' => apart b h' b h rfl
    obtain ⟨defs, second, fresh', plain', all⟩ := ih
      (fun s h => among s (mem_cons_of_mem _ h)) distinct made (first.size.trans room)
      first.reached first.result fun b h => by
        rw [first.filled b (outside b h), first.written b (outside b h)]
        exact untouched b (mem_append_right _ h)
    refine ⟨defined filling.stmts ++ defs, first.trans second,
      fresh.append fresh' first.later.locals second.later.locals, fun l h => ?_, fun f later => ?_⟩
    · rcases mem_append.1 h with h | h
      · exact second.later.plain l (plain l h)
      · exact plain' l h
    · obtain ⟨terminator, r⟩ := rendered f (second.later.trans later)
      have kept (b : BlockId) (h : b ∈ span.blocks) : bodyOf f p'.blocks b = bodyOf f q.blocks b :=
        bodyOf_congr (second.blocks b fun h' => outside b h' h)
      have r' := r.congr fun b h _ _ body => (kept b h).trans body
      rw [← defined_mapValues f.resolve]
      exact .cons r' (all f later)

/-! ## The entry -/

lemma fillEntry_spec {params available} (made : fillEntry order o params available
      ⟨.initial o.size, none, Array.replicate o.size none⟩ = .ok p) :
    total (params.map paramWidth) ≤ available ∧ p.result = none ∧ p.blocks.size = o.size ∧
      Reached o p.registers ∧ (p.registers.table entry).filled = true ∧
      (∀ c, c ≠ entry → (p.registers.table c).filled = false ∧ (p.registers.table c).written = []) ∧
      ∃ ls, ls.length = params.length ∧ Ascending 0 p.registers.locals ls ∧
        (∀ l ∈ ls, p.registers.Plain l) ∧ (p.registers.table entry).written =
          ((paramRegs (available - total (params.map paramWidth)) params).zip ls).reverse ∧
        ∀ f, bodyOf f p.blocks entry = some ⟨[], paramStmts 0 ls, .goto o.first⟩ := by
  have isClosed := drawn.closed
  rw [fillEntry] at made
  rw [guard_ok] at made
  obtain ⟨-, made⟩ := made
  rw [guard_ok] at made
  obtain ⟨fits, made⟩ := made
  obtain ⟨-, -, locals, bare⟩ := Registers.initial_spec isClosed
  obtain ⟨ls, stmts, length, written, reached, later, others, fills, fresh, plain⟩ :=
    defineParams_spec 0 (available - total (params.map paramWidth)) params
      ⟨isClosed, [], .start⟩ (bare entry).2
  obtain ⟨reached', later', written', filled, others'⟩ := reached.finishBlock order isClosed.entry_inside
  cases made
  refine ⟨Nat.le_of_not_gt fits, rfl, by simp [Progress.setBlock], reached', filled, fun c ne => ⟨?_, ?_⟩, ls, length, ?_,
    fun l mem => later'.plain l (plain l mem), ?_, fun f => ?_⟩
  · exact (others' c ne).trans ((fills c).trans (bare c).2)
  · exact (written' c).trans ((others c ne).trans (bare c).1)
  · rw [locals] at fresh
    exact fresh.mono later'.locals
  · rw [written', written, (bare entry).1, append_nil]
  · have inside : entry.index < (Array.replicate o.size (none : Option Block)).size := by
      simpa using isClosed.entry_inside
    refine (bodyOf_setIfInBounds inside).trans ?_
    simp only [Block.mapValues, stmts, paramStmts_mapValues]
    rfl

end Span

/-! ## Phis -/

/-- The phis that the tables kept for a block. -/
def phisOf (f : Registers) (b : BlockId) : List Phi :=
  f.merges.filterMap fun (dst, merge) =>
    if merge.block = b then some ⟨dst, merge.operands.map fun o => (o.1, f.resolve o.2)⟩ else none

lemma mem_phisOf (good : Good o [] f) {p} :
    p ∈ phisOf f b ↔ ∃ merge, f.merge? p.dst = some merge ∧ merge.block = b ∧
      p.operands = merge.operands.map fun o => (o.1, f.resolve o.2) := by
  simp only [phisOf, mem_filterMap, Prod.exists]
  constructor
  · rintro ⟨dst, merge, mem, made⟩
    split at made
    · rename_i here
      cases made
      exact ⟨merge, (lookup_eq_some_iff_mem good.distinct).2 mem, here, rfl⟩
    · cases made
  · rintro ⟨merge, made, here, operands⟩
    refine ⟨p.dst, merge, mem_of_lookup made, ?_⟩
    rw [if_pos here, ← operands]

lemma phisOf_entry (good : Good o [] f) : phisOf f entry = [] := by
  rw [eq_nil_iff_forall_not_mem]
  intro p mem
  obtain ⟨merge, made, here, -⟩ := (mem_phisOf good).1 mem
  exact (good.merged _ _ made).inner here

lemma placePhis_block? (s : Registers) (m : Ir.Method) (b : BlockId) : (placePhis s m).block? b =
      (m.block? b).map fun block => { block with phis := block.phis ++ phisOf s b } := by
  simp only [placePhis, phisOf]
  generalize s.merges = merges
  induction merges generalizing m with
  | nil =>
    rw [foldl_nil]
    cases m.block? b <;> simp
  | cons e merges ih =>
    obtain ⟨dst, merge⟩ := e
    rw [foldl_cons, ih, Ir.Method.block?_modifyBlock]
    by_cases here : merge.block = b
    · subst here
      cases m.block? merge.block <;> simp
    · have ne : b ≠ merge.block := fun h => here h.symm
      cases m.block? b <;> simp [here, ne]

lemma placePhis_rest (s : Registers) (m : Ir.Method) :
    (placePhis s m).layout = m.layout ∧ (placePhis s m).entry = m.entry ∧
      (placePhis s m).traps = m.traps ∧ (placePhis s m).locals = m.locals ∧
      (placePhis s m).blocks.size = m.blocks.size := by
  simp only [placePhis]
  generalize s.merges = merges
  induction merges generalizing m with
  | nil => exact ⟨rfl, rfl, rfl, rfl, rfl⟩
  | cons e merges ih =>
    obtain ⟨layout, entry, traps, locals, size⟩ := ih (m.modifyBlock e.2.block fun block =>
      { block with phis := block.phis ++ [⟨e.1, e.2.operands.map fun o => (o.1, s.resolve o.2)⟩] })
    exact ⟨layout, entry, traps, locals, size.trans (by simp [Ir.Method.modifyBlock])⟩

/-! ## Whole bodies -/

lemma closeAll_spec {s} (reached : Reached o s)
    (filled : ∀ b : BlockId, b.index < o.size → (s.table b).filled = true) (bs : List BlockId)
    (inside : ∀ b ∈ bs, b.index < o.size) : Reached o (bs.foldl (fun s b => s.close o b) s) ∧
      Settles s (bs.foldl (fun s b => s.close o b) s) ∧
      ∀ b ∈ bs, ((bs.foldl (fun s b => s.close o b) s).table b).closed = true := by
  induction bs generalizing s with
  | nil => exact ⟨reached, .refl s, by simp⟩
  | cons b bs ih =>
    obtain ⟨reached', settles, closed⟩ := reached.close (inside b mem_cons_self)
      fun p source => filled p (reached.closed.sources_inside b p source)
    obtain ⟨reached'', settles', all⟩ := ih reached'
      (fun c small => (settles.fills c).trans (filled c small))
      fun c mem => inside c (mem_cons_of_mem _ mem)
    refine ⟨reached'', settles.trans settles', fun c mem => ?_⟩
    rcases mem_cons.1 mem with rfl | later
    · exact settles'.closed c closed
    · exact all c later

/-- What a lifted method is. -/
structure Rendering (code : Code) (o : Outline) (f : Registers) (params : List String)
    (ls defs : List Local) (m : Ir.Method) : Prop where
  layout : m.layout = o.layout
  size : m.blocks.size = o.size
  entry : m.entry = entry
  traps : m.traps = o.traps
  locals : m.locals.size = f.locals
  reached : Reached o f
  finished : ∃ raw, (placePhis f raw).substitute f.replaced = m
  closed : ∀ b : BlockId, b.index < o.size → (f.table b).closed = true
  fits : total (params.map paramWidth) ≤ code.registers
  count : ls.length = params.length
  written : (f.table Lifting.entry).written =
    ((paramRegs (code.registers - total (params.map paramWidth)) params).zip ls).reverse
  start : m.block? Lifting.entry = some ⟨[], paramStmts 0 ls, .goto o.first⟩
  spans : ∃ result, RenderedAll o f (fun b => (m.block? b).map fun block => { block with phis := [] })
    o.spans none result defs
  phis : ∀ b block, m.block? b = some block → block.phis = phisOf f b
  fresh : Ascending 0 f.locals (ls ++ defs)
  plain : ∀ l ∈ ls ++ defs, f.Plain l

lemma Rendering.good {code params ls m}
    (rendering : Rendering code o f params ls defs m) : Good o [] f := rendering.reached.good

/-- The parameters of a method, the receiver first. -/
def parameters (method : Register.Method) (signature : Signature.MethodSig) : List String :=
  (if Access.Flags.has method.access Access.staticFlag then [] else [method.ref.owner]) ++
    signature.args.map (·.text)

lemma resolve_resolve_phis (good : Good o [] f) (b : BlockId) :
    (phisOf f b).map (Phi.mapValues f.resolve) = phisOf f b := by
  refine (map_congr_left fun p mem => ?_).trans (map_id _)
  obtain ⟨merge, -, -, operands⟩ := (mem_phisOf good).1 mem
  have same (v : Value) : f.resolve (f.resolve v) = f.resolve v := good.grounded.resolve_resolve v
  have : (p.operands.map fun o => (o.1, f.resolve o.2)) = p.operands := by
    rw [operands, map_map]
    exact map_congr_left fun o _ => by simp [same]
  rw [Phi.mapValues, this]
  rfl

lemma finished_block? (good : Good o [] f) {raw} (same : raw.blocks = blocks)
    {stmts} (body : bodyOf f blocks b = some ⟨[], stmts, t⟩) :
    ((placePhis f raw).substitute f.replaced).block? b = some ⟨phisOf f b, stmts, t⟩ := by
  rw [Ir.Method.block?_substitute, placePhis_block?, Ir.Method.block?, same]
  rw [bodyOf] at body
  cases at_ : (blocks[b.index]?).join with
  | none => rw [at_] at body; cases body
  | some block =>
    rw [at_] at body
    simp only [Option.map_some, Block.mapValues, Option.some.injEq, Block.mk.injEq, map_eq_nil_iff] at body
    obtain ⟨bare, rfl, rfl⟩ := body
    simp only [Option.map_some, bare]
    change some (Block.mk ((phisOf f b).map (Phi.mapValues f.resolve)) _ _) = _
    rw [resolve_resolve_phis good]
    rfl

lemma lift_rendering {method code m} (made : lift method code order = .ok m) :
    ∃ signature o ranges starts f ls defs, Signature.methodDescriptor method.ref.descriptor = .ok signature ∧
      Outline.ofCode code = .ok o ∧ Drawn code o ranges starts ∧
      Rendering code o f (parameters method signature) ls defs m := by
  obtain ⟨signature, parsed, made⟩ := bind_ok.1 made
  obtain ⟨o, outlined, made⟩ := bind_ok.1 made
  obtain ⟨p, entered, made⟩ := bind_ok.1 made
  obtain ⟨q, filled, made⟩ := bind_ok.1 made
  obtain ⟨ranges, starts, drawn⟩ := ofCode_drawn outlined
  obtain ⟨fits, result, size, reached, entryFilled, untouched, ls, count, fresh, plain, written,
    start⟩ := fillEntry_spec drawn entered
  have layout : o.layout = entry :: o.spans.flatMap Span.blocks := drawn.layout
  have nodup := drawn.layout_nodup
  rw [layout, nodup_cons] at nodup
  have inner (b : BlockId) (mem : b ∈ o.spans.flatMap Span.blocks) : b ≠ entry := by
    rintro rfl
    exact nodup.1 mem
  obtain ⟨defs, proceeds, fresh', plain', rendered⟩ := fillSpans_spec drawn (fun _ h => h) nodup.2
    filled size reached (fun l found => by rw [result] at found; cases found)
    fun b mem => untouched b (inner b mem)
  have allFilled (b : BlockId) (small : b.index < o.size) : (q.registers.table b).filled = true := by
    rw [← drawn.mem_layout, layout] at small
    rcases mem_cons.1 small with rfl | mem
    · exact proceeds.later.filled entry entryFilled
    · exact proceeds.done b mem
  obtain ⟨reached', settles, closed⟩ := closeAll_spec proceeds.reached allFilled o.layout
    fun b mem => drawn.mem_layout.1 mem
  generalize o.layout.foldl (fun s b => s.close o b) q.registers = f at reached' settles closed made
  have good' := reached'.good
  obtain ⟨raw, blocks, layout', entry', traps, locals, finished⟩ : ∃ raw : Ir.Method,
      raw.blocks = q.blocks ∧ raw.layout = o.layout ∧ raw.entry = entry ∧ raw.traps = o.traps ∧
        raw.locals.size = f.locals ∧ (placePhis f raw).substitute f.replaced = m :=
    ⟨_, rfl, rfl, rfl, rfl, by simp, Except.ok.inj made⟩
  subst finished
  have all := rendered f settles.toLater
  have first : bodyOf f q.blocks entry = some ⟨[], paramStmts 0 ls, .goto o.first⟩ :=
    (bodyOf_congr (proceeds.blocks _ nodup.1)).trans (start f)
  have made (b : BlockId) (small : b.index < o.size) :
      ∃ stmts t, bodyOf f q.blocks b = some ⟨[], stmts, t⟩ := by
    rw [← drawn.mem_layout, layout] at small
    rcases mem_cons.1 small with rfl | mem
    · exact ⟨_, _, first⟩
    · obtain ⟨span, inside, among⟩ := mem_flatMap.1 mem
      obtain ⟨_, _, _, _, r, -⟩ := all.span inside
      rcases mem_cons.1 among with rfl | landing
      · exact ⟨_, _, r.block⟩
      · obtain ⟨_, -, block, -⟩ := r.landing b (Option.mem_toList.1 landing)
        exact ⟨_, _, block⟩
  obtain ⟨placedLayout, placedEntry, placedTraps, placedLocals, placedSize⟩ := placePhis_rest f raw
  refine ⟨signature, o, ranges, starts, f, ls, defs, parsed, outlined, drawn, {
    layout := by rw [Ir.Method.substitute_layout, placedLayout, layout']
    size := by rw [Ir.Method.substitute_size, placedSize, blocks, proceeds.size, size]
    entry := by rw [Ir.Method.substitute_entry, placedEntry, entry']
    traps := by rw [Ir.Method.substitute_traps, placedTraps, traps]
    locals := by rw [Ir.Method.substitute_locals, placedLocals, locals]
    reached := reached'
    finished := ⟨raw, rfl⟩
    closed := fun b small => closed b (drawn.mem_layout.2 small)
    fits := fits
    count := count
    written := ?_
    start := ?_
    spans := ?_
    phis := ?_
    fresh := ?_
    plain := ?_ }⟩
  · rw [(proceeds.later.trans settles.toLater).written entry entryFilled]
    exact written
  · rw [finished_block? good' blocks first, phisOf_entry good']
  · refine ⟨q.result, result ▸ all.congr fun b stmts t body => ?_⟩
    rw [finished_block? good' blocks body]
    rfl
  · intro b block at_
    have small : b.index < o.size := by
      have inside := Ir.Method.index_lt_of_block? at_
      rw [Ir.Method.substitute_size, placedSize, blocks, proceeds.size, size] at inside
      exact inside
    obtain ⟨stmts, t, body⟩ := made b small
    rw [finished_block? good' blocks body] at at_
    cases at_
    rfl
  · exact (fresh.append fresh' (Nat.zero_le _) proceeds.later.locals).mono settles.locals
  · intro l mem
    rcases mem_append.1 mem with h | h
    · exact settles.plain l (proceeds.later.plain l (plain l h))
    · exact settles.plain l (plain' l h)

end Restack.Lifting
