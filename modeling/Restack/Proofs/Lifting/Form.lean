/-
# Lifted methods are in single assignment form

A register holds at the entry of a block a local that every path to the block
has passed, or that a phi of the block defines (`Rendering.ready`). A write that a path
leaves behind when it throws is one that its block left to the landing, so it does not
count. The result of a call is in no register, so no label to go to may stand at the
instruction that takes it up (`entersResult`).
-/
import Restack.Proofs.Lifting.Edges

namespace Restack.Lifting

open Register (Instruction Label Reg Code)
open Ir (BlockId Local Value Expr Stmt Terminator Block Phi defined)
open List Outcome
open Lookup

/-! ## Labels to go to -/

/-- The labels that instructions and clauses name as places to go to. -/
def jumpLabels (code : Code) : List Label :=
  code.instructions.flatMap (·.targets) ++ code.tries.flatMap fun t => t.clauses.map (·.handler)

/-- Whether a label to go to marks an instruction that takes up a result. -/
def entersResult (code : Code) : Bool :=
  (jumpLabels code).any fun label =>
    ((separate code.instructions 0).2.lookup label).any fun pos =>
      match (separate code.instructions 0).1[pos]? with
      | some (.moveResult ..) => true
      | _ => false

variable {is : List Instruction} {l : Local} {A passed : List Local} {before : List Stmt} {s : Stmt}
  {p b t : BlockId} {block block' : Block}

lemma separate_mem {pos i} (mem : i ∈ (separate is pos).1) : i ∈ is := by
  fun_induction separate is pos with
  | case1 => cases mem
  | case2 pos label rest kept labels eq ih =>
    exact mem_cons_of_mem _ (ih (by rw [eq]; exact mem))
  | case3 pos rest ih => exact mem_cons_of_mem _ (ih mem)
  | case4 pos i' rest h1 h2 kept labels eq ih =>
    rcases mem_cons.1 mem with rfl | later
    · exact mem_cons_self
    · exact mem_cons_of_mem _ (ih (by rw [eq]; exact later))

/-! ## Locals that lines read -/

/-- The operands of what is done. -/
def Action.values : Action → List Value
  | .define _ e | .call e => e.values
  | .perform s => s.values
  | .finish t => t.values
  | .skip | .takeResult _ => []

variable {o : Outline}

lemma Does.values {stop i vs a} (does : Does o stop i vs a) (reads : .var l ∈ a.values) : .var l ∈ vs := by
  cases does <;> simp_all [Action.values, Expr.values, Stmt.values, Terminator.values, Value.literal]

section Lines

variable {span : Span} {known : Reg → Option Value} {pos : Nat} {last : Bool} {i : Instruction}
  {writes writes' : List (Reg × Local)} {result result' : Option Local} {filling : Filling}

/-- The locals that hold registers and the result of a call are among some locals. -/
structure Among (A : List Local) (known : Reg → Option Value) (writes : List (Reg × Local))
    (result : Option Local) : Prop where
  known : ∀ r l, known r = some (.var l) → l ∈ A
  written : ∀ r l, (r, l) ∈ writes → l ∈ A
  result : ∀ l, result = some l → l ∈ A

lemma Among.read (among : Among A known writes result) {regs vs}
    (values : Holds (after known writes) regs vs) (read : .var l ∈ vs) : l ∈ A := by
  obtain ⟨r, -, held⟩ := Lists.forall₂_mem_right values read
  rw [after] at held
  split at held
  · rename_i k found
    cases held
    exact among.written r l (mem_of_lookup found)
  · exact among.known r l held

lemma Among.mono {B} (among : Among A known writes result) (sub : ∀ l ∈ A, l ∈ B) :
    Among B known writes result :=
  ⟨fun r l held => sub l (among.known r l held), fun r l held => sub l (among.written r l held),
    fun l held => sub l (among.result l held)⟩

lemma Among.write (among : Among A known writes result) {dest} (new : l ∈ A) :
    Among A known ((dest, l) :: writes) none := by
  refine ⟨among.known, fun r k mem => ?_, fun k held => by cases held⟩
  rcases mem_cons.1 mem with same | older
  · cases same
    exact new
  · exact among.written r k older

lemma Among.keep (among : Among A known writes result) (new : ∀ l, result' = some l → l ∈ A) :
    Among A known writes result' :=
  ⟨among.known, among.written, new⟩

/-- What one instruction becomes reads locals that are there, and adds those it
defines. -/
lemma Line.among {head} (line : Line o span known pos last i writes result head writes' result')
    (among : Among A known writes result) : (∀ s ∈ head.stmts, ∀ l, .var l ∈ s.values → l ∈ A) ∧
      (∀ t, head.terminator = some t → ∀ l, .var l ∈ t.values → l ∈ A) ∧
      Among (defined head.stmts ++ A) known writes' result' := by
  have grown {B : List Local} : Among (B ++ A) known writes result :=
    among.mono fun l mem => mem_append_right B mem
  have reads {regs : List Reg} {vs : List Value} {a : Action} {s : Stmt} (values : Holds (after known writes) regs vs)
      (does : Does o span.stop i vs a) (same : s.values = a.values) :
      ∀ s' ∈ [s], ∀ l, .var l ∈ s'.values → l ∈ A := by
    intro s' mem l read
    rw [mem_singleton.1 mem, same] at read
    exact among.read values (does.values read)
  cases line with
  | define read values does =>
    exact ⟨reads values does rfl, by simp, grown.write (by simp [defined, Stmt.def?])⟩
  | defer read values does | drop read values does | perform read values does =>
    exact ⟨reads values does rfl, by simp, grown.keep (by simp)⟩
  | keep read values does =>
    refine ⟨reads values does rfl, by simp, grown.keep fun l same => ?_⟩
    cases same
    simp [defined, Stmt.def?]
  | take read values does =>
    exact ⟨by simp [Filling.empty], by simp [Filling.empty],
      grown.write (mem_append_right _ (among.result _ rfl))⟩
  | finish read values does =>
    refine ⟨by simp, fun t same l read => ?_, grown.keep (by simp)⟩
    cases same
    exact among.read values (does.values read)

lemma split_append {first second rest} (split : first ++ second = before ++ s :: rest) :
    (∃ later, first = before ++ s :: later) ∨
      ∃ between, before = first ++ between ∧ second = between ++ s :: rest := by
  rcases append_eq_append_iff.1 split with ⟨between, rfl, behind⟩ | ⟨later, front, behind⟩
  · exact .inr ⟨between, rfl, behind⟩
  · cases later with
    | nil => exact .inr ⟨[], by simpa using front.symm, behind.symm⟩
    | cons s' later =>
      cases behind
      exact .inl ⟨later, front⟩

lemma Lines.among (lines : Lines o span known pos is writes result filling writes' result')
    (among : Among A known writes result) :
    (∀ before s rest, filling.stmts = before ++ s :: rest → ∀ l, .var l ∈ s.values →
        l ∈ defined before ++ A) ∧
      (∀ t, filling.terminator = some t → ∀ l, .var l ∈ t.values → l ∈ defined filling.stmts ++ A) ∧
      Among (defined filling.stmts ++ A) known writes' result' := by
  induction lines generalizing A with
  | nil => exact ⟨by simp [Filling.empty], by simp [Filling.empty], among⟩
  | @cons pos i rest writes result head writes' result' tail writes'' result'' first later ih =>
    obtain ⟨reads, ends, among'⟩ := first.among among
    obtain ⟨reads', ends', among''⟩ := ih among'
    simp only [Filling.append]
    refine ⟨fun before s rest split l read => ?_, fun t same l read => ?_, ?_⟩
    · rcases split_append split with ⟨later, front⟩ | ⟨between, rfl, behind⟩
      · exact mem_append_right _ (reads s (by simp [front]) l read)
      · have := reads' between s rest behind l read
        simpa [mem_append, or_assoc, or_left_comm] using this
    · cases own : tail.terminator with
      | some t' =>
        rw [own] at same
        cases same
        have := ends' t own l read
        simpa [mem_append, or_assoc, or_left_comm] using this
      | none =>
        rw [own] at same
        exact mem_append_right _ (ends t same l read)
    · refine among''.mono fun l mem => ?_
      simpa [mem_append, or_assoc, or_left_comm] using mem

lemma Lines.deferred_defined (lines : Lines o span known pos is writes result filling writes' result') {r}
    (deferred : filling.deferred = some (r, l)) : l ∈ defined filling.stmts := by
  induction lines with
  | nil => cases deferred
  | @cons _ _ _ _ _ head _ _ tail _ _ first later ih =>
    simp only [Filling.append, Ir.defined_append] at deferred ⊢
    cases own : tail.deferred with
    | some d =>
      rw [own] at deferred
      cases deferred
      exact mem_append_right _ (ih own)
    | none =>
      rw [own] at deferred
      cases first <;> cases deferred
      exact mem_append_left _ (by simp [defined, Stmt.def?])

lemma Line.written_before {head} (line : Line o span known pos true i writes result head writes' result')
    (lands : ∀ dest, throwingDest? i = some dest → span.landing.isSome = true)
    (mem : s ∈ head.stmts) (throwing : s.canThrow = true) : writes' = writes := by
  cases line with
  | define read values does here =>
    rw [mem_singleton.1 mem] at throwing
    have dest := (does.throwingDest _).2 ⟨does.throws_eq.trans throwing, _, rfl⟩
    rw [lands _ dest] at here
    cases here
  | take => cases mem
  | finish => cases mem
  | _ => rfl

/-- Where the last instruction alone may throw and leaves its write to a landing,
what was written in the block was there before it. -/
lemma Lines.written_before {init}
    (lines : Lines o span known pos (init ++ [i]) writes result filling writes' result')
    (among : Among A known writes result) (calm : ∀ j ∈ init, j.isBranch = false ∧ throws j = false)
    (lands : ∀ dest, throwingDest? i = some dest → span.landing.isSome = true) {rest}
    (split : filling.stmts = before ++ s :: rest) (throwing : s.canThrow = true) :
    ∀ r l, (r, l) ∈ writes' → l ∈ defined before ++ A := by
  induction init generalizing pos writes result filling before A with
  | nil =>
    cases lines with
    | @cons _ _ _ _ _ head _ _ _ _ _ first later =>
      cases later
      have mem : s ∈ head.stmts := by
        have : s ∈ (head.append .empty).stmts := split ▸ by simp
        simpa [Filling.append, Filling.empty] using this
      intro r l written
      rw [first.written_before lands mem throwing] at written
      exact mem_append_right _ (among.written r l written)
  | cons j init ih =>
    cases lines with
    | @cons _ _ _ _ _ head _ _ tail _ _ first later =>
      have notLast : (init ++ [i]).isEmpty = false := by cases init <;> rfl
      obtain ⟨straight, quiet⟩ := calm j mem_cons_self
      have calm₀ := ((notLast ▸ first).inner straight).2.2 quiet
      rcases split_append split with ⟨later, front⟩ | ⟨between, rfl, behind⟩
      · rw [calm₀ s (by simp [front])] at throwing
        cases throwing
      · intro r l written
        have := ih later (first.among among).2.2
          (fun k mem => calm k (mem_cons_of_mem _ mem)) behind r l written
        simpa [Ir.defined_append, mem_append, or_assoc, or_left_comm] using this

end Lines

/-! ## Paths -/

section Rendering

variable {code : Code} {ranges : List (Nat × Nat)} {starts : List Nat}
  (drawn : Drawn code o ranges starts)

include drawn

lemma Drawn.span_eq_of_stop {span span'} (mem : span ∈ o.spans) (mem' : span' ∈ o.spans)
    (same : span.stop = span'.stop) : span = span' := by
  have tile := drawn.tile mem
  have tile' := drawn.tile mem'
  have := tile.proper
  have := tile'.proper
  refine drawn.span_eq_of_start mem mem' ?_
  rcases Nat.lt_trichotomy span.start span'.start with less | equal | more
  · exact absurd tile'.begins (tile.between _ less (by omega))
  · exact equal
  · exact absurd tile.begins (tile'.between _ more (by omega))

lemma Drawn.takesResult_label (follow : entersResult code = false) {label}
    (named : label ∈ jumpLabels code) {pos} (at_ : position o.labels label = .ok pos) :
    takesResult o pos = false := by
  have found : o.labels.lookup label = some pos := by
    rw [position] at at_
    split at at_
    · cases at_
      assumption
    · simp at at_
  rw [entersResult, any_eq_false] at follow
  have absent := follow label named
  simp only [drawn.separated, found, Array.getElem?_toList] at absent
  exact Bool.eq_false_iff.2 absent

lemma Drawn.blockOf_result (follow : entersResult code = false) {label}
    (named : label ∈ jumpLabels code) {span} (mem : span ∈ o.spans)
    (takes : takesResult o span.start = true) : o.blockOf label ≠ .ok span.id := by
  intro found
  obtain ⟨span', mem', at_, same⟩ := drawn.blockOf_ok.1 found
  rw [drawn.span_eq_of_id mem' mem same] at at_
  rw [drawn.takesResult_label follow named at_] at takes
  cases takes

variable {f : Registers} {params : List String} {ls defs : List Local}
  {m : Ir.Method} (rendering : Rendering code o f params ls defs m)

include rendering

/-- Control comes to a block that no label to go to marks from the end of a span. -/
lemma Rendering.leaves_unnamed (unnamed : ∀ label ∈ jumpLabels code, o.blockOf label ≠ .ok b)
    (here : m.block? p = some block) (leaves : m.Leaves p block before b) :
    before = block.stmts ∧ (b = ⟨1⟩ ∨ ∃ span ∈ o.spans, p = span.id ∧ span.landing = some b ∨
      o.blockAt span.stop = .ok b ∧ (span.landing = none → p = span.id)) := by
  have uncaught (caught : b ∈ m.exceptionalSuccessors p) : False := by
    obtain ⟨-, trap, made, -, h, handler, target⟩ := (Ir.Method.mem_exceptionalSuccessors here).1 caught
    obtain ⟨t, guards, c, clause, -, found⟩ := drawn.received (rendering.traps ▸ made) handler
    refine unnamed _ ?_ (target ▸ found)
    exact mem_append_right _ (mem_flatMap.2 ⟨t, guards, mem_map.2 ⟨c, clause, rfl⟩⟩)
  cases leaves with
  | raise _ _ caught | throw _ caught => exact (uncaught caught).elim
  | jump leads =>
    refine ⟨rfl, ?_⟩
    rcases (rendering.jumps drawn here).1 leads with ⟨-, first⟩ | ⟨span, mem, last, at_, edge⟩
    · exact .inl first
    · refine .inr ⟨span, mem, ?_⟩
      cases edge with
      | jump named found =>
        refine absurd found (unnamed _ (mem_append_left _ (mem_flatMap.2 ⟨last, ?_, named⟩)))
        have among : last ∈ (separate code.instructions 0).1 := by
          rw [drawn.separated]
          exact Array.mem_toList_iff.2 (Array.mem_of_getElem? at_)
        exact separate_mem among
      | land _ landing => exact .inl ⟨rfl, landing⟩
      | leave _ landing next => exact .inr ⟨next, fun straight => by simp [straight] at landing⟩
      | fall _ _ next => exact .inr ⟨next, fun _ => rfl⟩

/-- Control comes to an instruction that takes up a result from the end of the
span in front of it. -/
lemma Rendering.leaves_to_result (follow : entersResult code = false) {span prev}
    (mem : span ∈ o.spans) (takes : takesResult o span.start = true) (among : prev ∈ o.spans)
    (stop : prev.stop = span.start) (straight : prev.landing = none)
    (here : m.block? p = some block) (leaves : m.Leaves p block before span.id) :
    p = prev.id ∧ before = block.stmts := by
  obtain ⟨whole, first | ⟨span', mem', ⟨-, landing⟩ | ⟨next, ends⟩⟩⟩ := rendering.leaves_unnamed drawn
    (fun _ named => drawn.blockOf_result follow named mem takes) here leaves
  · obtain ⟨head, rest, spans, start, id⟩ := drawn.first_span
    have same := drawn.span_eq_of_id mem (spans ▸ mem_cons_self) (first.trans id.symm)
    have := (drawn.tile among).proper
    rw [same] at stop
    omega
  · have := drawn.span_unique mem' mem (by simp [landing]) mem_cons_self
    exact absurd rfl (drawn.id_ne_landing mem (this ▸ landing))
  · obtain ⟨span'', mem'', start, same⟩ := drawn.blockAt_ok.1 next
    rw [drawn.span_eq_of_id mem'' mem same] at start
    obtain rfl := drawn.span_eq_of_stop mem' among (start.symm.trans stop.symm)
    exact ⟨ends straight, whole⟩

/-- Control comes to a landing from the end of its span. -/
lemma Rendering.leaves_to_landing {span} (mem : span ∈ o.spans)
    (landing : span.landing = some b) (here : m.block? p = some block)
    (leaves : m.Leaves p block before b) : p = span.id ∧ before = block.stmts := by
  -- targets that labels and positions give are blocks of spans
  have other {span' : Span} (mem' : span' ∈ o.spans) : span'.id ≠ b := by
    rintro rfl
    have := drawn.span_unique mem mem' (by simp [landing]) mem_cons_self
    exact drawn.id_ne_landing mem landing (this ▸ rfl)
  have unnamed (label : Label) (_ : label ∈ jumpLabels code) : o.blockOf label ≠ .ok b := fun found =>
    have ⟨_, mem', _, same⟩ := drawn.blockOf_ok.1 found
    other mem' same
  obtain ⟨whole, rfl | ⟨span', mem', ⟨rfl, landing'⟩ | ⟨next, -⟩⟩⟩ :=
    rendering.leaves_unnamed drawn unnamed here leaves
  · obtain ⟨head, rest, spans, -, id⟩ := drawn.first_span
    exact absurd id (other (spans ▸ mem_cons_self))
  · rw [drawn.span_unique (b := b) mem' mem (by simp [landing']) (by simp [landing])]
    exact ⟨rfl, whole⟩
  · obtain ⟨span'', mem'', -, same⟩ := drawn.blockAt_ok.1 next
    exact absurd same (other mem'')

/-! ## Values of registers on paths -/

omit rendering in
lemma Rendered.leaves_result {body : BlockId → Option Block} {span : Span}
    (mem : span ∈ o.spans) {before : Option Local} {filling : Filling} {t : Terminator}
    (rendered : Rendered o f body span before filling t (some l)) :
    l ∈ defined filling.stmts ∧ takesResult o span.stop = true ∧ span.landing = none := by
  obtain ⟨last, at_⟩ := drawn.exists_last mem
  obtain ⟨init, instructions, straight, -⟩ := drawn.straight_init mem at_
  obtain ⟨first, head, _, _, stmts, -, -, line⟩ := (instructions ▸ rendered.lines).split_last straight
  have length : span.start + init.length + 1 = span.stop := by
    have := congrArg length instructions
    have tile := drawn.tile mem
    have := tile.inside
    simp [Outline.spanInstructions] at *
    omega
  generalize (f.table span.id).written = writes at line
  cases line with
  | keep _ _ does taken =>
    refine ⟨?_, length ▸ taken, drawn.landing_of_action mem at_ does (by simp)⟩
    rw [stmts, Ir.defined_append]
    exact mem_append_right _ (by simp [defined, Stmt.def?])

lemma Rendering.span_among (follow : entersResult code = false) {span}
    (mem : span ∈ o.spans) (entered : m.Enters span.id passed)
    (ready : ∀ r l, f.known span.id r = some (.var l) → l ∈ passed) (here : m.block? span.id = some block) :
    ∃ before filling t behind, block = ⟨phisOf f span.id, filling.stmts, t⟩ ∧
      Rendered o f (fun b => (m.block? b).map fun block => { block with phis := [] }) span before
        filling t behind ∧ Among passed (f.known span.id) [] before := by
  obtain ⟨result, all⟩ := rendering.spans
  obtain ⟨before, filling, t, behind, rendered, from_⟩ := all.handed drawn.spans_chain mem
  cases here.symm.trans (rendering.block_of_body rendered.block)
  refine ⟨before, filling, t, behind, rfl, rendered, ready, by simp, fun l same => ?_⟩
  subst same
  rcases from_ with ⟨-, absurd_⟩ | ⟨prev, among, stop, _, filling', t', rendered'⟩
  · cases absurd_
  · obtain ⟨made, takes, straight⟩ := rendered'.leaves_result drawn among
    have inner : span.id ≠ m.entry := by
      rw [rendering.entry]
      exact (drawn.span_inner mem mem_cons_self).1
    refine entered.passes inner (rendering.block_of_body rendered'.block) ?_ l made
    intro p block before here leaves
    exact rendering.leaves_to_result drawn follow mem (stop ▸ takes) among stop.symm straight here
      leaves

section Leaving

variable (follow : entersResult code = false) (entered : m.Enters b passed)
  (ready : ∀ r l, f.known b r = some (.var l) → l ∈ passed) (here : m.block? b = some block)
  (leaves : m.Leaves b block before t)

include follow entered ready here leaves

/-- What a block wrote by the time that control leaves it. -/
lemma Rendering.written_passed : ∀ r l, (r, l) ∈ (f.table b).written → l ∈ defined before ++ passed := by
  intro r l written
  rcases rendering.block_cases drawn here with ⟨rfl, rfl⟩ | ⟨span, mem, rfl⟩ |
      ⟨span, mem, landing, -⟩
  · rw [rendering.written, mem_reverse] at written
    cases leaves with
    | jump => exact mem_append_left _ (by rw [defined_paramStmts]; exact (of_mem_zip written).2)
    | raise split throws =>
      have among : _ ∈ paramStmts 0 ls := split ▸ mem_append_right _ mem_cons_self
      obtain ⟨_, -, rfl⟩ := mem_map.1 among
      cases throws
    | throw throws => cases throws
  · obtain ⟨_, filling, t', _, rfl, rendered, among⟩ :=
      rendering.span_among drawn follow mem entered ready here
    have whole := (rendered.lines.among among).2.2.written r l written
    cases leaves with
    | jump => exact whole
    | throw => exact whole
    | raise split throws caught =>
      obtain ⟨-, trap, made, covers, -⟩ := (Ir.Method.mem_exceptionalSuccessors here).1 caught
      obtain ⟨span', mem', same, last, at_, throwing, guarded⟩ :=
        drawn.covered_last (rendering.traps ▸ made) covers
      obtain rfl := drawn.span_eq_of_id mem' mem same
      obtain ⟨init, instructions, straight, quiet⟩ := drawn.straight_init mem at_
      have lands (dest : Reg) (writes : throwingDest? last = some dest) :
          span'.landing.isSome = true := by
        rw [drawn.landing_isSome mem, needsLanding, at_]
        simp [writes, guarded]
      exact (instructions ▸ rendered.lines).written_before among
        (fun j h => ⟨straight j h, quiet guarded j h⟩) lands split throws r l written
  · obtain ⟨result, all⟩ := rendering.spans
    obtain ⟨_, filling, t', _, rendered, -⟩ := all.span mem
    obtain ⟨_, -, -, deferred⟩ := rendered.landing b landing
    rw [deferred, Option.mem_toList] at written
    have inner : b ≠ m.entry := by
      rw [rendering.entry]
      exact (drawn.span_inner mem (by simp [landing])).1
    refine mem_append_right _ ?_
    refine entered.passes inner (rendering.block_of_body rendered.block) ?_ l
      (rendered.lines.deferred_defined written)
    intro p block before here leaves
    exact rendering.leaves_to_landing drawn mem landing here leaves

lemma Rendering.exit_passed {r v} (exit : f.exit? b r = some v)
    (held : f.resolve v = .var l) : l ∈ defined before ++ passed := by
  cases written : (f.table b).written.lookup r with
  | some k =>
    rw [Registers.exit?_of_written written] at exit
    cases exit
    have mem := mem_of_lookup written
    have plain := rendering.good.plain b r k mem
    rw [Registers.resolve, Ir.Substitution.resolve_of_lookup_none plain.unreplaced] at held
    cases held
    exact rendering.written_passed drawn follow entered ready here leaves r l mem
  | none =>
    rw [Registers.exit?_of_unwritten written] at exit
    exact mem_append_right _ (ready r l (by rw [Registers.known, exit, Option.map_some, held]))

end Leaving

/-- What registers hold at the entry of a block, every path to it has passed. -/
lemma Rendering.ready (follow : entersResult code = false) (entered : m.Enters b passed) :
    ∀ r l, f.known b r = some (.var l) → l ∈ passed := by
  induction entered with
  | start =>
    intro r l held
    obtain ⟨v, found, same⟩ := Option.map_eq_some_iff.1 held
    rw [rendering.entry] at found
    cases rendering.good.entered _ r v found with
    | phi made here => exact absurd here (rendering.good.merged _ _ made).inner
    | passed inner => exact absurd rfl inner
    | unset _ resolved =>
      rw [resolved] at same
      cases same
  | @next p t passed block target before entered here leaves there ih =>
    intro r l held
    obtain ⟨v, found, same⟩ := Option.map_eq_some_iff.1 held
    cases rendering.good.entered t r v found with
    | @phi φ merge made block_ _ resolved =>
      rw [resolved] at same
      cases same
      refine mem_append_left _ ?_
      rw [rendering.phis t target there]
      exact mem_map.2 ⟨⟨l, _⟩, (mem_phisOf rendering.good).2 ⟨merge, made, block_, rfl⟩, rfl⟩
    | passed inner closed agree =>
      have edge := (rendering.edge_iff drawn).1 (leaves.edge here)
      have source := drawn.mem_sourcesOf.2 ⟨(drawn.target_inner edge).2, edge⟩
      obtain ⟨w, exit, agrees⟩ := agree p source
      exact mem_append_right _
        (rendering.exit_passed drawn follow entered ih here leaves exit (agrees.trans same))
    | unset _ resolved =>
      rw [resolved] at same
      cases same

/-! ## Definitions and operands -/

omit drawn in
lemma Rendering.phi_sources {p : Phi} (here : m.block? b = some block) (merged : p ∈ block.phis) :
    p.operands.map (·.1) = o.sourcesOf b := by
  rw [rendering.phis b block here] at merged
  obtain ⟨merge, made, rfl, operands⟩ := (mem_phisOf rendering.good).1 merged
  have keys : p.operands.map (·.1) = merge.operands.map (·.1) := by
    rw [operands, map_map]
    rfl
  rw [keys]
  exact rendering.reached.sources rendering.closed made

omit drawn rendering in
lemma RenderedAll.apart {body : BlockId → Option Block} {spans : List Span}
    {result result' : Option Local} {defs : List Local}
    (all : RenderedAll o f body spans result result' defs) (distinct : defs.Nodup)
    {span span' : Span} (mem : span ∈ spans) (mem' : span' ∈ spans)
    (here : body span.id = some block) (there : body span'.id = some block')
    (one : l ∈ defined block.stmts) (other : l ∈ defined block'.stmts) : span = span' := by
  induction all with
  | nil => cases mem
  | @cons head rest _ filling _ _ _ defs first later ih =>
    obtain ⟨-, distinct, apart⟩ := nodup_append.1 distinct
    have among {span : Span} {block : Block} (mem : span ∈ rest)
        (here : body span.id = some block) (one : l ∈ defined block.stmts) : l ∈ defs := by
      obtain ⟨_, _, _, _, rendered, sub⟩ := later.span mem
      rw [rendered.block] at here
      cases here
      exact sub.subset one
    have own {block : Block} (here : body head.id = some block) (one : l ∈ defined block.stmts) :
        l ∈ defined filling.stmts := by
      rw [first.block] at here
      cases here
      exact one
    rcases mem_cons.1 mem with rfl | within <;> rcases mem_cons.1 mem' with rfl | within'
    · rfl
    · exact absurd rfl (apart l (own here one) l (among within' there other))
    · exact absurd rfl (apart l (own there other) l (among within here one))
    · exact ih distinct within within'

lemma Rendering.defined_sublist (here : m.block? b = some block) :
    (b = Lifting.entry ∧ defined block.stmts = ls) ∨
      ((∃ span ∈ o.spans, b = span.id) ∧ (defined block.stmts).Sublist defs) ∨ defined block.stmts = [] := by
  rcases rendering.block_cases drawn here with ⟨rfl, rfl⟩ | ⟨span, mem, rfl⟩ | ⟨-, -, -, _, -, rfl⟩
  · exact .inl ⟨rfl, defined_paramStmts 0 ls⟩
  · obtain ⟨result, all⟩ := rendering.spans
    obtain ⟨_, _, _, _, rendered, sub⟩ := all.span mem
    rw [rendering.block_of_body rendered.block] at here
    cases here
    exact .inr (.inl ⟨⟨span, mem, rfl⟩, sub⟩)
  · exact .inr (.inr rfl)

lemma Rendering.defined_mem (here : m.block? b = some block) (mem : l ∈ defined block.stmts) :
    l ∈ ls ++ defs := by
  rcases rendering.defined_sublist drawn here with ⟨-, same⟩ | ⟨-, sub⟩ | bare
  · exact mem_append_left _ (same ▸ mem)
  · exact mem_append_right _ (sub.subset mem)
  · rw [bare] at mem
    cases mem

omit drawn in
lemma Rendering.fresh_nodup : (ls ++ defs).Nodup := by
  have ordered := rendering.fresh.ordered
  rw [pairwise_map] at ordered
  exact ordered.imp fun less same => Nat.ne_of_lt less (congrArg _ same)

omit drawn in
lemma Rendering.merge_of_dst (here : m.block? b = some block)
    (mem : l ∈ block.phis.map (·.dst)) : ∃ merge, f.merge? l = some merge ∧ merge.block = b := by
  obtain ⟨p, among, rfl⟩ := mem_map.1 mem
  rw [rendering.phis b block here] at among
  obtain ⟨merge, made, block_, -⟩ := (mem_phisOf rendering.good).1 among
  exact ⟨merge, made, block_⟩

lemma Rendering.phi_apart {c} (here : m.block? b = some block)
    (there : m.block? c = some block') (phi : l ∈ block.phis.map (·.dst))
    (stmt : l ∈ defined block'.stmts) : False := by
  obtain ⟨merge, made, -⟩ := rendering.merge_of_dst here phi
  have plain := rendering.plain l (rendering.defined_mem drawn there stmt)
  rw [plain.unmerged] at made
  cases made

lemma Rendering.block_defs_nodup (here : m.block? b = some block) : block.defs.Nodup := by
  refine nodup_append.2 ⟨?_, ?_, fun l phi l' stmt same => ?_⟩
  · have sub : ((phisOf f b).map (·.dst)).Sublist (f.merges.map (·.1)) := by
      rw [phisOf]
      generalize f.merges = merges
      induction merges with
      | nil => exact .slnil
      | cons e merges ih =>
        rw [filterMap_cons]
        by_cases mine : e.2.block = b
        · simp only [mine]
          exact ih.cons_cons e.1
        · simp only [mine]
          exact ih.cons e.1
    rw [rendering.phis b block here]
    exact rendering.good.distinct.sublist sub
  · have distinct := rendering.fresh_nodup
    rcases rendering.defined_sublist drawn here with ⟨-, same⟩ | ⟨-, sub⟩ | bare
    · exact same ▸ (nodup_append.1 distinct).1
    · exact (nodup_append.1 distinct).2.1.sublist sub
    · rw [bare]
      exact nodup_nil
  · subst same
    exact rendering.phi_apart drawn here here phi stmt

lemma Rendering.defs_apart {c} (here : m.block? b = some block)
    (there : m.block? c = some block') (one : l ∈ block.defs) (other : l ∈ block'.defs) : b = c := by
  rcases mem_append.1 one with phi | stmt <;> rcases mem_append.1 other with phi' | stmt'
  · obtain ⟨merge, made, rfl⟩ := rendering.merge_of_dst here phi
    obtain ⟨merge', made', rfl⟩ := rendering.merge_of_dst there phi'
    rw [made] at made'
    cases made'
    rfl
  · exact (rendering.phi_apart drawn here there phi stmt').elim
  · exact (rendering.phi_apart drawn there here phi' stmt).elim
  · obtain ⟨-, distinct, apart⟩ := nodup_append.1 rendering.fresh_nodup
    rcases rendering.defined_sublist drawn here with ⟨rfl, same⟩ | ⟨⟨span, mem, rfl⟩, sub⟩ | bare <;>
      rcases rendering.defined_sublist drawn there with ⟨rfl, same'⟩ | ⟨⟨span', mem', rfl⟩, sub'⟩ |
        bare'
    · rfl
    · exact absurd rfl (apart l (same ▸ stmt) l (sub'.subset stmt'))
    · simp [bare'] at stmt'
    · exact absurd rfl (apart l (same' ▸ stmt') l (sub.subset stmt))
    · obtain ⟨result, all⟩ := rendering.spans
      have bare {span : Span} {block : Block} (here : m.block? span.id = some block) :
          (m.block? span.id).map (fun block => { block with phis := [] }) =
            some { block with phis := [] } := by
        rw [here]
        rfl
      rw [all.apart distinct mem mem' (bare here) (bare there) stmt stmt']
    · simp [bare'] at stmt'
    · simp [bare] at stmt
    · simp [bare] at stmt
    · simp [bare] at stmt

/-- What an operand reads, every path to it has passed. -/
lemma Rendering.reads_passed (follow : entersResult code = false) (entered : m.Enters b passed)
    (here : m.block? b = some block) (reads : m.Reads b block before (.var l)) :
    l ∈ defined before ++ passed := by
  have ready := rendering.ready drawn follow entered
  cases reads with
  | phi leaves there merged operand =>
    rw [rendering.phis _ _ there] at merged
    obtain ⟨merge, made, -, operands⟩ := (mem_phisOf rendering.good).1 merged
    rw [operands] at operand
    obtain ⟨⟨p, w⟩, among, same⟩ := mem_map.1 operand
    simp only [Prod.mk.injEq] at same
    obtain ⟨rfl, held⟩ := same
    obtain ⟨-, -, x, exit, agrees⟩ := (rendering.good.merged _ _ made).operands p w among
    exact rendering.exit_passed drawn follow entered ready here leaves exit (agrees.trans held)
  | stmt split operand =>
    rcases rendering.block_cases drawn here with ⟨rfl, rfl⟩ | ⟨span, mem, rfl⟩ |
        ⟨-, -, -, _, -, rfl⟩
    · have among : _ ∈ paramStmts 0 ls := split ▸ mem_append_right _ mem_cons_self
      obtain ⟨_, -, rfl⟩ := mem_map.1 among
      cases operand
    · obtain ⟨_, filling, _, _, rfl, rendered, among⟩ :=
        rendering.span_among drawn follow mem entered ready here
      exact (rendered.lines.among among).1 _ _ _ split l operand
    · simp at split
  | terminator operand =>
    rcases rendering.block_cases drawn here with ⟨rfl, rfl⟩ | ⟨span, mem, rfl⟩ |
        ⟨-, -, -, _, -, rfl⟩
    · cases operand
    · obtain ⟨_, filling, t, _, rfl, rendered, among⟩ :=
        rendering.span_among drawn follow mem entered ready here
      have ends := rendered.ends
      generalize own : filling.terminator = own' at ends
      cases ends with
      | own => exact (rendered.lines.among among).2.1 t own l operand
      | land | fall => cases operand
    · cases operand

lemma Rendering.edge_found (leads : m.Edge p t) : (m.block? t).isSome = true := by
  obtain ⟨block, here⟩ := rendering.block_exists drawn
    (drawn.target_inner ((rendering.edge_iff drawn).1 leads)).2
  rw [here]
  rfl

lemma Rendering.linked : m.Linked where
  layout_nodup := rendering.layout ▸ drawn.layout_nodup
  mem_layout b := by
    rw [rendering.layout, drawn.mem_layout]
    constructor
    · intro small
      obtain ⟨block, here⟩ := rendering.block_exists drawn small
      rw [here]
      rfl
    · intro found
      obtain ⟨block, here⟩ := Option.isSome_iff_exists.1 found
      exact rendering.size ▸ Ir.Method.index_lt_of_block? here
  targets _ block _ here leads := rendering.edge_found drawn ⟨block, here, .inl leads⟩

lemma Rendering.sound (follow : entersResult code = false) : m.Sound := by
  have linked := rendering.linked drawn
  refine {
    layout_nodup := linked.layout_nodup
    mem_layout := linked.mem_layout
    entry := by rw [rendering.entry, rendering.start]; rfl
    edges := fun p t leads => rendering.edge_found drawn leads
    block_defs := fun b block here => rendering.block_defs_nodup drawn here
    defs_apart := fun b c block block' l here there one other =>
      rendering.defs_apart drawn here there one other
    bound := fun b block l here mem => ?_
    phis_nodup := fun b block p here merged => ?_
    phis_cover := fun b block p q here merged leads => ?_
    uses := fun b passed block before l entered here reads =>
      rendering.reads_passed drawn follow entered here reads
    handlers := fun trap mem h handler => ?_
    phis_edge := fun b block p q here merged operand => ?_ }
  · rw [rendering.locals]
    rcases mem_append.1 mem with phi | stmt
    · obtain ⟨merge, made, -⟩ := rendering.merge_of_dst here phi
      exact rendering.good.bound l merge made
    · exact rendering.fresh.below l (rendering.defined_mem drawn here stmt)
  · rw [rendering.phi_sources here merged]
    exact drawn.sourcesOf_nodup b
  · rw [rendering.phi_sources here merged]
    have edge := (rendering.edge_iff drawn).1 leads
    exact drawn.mem_sourcesOf.2 ⟨(drawn.target_inner edge).2, edge⟩
  · obtain ⟨t, -, c, -, -, found⟩ := drawn.received (rendering.traps ▸ mem) handler
    obtain ⟨span, inside, -, same⟩ := drawn.blockOf_ok.1 found
    refine (linked.mem_layout h.target).1 ?_
    rw [rendering.layout, drawn.mem_layout]
    exact same ▸ (drawn.span_inner inside mem_cons_self).2
  · rw [rendering.phi_sources here merged] at operand
    exact (rendering.edge_iff drawn).2 (drawn.mem_sourcesOf.1 operand).2

end Rendering

end Restack.Lifting
