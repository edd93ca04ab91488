/-
# Where lifted blocks throw

An instruction that throws inside a guarded range ends its block, the traps of
the ranges around it cover that block, and what it became is the one place where
the block throws (`Rendering.throwing_span`). Every block that the passes make
of it up to array literals throws at one place at most (`guarded_throws_once`).
-/
import Restack.Proofs.Lifting.Rendering
import Restack.Proofs.Pass.Throwing

namespace Restack.Lifting

open Register (Instruction Reg Code)
open Ir (BlockId Local Value Expr Stmt Terminator Block Phi)
open List Outcome

variable {o : Outline}

/-- What was done stands at a place of a block. -/
inductive StandsAt (block : Block) : Action → Nat → Prop
  | define {dest e l i} (at_ : block.stmts[i]? = some (.assign l e)) :
      StandsAt block (.define dest e) i
  | keep {e l i} (at_ : block.stmts[i]? = some (.assign l e)) :
      StandsAt block (.call e) i
  | drop {e i} (at_ : block.stmts[i]? = some (.effect e)) : StandsAt block (.call e) i
  | perform {s i} (at_ : block.stmts[i]? = some s) : StandsAt block (.perform s) i
  | finish : StandsAt block (.finish block.terminator) block.stmts.length

/-! ## Lines in front of the last one -/

variable {t : Terminator} {f : Registers} {params : List String} {ls defs : List Local}
  {m : Ir.Method}

section Lines

variable {span : Span} {known : Reg → Option Value} {pos : Nat} {i : Instruction}
  {writes writes' : List (Reg × Local)} {result result' : Option Local}

lemma Line.inner {head} (line : Line o span known pos false i writes result head writes' result')
    (straight : i.isBranch = false) : head.terminator = none ∧ head.deferred = none ∧
      (throws i = false → ∀ s ∈ head.stmts, s.canThrow = false) := by
  cases line with
  | define read values does | keep read values does | drop read values does
  | perform read values does =>
    refine ⟨rfl, rfl, fun calm s mem => ?_⟩
    rw [mem_singleton.1 mem]
    exact does.throws_eq.symm.trans calm
  | defer read values does lands => simp at lands
  | take => exact ⟨rfl, rfl, fun _ _ mem => by cases mem⟩
  | finish read values does =>
    rw [does.isBranch_eq] at straight
    cases straight

/-- Lines whose last one alone may branch. -/
lemma Lines.split_last {init filling}
    (lines : Lines o span known pos (init ++ [i]) writes result filling writes' result')
    (straight : ∀ j ∈ init, j.isBranch = false) :
    ∃ before head between result₁, filling.stmts = before ++ head.stmts ∧
      filling.terminator = head.terminator ∧
      ((∀ j ∈ init, throws j = false) → ∀ s ∈ before, s.canThrow = false) ∧
      Line o span known (pos + init.length) true i between result₁ head writes' result' := by
  induction init generalizing pos writes result filling with
  | nil =>
    cases lines with
    | cons first later =>
      cases later
      refine ⟨[], _, _, _, ?_, ?_, by simp, first⟩
      · simp [Filling.append, Filling.empty]
      · simp [Filling.append, Filling.empty]
  | cons j init ih =>
    rw [cons_append] at lines
    cases lines with
    | @cons _ _ _ _ _ head₀ _ _ tail _ _ first later =>
      have notLast : (init ++ [i]).isEmpty = false := by cases init <;> rfl
      rw [notLast] at first
      obtain ⟨own, -, calm₀⟩ := first.inner (straight j mem_cons_self)
      obtain ⟨before, head, between, result₁, stmts, terminator, calm, line⟩ :=
        ih later fun k mem => straight k (mem_cons_of_mem _ mem)
      refine ⟨head₀.stmts ++ before, head, between, result₁, ?_, ?_, fun quiet s mem => ?_, ?_⟩
      · simp [Filling.append, stmts]
      · simp [Filling.append, terminator, own]
      · rcases mem_append.1 mem with h | h
        · exact calm₀ (quiet j mem_cons_self) s h
        · exact calm (fun k mem => quiet k (mem_cons_of_mem _ mem)) s h
      · rw [length_cons, Nat.add_comm init.length, ← Nat.add_assoc]
        exact line

lemma throwsAt_last {phis before s} (calm : ∀ s ∈ before, s.canThrow = false) (throws : s.canThrow = true)
    (leaves : t.isThrow = false) (j : Nat) :
    (Block.mk phis (before ++ [s]) t).throwsAt j = true ↔ j = before.length := by
  constructor
  · intro here
    rcases Block.throwsAt_cases here with ⟨s', at_, throws'⟩ | ⟨-, ends⟩
    · rcases Nat.lt_trichotomy j before.length with less | same | more
      · rw [getElem?_append_left less] at at_
        rw [calm s' (mem_of_getElem? at_)] at throws'
        cases throws'
      · exact same
      · rw [getElem?_append_right (Nat.le_of_lt more), getElem?_eq_none (by simp; omega)] at at_
        cases at_
    · rw [leaves] at ends
      cases ends
  · rintro rfl
    rw [Block.throwsAt_of_stmt (s := s) (by simp)]
    exact throws

lemma throwsAt_terminator {phis before}
    (calm : ∀ s ∈ before, s.canThrow = false) (throws : t.isThrow = true) (j : Nat) :
    (Block.mk phis before t).throwsAt j = true ↔ j = before.length := by
  constructor
  · intro here
    rcases Block.throwsAt_cases here with ⟨s', at_, throws'⟩ | ⟨end_, -⟩
    · rw [calm s' (mem_of_getElem? at_)] at throws'
      cases throws'
    · exact end_
  · rintro rfl
    rw [← throws]
    exact Block.throwsAt_length

lemma Ends.isThrow_none (ends : Ends o span none t) : t.isThrow = false := by
  cases ends <;> rfl

/-- What a throwing instruction behind calm ones became is where the block throws. -/
lemma Lines.throws_last {init filling}
    (lines : Lines o span known pos (init ++ [i]) writes result filling writes' result')
    (calm : ∀ j ∈ init, j.isBranch = false ∧ throws j = false) (throwing : throws i = true)
    (ends : Ends o span filling.terminator t) (phis : List Phi) :
    ∃ regs vs a place, operands i = .ok regs ∧ regs.length = vs.length ∧ Does o span.stop i vs a ∧
      StandsAt ⟨phis, filling.stmts, t⟩ a place ∧ filling.stmts.length ≤ place + 1 ∧
      ∀ j, (Block.mk phis filling.stmts t).throwsAt j = true ↔ j = place := by
  obtain ⟨before, head, between, result₁, stmts, own, quiet, line⟩ :=
    lines.split_last fun j mem => (calm j mem).1
  have calm' := quiet fun j mem => (calm j mem).2
  rw [stmts]
  rw [own] at ends
  have by_stmt {regs : List Reg} {vs : List Value} {a : Action} {s : Stmt}
      (read : operands i = .ok regs) (values : Holds (after known between) regs vs)
      (does : Does o span.stop i vs a) (same : s.canThrow = a.canThrow)
      (stands : StandsAt ⟨phis, before ++ [s], t⟩ a before.length) (falls : Ends o span none t) :
      ∃ regs vs a place, operands i = .ok regs ∧ regs.length = vs.length ∧ Does o span.stop i vs a ∧
        StandsAt ⟨phis, before ++ [s], t⟩ a place ∧ (before ++ [s]).length ≤ place + 1 ∧
        ∀ j, (Block.mk phis (before ++ [s]) t).throwsAt j = true ↔ j = place :=
    ⟨regs, vs, a, before.length, read, values.length_eq, does, stands, by simp,
      throwsAt_last calm' (by rw [same, ← does.throws_eq, throwing]) falls.isThrow_none⟩
  cases line with
  | define read values does | defer read values does =>
    exact by_stmt read values does rfl (.define getElem?_concat_length) ends
  | keep read values does =>
    exact by_stmt read values does rfl (.keep getElem?_concat_length) ends
  | drop read values does =>
    exact by_stmt read values does rfl (.drop getElem?_concat_length) ends
  | take read values does =>
    rw [does.throws_eq] at throwing
    cases throwing
  | perform read values does =>
    exact by_stmt read values does rfl (.perform getElem?_concat_length) ends
  | finish read values does =>
    rw [does.throws_eq] at throwing
    cases ends
    rw [append_nil]
    exact ⟨_, _, _, before.length, read, values.length_eq, does, .finish, Nat.le_succ _,
      throwsAt_terminator calm' throwing⟩

end Lines

/-! ## Spans that end by throwing -/

section Drawn

variable {code : Code} {ranges : List (Nat × Nat)} {starts : List Nat}
  (drawn : Drawn code o ranges starts)

include drawn

lemma Drawn.spanInstructions_eq {span} (mem : span ∈ o.spans) {last}
    (at_ : o.instructions[span.stop - 1]? = some last) : ∃ init, o.spanInstructions span = init ++ [last] ∧
      ∀ i ∈ init, ∃ pos, span.start ≤ pos ∧ pos + 1 < span.stop ∧ o.instructions[pos]? = some i := by
  have tile := drawn.tile mem
  have proper := tile.proper
  have inside := tile.inside
  refine ⟨(o.instructions.extract span.start (span.stop - 1)).toList, ?_, fun i among => ?_⟩
  · have stop : span.stop = span.stop - 1 + 1 := by omega
    have here : o.instructions[span.stop - 1] = last := by
      rw [Array.getElem?_eq_getElem (by omega)] at at_
      exact Option.some.inj at_
    rw [Outline.spanInstructions, stop, Array.extract_succ_right (by omega) (by omega),
      Array.toList_push, here]
    rfl
  · rw [Array.mem_toList_iff] at among
    obtain ⟨k, found⟩ := Array.mem_iff_getElem?.1 among
    rw [Array.getElem?_extract] at found
    split at found
    · exact ⟨span.start + k, Nat.le_add_right _ _, by omega, found⟩
    · cases found

lemma Drawn.straight_init {span} (mem : span ∈ o.spans) {last}
    (at_ : o.instructions[span.stop - 1]? = some last) :
    ∃ init, o.spanInstructions span = init ++ [last] ∧ (∀ j ∈ init, j.isBranch = false) ∧
      (isGuarded ranges (span.stop - 1) = true → ∀ j ∈ init, throws j = false) := by
  obtain ⟨init, instructions, within⟩ := drawn.spanInstructions_eq mem at_
  refine ⟨init, instructions, fun j among => ?_, fun guarded j among => ?_⟩
  · obtain ⟨pos, low, high, here⟩ := within j among
    exact (drawn.calm_inside mem low high here).1
  · obtain ⟨pos, low, high, here⟩ := within j among
    have guarded' : isGuarded ranges pos = true := by
      simp only [isGuarded, any_eq_true] at guarded ⊢
      obtain ⟨range, among, holds⟩ := guarded
      refine ⟨range, among, ?_⟩
      rw [drawn.inRange_iff mem among low (by omega)]
      rwa [drawn.inRange_iff mem among (by omega) (by omega)] at holds
    simpa [guarded'] using (drawn.calm_inside mem low high here).2

lemma Drawn.covered_last {trap} (mem : trap ∈ o.traps) {b}
    (covers : b ∈ trap.covered) : ∃ span ∈ o.spans, span.id = b ∧
      ∃ last, o.instructions[span.stop - 1]? = some last ∧ throws last = true ∧
        isGuarded ranges (span.stop - 1) = true := by
  obtain ⟨span, inside, rfl, throwing, range, among, holds⟩ := drawn.covered mem covers
  obtain ⟨last, at_⟩ := drawn.exists_last inside
  have proper := (drawn.tile inside).proper
  refine ⟨span, inside, rfl, last, at_, by simpa [Outline.endsThrowing, at_] using throwing, ?_⟩
  simp only [isGuarded, any_eq_true]
  exact ⟨range, among, by rw [drawn.inRange_iff inside among (by omega) (by omega), holds]⟩

lemma Drawn.exists_containing {pos} (inside : pos < o.instructions.size) :
    ∃ span ∈ o.spans, span.start ≤ pos ∧ pos < span.stop := by
  induction pos with
  | zero =>
    obtain ⟨span, rest, spans, start, -⟩ := drawn.first_span
    have mem : span ∈ o.spans := spans ▸ mem_cons_self
    exact ⟨span, mem, by omega, by have := (drawn.tile mem).proper; omega⟩
  | succ pos ih =>
    obtain ⟨span, mem, low, high⟩ := ih (by omega)
    by_cases more : pos + 1 < span.stop
    · exact ⟨span, mem, by omega, more⟩
    · obtain ⟨next, among, start⟩ := drawn.exists_span ((drawn.tile mem).ends (by omega))
      exact ⟨next, among, by omega, by have := (drawn.tile among).proper; omega⟩

lemma Rendering.throwing_span (rendering : Rendering code o f params ls defs m) {span}
    (mem : span ∈ o.spans) {i} (at_ : o.instructions[span.stop - 1]? = some i)
    (throwing : throws i = true) (guarded : isGuarded ranges (span.stop - 1) = true) :
    ∃ block, m.block? span.id = some block ∧
      ∃ regs vs a place, operands i = .ok regs ∧ regs.length = vs.length ∧
        Does o span.stop i vs a ∧ StandsAt block a place ∧ block.stmts.length ≤ place + 1 ∧
        ∀ j, block.throwsAt j = true ↔ j = place := by
  obtain ⟨result, all⟩ := rendering.spans
  obtain ⟨before, filling, terminator, behind, rendered, -⟩ := all.span mem
  obtain ⟨init, instructions, straight, quiet⟩ := drawn.straight_init mem at_
  have lines := rendered.lines
  rw [instructions] at lines
  have block := rendered.block
  simp only [Option.map_eq_some_iff] at block
  obtain ⟨block, found, same⟩ := block
  obtain ⟨phis, stmts, t⟩ := block
  obtain ⟨rfl, rfl⟩ := same
  exact ⟨_, found, lines.throws_last (fun j among => ⟨straight j among, quiet guarded j among⟩) throwing
    rendered.ends phis⟩

end Drawn

lemma Does.action_eq {stop i vs a} (does : Does o stop i vs a) : action o stop i vs = .ok a := by
  cases does with
  | constMethodHandle converts => exact bind_ok.2 ⟨_, converts, rfl⟩
  | goto found => exact bind_ok.2 ⟨_, found, rfl⟩
  | packedSwitch found default | sparseSwitch found default =>
    exact bind_ok.2 ⟨_, found, bind_ok.2 ⟨_, default, rfl⟩⟩
  | branch found next | branchZero found next =>
    exact bind_ok.2 ⟨_, found, bind_ok.2 ⟨_, next, rfl⟩⟩
  | _ => rfl

/-! ## Lifted methods -/

/-- The block that a throwing instruction in guarded ranges ends: the traps that
cover it are those of the ranges around the instruction, in their order, and it
throws just at what the instruction became. -/
structure GuardedBlock (code : Code) (o : Outline) (ranges : List (Nat × Nat)) (m : Ir.Method)
    (pos : Nat) (i : Instruction) (span : Span) (block : Block) : Prop where
  begins : span.start ≤ pos
  ends : pos + 1 = span.stop
  found : m.block? span.id = some block
  traps : List.Forall₂ (fun t trap => List.Forall₂ (Receives o) t.1.clauses trap.handlers)
    ((code.tries.zip ranges).filter fun t => inRange t.2 pos)
    (m.traps.filter (·.covered.contains span.id))
  throws : ∃ regs vs a place, operands i = .ok regs ∧ regs.length = vs.length ∧
    action o span.stop i vs = .ok a ∧ StandsAt block a place ∧
    ∀ j, block.throwsAt j = true ↔ j = place

lemma Rendering.throwsOnce {code ranges starts}
    (drawn : Drawn code o ranges starts) (rendering : Rendering code o f params ls defs m) :
    m.ThrowsOnce := by
  intro b block covered found
  obtain ⟨trap, mem, covers⟩ := Ir.Method.isCovered_iff.1 covered
  rw [rendering.traps] at mem
  obtain ⟨span, inside, rfl, last, at_, throwing, guarded⟩ := drawn.covered_last mem covers
  obtain ⟨block', found', regs, vs, a, place, -, -, -, -, last_, only⟩ :=
    rendering.throwing_span drawn inside at_ throwing guarded
  rw [found] at found'
  cases found'
  refine ⟨fun i j one other => ?_, fun i throws => ?_⟩
  · rw [(only i).1 one, (only j).1 other]
  · rw [(only i).1 throws]
    exact last_

lemma Rendering.guardedBlock {code ranges starts}
    (drawn : Drawn code o ranges starts) (rendering : Rendering code o f params ls defs m)
    {pos i} (at_ : o.instructions[pos]? = some i) (throwing : throws i = true)
    (guarded : isGuarded ranges pos = true) :
    ∃ span ∈ o.spans, ∃ block, GuardedBlock code o ranges m pos i span block := by
  have inside : pos < o.instructions.size := by
    by_contra outside
    rw [Array.getElem?_eq_none (Nat.le_of_not_lt outside)] at at_
    cases at_
  obtain ⟨span, mem, low, high⟩ := drawn.exists_containing inside
  have stop : pos + 1 = span.stop := by
    by_contra more
    have quiet := (drawn.calm_inside mem low (by omega) at_).2
    rw [throwing, guarded] at quiet
    cases quiet
  obtain rfl : pos = span.stop - 1 := by omega
  obtain ⟨block, found, regs, vs, a, place, read, length, does, stands, -, only⟩ :=
    rendering.throwing_span drawn mem at_ throwing guarded
  refine ⟨span, mem, block, low, stop, found, ?_,
    regs, vs, a, place, read, length, does.action_eq, stands, only⟩
  have covering := drawn.covering mem (by simp [Outline.endsThrowing, at_, throwing])
  rw [rendering.traps]
  have same : (code.tries.zip ranges).filter (fun t => inRange t.2 (span.stop - 1)) =
      (code.tries.zip ranges).filter (fun t => inRange t.2 span.start) :=
    filter_congr fun t among => drawn.inRange_iff mem (of_mem_zip among).2 low (by omega)
  rw [same]
  exact covering

/-- Every block under a trap throws at one place at most with nothing but its
terminator behind it, in the lifted method and all along the passes up to array
literals. In the lifted method an instruction of a guarded range that throws is
such a place, and the two notions of throwing agree for every instruction. -/
theorem guarded_throws_once {method : Register.Method} {code : Code} {order : ClosingOrder}
    {m : Ir.Method} (lifted : lift method code order = .ok m) :
    (∀ m', (Pipeline.standard.upTo .fillArray).Along m m' → m'.ThrowsOnce) ∧
    ∃ o ranges, Outline.ofCode code = .ok o ∧ code.tries.mapM (rangeOf o.labels) = .ok ranges ∧
      ∀ pos i, o.instructions[pos]? = some i →
        (∀ regs vs stop a, operands i = .ok regs → regs.length = vs.length →
          action o stop i vs = .ok a → throws i = a.canThrow) ∧
        (throws i = true → isGuarded ranges pos = true →
          ∃ span ∈ o.spans, ∃ block, GuardedBlock code o ranges m pos i span block) := by
  obtain ⟨signature, o, ranges, starts, f, ls, defs, -, outlined, drawn, rendering⟩ :=
    lift_rendering lifted
  refine ⟨fun m' along => ?_, o, ranges, outlined, mapM_ok.2 drawn.guards, fun pos i at_ =>
    ⟨fun regs vs stop a read length does => ?_, rendering.guardedBlock drawn at_⟩⟩
  · refine along.preserves (fun p member m m' changed => ?_) (rendering.throwsOnce drawn)
    have early : ∀ p ∈ (Pipeline.standard.upTo .fillArray).passes, p.isEarly = true := by decide
    exact Pass.keeps_throwsOnce (early p member)
  · exact (action_does (drawn.proper at_) read length does).throws_eq

/-- A body that takes the length of an array under a handler. -/
def guardedLength : Code where
  registers := 2
  instructions := [.mark ⟨"start"⟩, .arrayLength 0 1, .mark ⟨"stop"⟩, .returnValue .single 0,
    .mark ⟨"handler"⟩, .returnValue .single 0]
  tries := [⟨⟨"start"⟩, ⟨"stop"⟩, [⟨none, ⟨"handler"⟩⟩]⟩]

/-- The method of that body, which takes the array as its argument. -/
def guardedLengthMethod : Register.Method where
  access := 8
  ref := ⟨"LLength;", "of", "([I)I"⟩
  code := some guardedLength

theorem guardedLength_throws_once : ∃ m o, lift guardedLengthMethod guardedLength = .ok m ∧
    (∀ m', (Pipeline.standard.upTo .fillArray).Along m m' → m'.ThrowsOnce) ∧
    Outline.ofCode guardedLength = .ok o ∧
    ∃ span ∈ o.spans, ∃ block, GuardedBlock guardedLength o [(0, 1)] m 0 (.arrayLength 0 1) span block := by
  obtain ⟨m, lifted⟩ : ∃ m, lift guardedLengthMethod guardedLength = .ok m :=
    exists_of_isOk (by decide +kernel)
  obtain ⟨all, o, ranges, outlined, guards, each⟩ := guarded_throws_once lifted
  have first : ((Outline.ofCode guardedLength).toOption.bind (·.instructions[0]?)) =
      some (.arrayLength 0 1) := by rfl
  have range : ((Outline.ofCode guardedLength).toOption.map fun o =>
      (guardedLength.tries.mapM (rangeOf o.labels)).toOption) = some (some [(0, 1)]) := by rfl
  rw [outlined] at first range
  simp only [Except.toOption, Option.map_some, guards, Option.some.injEq] at range
  subst range
  exact ⟨m, o, lifted, all, outlined, (each 0 _ first).2 rfl rfl⟩

end Restack.Lifting
