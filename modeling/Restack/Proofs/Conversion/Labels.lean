/-
# The labels of converted bodies

The labels of a block stand in its own segment, so no label occurs twice, and those occur that
jumps, switches and the exception table use. An entry of the table reaches over all that a guarded
block emits from its first statement that can throw (`bodyCode_labels`). That is nothing only where
the statement fills an array from an empty table, as in `emptyFill`.
-/
import Restack.Proofs.Conversion.Strings
import Restack.Proofs.Lowering.Transfer

namespace Restack.Lowering

open List Restack.Outcome Ir
open Stack (Instruction TryCatch Body)

variable {f : Frame} {b : BlockId} {position n : Nat} {next : Option BlockId} {c : BlockCode}
  {codes : List BlockCode} {layout : List BlockId} {l : Stack.Label} {code : List Instruction}
  {i : Instruction} {m : Method} {body : Body} {s : Stmt}

/-! ## Each label once -/

lemma emitted_nodup (made : blockCodes f position layout = .ok codes) :
    (labelsOf (emitted position codes)).Nodup := by
  induction layout generalizing position codes with
  | nil =>
    cases made
    exact nodup_nil
  | cons b layout ih =>
    obtain ⟨c, rest, first, others, rfl⟩ := blockCodes_cons made
    rw [emitted, labelsOf_append, nodup_append]
    refine ⟨?_, ih others, fun l here l' later same => ?_⟩
    · obtain ⟨block, -, labels⟩ := segment_labelsOf first
      rw [labels, segmentLabels]
      split <;> split <;> simp [exceptionLabel, startLabel, throwsLabel, endLabel]
    · have own := segment_labels first (mem_labelsOf.1 here)
      have beyond := emitted_labels others (mem_labelsOf.1 later)
      rw [← same] at beyond
      omega

/-! ## Labels that are used -/

lemma Piece.leads {vs} {site?} (part : Piece f vs site? i)
    (mem : l ∈ targets i) : ∃ b, f.target b = .ok l := by
  have push (pushes : isPush i = true) : ∃ b, f.target b = .ok l := by
    cases i <;> first | exact absurd mem not_mem_nil | cases pushes
  cases part with
  | load _ made => exact push (load_pushes made)
  | constant made => exact push (pushConstant_pushes made)
  | custom => cases mem
  | go _ leads => exact leads l mem
  | work works => cases i <;> first | exact absurd mem not_mem_nil | cases works

lemma Origin.leads {block} (origin : Origin f block i) (mem : l ∈ targets i) : ∃ b, f.target b = .ok l := by
  cases origin with
  | label => cases mem
  | take takes => cases i <;> first | exact absurd mem not_mem_nil | cases takes
  | stmt _ part | terminator part => exact part.leads mem

/-! ## Code that can throw -/

lemma applied_ne_nil {vs} (made : applied f vs i = .ok code) : code ≠ [] := by
  obtain ⟨pushes, -, made⟩ := bind_ok.1 made
  cases made
  exact append_ne_nil_of_right_ne_nil _ (cons_ne_nil _ _)

lemma exprCode_ne_nil {e} (made : exprCode f e = .ok code) : code ≠ [] := by
  cases e with
  | value | unary | filledArray | newObject =>
    obtain ⟨_, -, made⟩ := bind_ok.1 made
    cases made
    exact cons_ne_nil _ _
  | param | caught => simp [exprCode] at made
  | newInstance | getStatic =>
    cases made
    exact cons_ne_nil _ _
  | newMultiArray =>
    obtain ⟨pushes, -, made⟩ := bind_ok.1 made
    obtain ⟨-, made⟩ := guard_ok.1 made
    cases made
    exact append_ne_nil_of_right_ne_nil _ (cons_ne_nil _ _)
  | invokeCustom =>
    obtain ⟨pushes, -, made⟩ := bind_ok.1 made
    obtain ⟨bootstrap, -, made⟩ := bind_ok.1 made
    obtain ⟨arguments, -, made⟩ := bind_ok.1 made
    cases made
    exact append_ne_nil_of_right_ne_nil _ (cons_ne_nil _ _)
  | _ => exact applied_ne_nil made

/-- A statement that fills an array from an empty table. -/
def IsEmptyFill (s : Stmt) : Prop := ∃ array data, s = .fillArrayData array data ∧ data.elements = []

/-- A statement that can throw has code, unless it fills an array from an empty table. -/
lemma stmtCode_ne_nil (made : stmtCode f s = .ok code) (throws : s.canThrow = true) :
    code ≠ [] ∨ IsEmptyFill s := by
  cases s with
  | assign =>
    rcases stmtCode_pieces made with ⟨none_, -⟩ | ⟨_, _, same, -⟩ | ⟨_, _, same, -⟩ |
      ⟨_, _, _, _, -, -, -, -, -, rfl⟩
    · cases none_
    · cases same
      cases throws
    · cases same
      cases throws
    · exact .inl (append_ne_nil_of_right_ne_nil _ (cons_ne_nil _ _))
  | effect =>
    obtain ⟨value, evaluated, made⟩ := bind_ok.1 made
    cases made
    exact .inl (append_ne_nil_of_left_ne_nil (exprCode_ne_nil evaluated) _)
  | fillArrayData array data =>
    obtain ⟨parts, each, made⟩ := bind_ok.1 made
    cases made
    cases elements : data.elements with
    | nil => exact .inr ⟨array, data, rfl, elements⟩
    | cons bits rest =>
      rw [elements] at each
      obtain _ | ⟨here, -⟩ := mapM_ok.1 each
      refine .inl (append_ne_nil_of_left_ne_nil ?_ _)
      simp only [fillCode] at here
      split at here
      · simp at here
      · obtain ⟨target, -, here⟩ := bind_ok.1 here
        obtain ⟨pushed, -, here⟩ := bind_ok.1 here
        cases here
        exact cons_ne_nil _ _
  | _ => exact .inl (applied_ne_nil made)

lemma enteredBy_throwing {block} (mem : s ∈ block.stmts) (throws : s.canThrow = true) :
    s ∈ (enteredBy f b position block).2 := by
  rw [enteredBy]
  split
  · cases entered : handlerEntry f position block.stmts with
    | error e => exact mem
    | ok r =>
      unfold handlerEntry at entered
      split at entered
      · rename_i dst rest same
        obtain ⟨i, -, entered⟩ := bind_ok.1 entered
        cases entered
        rw [same, mem_cons] at mem
        rcases mem with rfl | later
        · cases throws
        · exact later
      · cases entered
        exact mem
  · exact mem

/-- Behind the throws label of a guarded block stands an instruction of it, or the block fills an
array from an empty table. -/
lemma blockCode_guarded {block} (made : blockCode f b position next = .ok c)
    (found : f.method.block? b = some block) (guarded : isGuarded f.method b block = true) :
    ∃ front inner, c.instructions position =
        front ++ .label (throwsLabel position) :: (inner ++ [.label (endLabel position)]) ∧
      ((∃ i ∈ inner, label? i = none) ∨ ∃ s ∈ block.stmts, IsEmptyFill s) := by
  obtain ⟨block', calm, rest, ending, here, shape, calmed, rested, ended, rfl⟩ := blockCode_ok made
  cases found.symm.trans here
  refine ⟨(enteredBy f b position block).1 ++ .label (startLabel position) :: calm, rest ++ ending,
    by simp [BlockCode.instructions, guarded], ?_⟩
  have real (i : Instruction) (inside : i ∈ rest ++ ending) : label? i = none := by
    rw [Option.eq_none_iff_forall_ne_some]
    intro l same
    rw [label?_eq_some.1 same] at inside
    rcases mem_append.1 inside with early | late
    · exact stmtsCode_unlabelled rested l early
    · exact terminatorCode_unlabelled ended l late
  have filled (some_ : rest ++ ending ≠ []) : ∃ i ∈ rest ++ ending, label? i = none := by
    obtain ⟨i, inside⟩ := exists_mem_of_ne_nil _ some_
    exact ⟨i, inside, real i inside⟩
  have throws : block.canThrow = true := (Bool.and_eq_true _ _ ▸ guarded).2
  rw [Block.canThrow, Bool.or_eq_true, any_eq_true] at throws
  rcases throws with ⟨s, mem, throws⟩ | throws
  · have entered : s ∈ (enteredBy f b position block).2 := enteredBy_throwing mem throws
    have late : s ∈ dropWhile (!Stmt.canThrow ·) (enteredBy f b position block).2 := by
      rw [← takeWhile_append_dropWhile (p := (!Stmt.canThrow ·)) (l := (enteredBy f b position block).2),
        mem_append] at entered
      refine entered.resolve_left fun early => ?_
      simpa [throws] using all_eq_true.1 all_takeWhile s early
    obtain ⟨parts, each, rested⟩ := bind_ok.1 rested
    cases rested
    obtain ⟨part, among, coded⟩ := Lists.forall₂_mem_left (mapM_ok.1 each) late
    rcases stmtCode_ne_nil coded throws with some_ | empty
    · refine .inl (filled (append_ne_nil_of_left_ne_nil ?_ _))
      exact fun none_ => some_ (flatten_eq_nil_iff.1 none_ part among)
    · exact .inr ⟨s, mem, empty⟩
  · refine .inl (filled (append_ne_nil_of_right_ne_nil _ ?_))
    cases ends : block.terminator with
    | throw v => exact applied_ne_nil (ends ▸ ended)
    | _ =>
      rw [ends] at throws
      cases throws

/-! ## Bodies -/

/-- The labels that jumps, switches and the exception table use. -/
def usedLabels (body : Body) : List Stack.Label :=
  body.instructions.flatMap targets ++ body.tryCatches.flatMap fun e => [e.start, e.stop, e.handler]

section Lowered

variable (lowered : lower m = .ok body)
include lowered

lemma lower_parts : ∃ slots codes opens,
    blockCodes (frameOf m slots) 0 m.layout = .ok codes ∧ body.instructions = emitted 0 codes ∧
      body.tryCatches = m.traps.flatMap (trapEntries (frameOf m slots) opens) := by
  obtain ⟨slots, -, lowered⟩ := bind_ok.1 lowered
  obtain ⟨codes, made, lowered⟩ := bind_ok.1 lowered
  cases lowered
  exact ⟨slots, codes, _, made, emitted_eq_flatten 0 codes, rfl⟩

lemma lower_holds (at_ : m.layout[n]? = some b) : ∃ block, m.block? b = some block ∧
    ∀ l ∈ segmentLabels m b block n, .label l ∈ body.instructions := by
  obtain ⟨slots, codes, -, made, whole, -⟩ := lower_parts lowered
  have holds := emitted_holds made at_
  rwa [Nat.zero_add, ← whole] at holds

lemma lower_entry {e} (entry : e ∈ body.tryCatches) :
    .label e.handler ∈ body.instructions ∧ ∃ front inner back,
      body.instructions = front ++ .label e.start :: (inner ++ .label e.stop :: back) ∧
        ((∃ i ∈ inner, label? i = none) ∨
          ∃ b block, m.block? b = some block ∧ ∃ s ∈ block.stmts, IsEmptyFill s) := by
  obtain ⟨slots, codes, opens, -, -, table⟩ := lower_parts lowered
  rw [table] at entry
  obtain ⟨t, trap, entry⟩ := mem_flatMap.1 entry
  obtain ⟨⟨r, range, starts, stops⟩, h, handles, p, target, enters⟩ := mem_trapEntries entry
  obtain ⟨first, last, ordered⟩ := rangesOf_mem range
  constructor
  · have handler : m.isHandler h.target = true := by
      simp only [Method.isHandler, any_eq_true]
      exact ⟨t, trap, h, handles, by simp⟩
    obtain ⟨block, -, holds⟩ := lower_holds lowered (position?_spec target)
    exact enters ▸ holds _ (by simp [segmentLabels, handler])
  obtain ⟨b, block, at_, covered, found, throws⟩ := mem_guardedPositions.1 first
  obtain ⟨slots, -, segments⟩ := lower_segments lowered
  obtain ⟨c, before, after, made, whole, low, -⟩ := segments r.1 b at_
  obtain ⟨front, inner, segment, real⟩ :=
    blockCode_guarded made found (isGuarded_of_covered trap covered throws)
  have real : (∃ i ∈ inner, label? i = none) ∨
      ∃ b block, m.block? b = some block ∧ ∃ s ∈ block.stmts, IsEmptyFill s :=
    real.imp_right fun fills => ⟨b, block, found, fills⟩
  rw [starts, stops]
  rcases Nat.lt_or_eq_of_le ordered with further | same
  · -- The range ends in a later segment, over all of this one.
    obtain ⟨b', block', at', -⟩ := mem_guardedPositions.1 last
    obtain ⟨_, -, holds⟩ := lower_holds lowered at'
    have ends := holds (endLabel r.2) (by simp [segmentLabels])
    rw [whole, mem_append, mem_append] at ends
    have behind : .label (endLabel r.2) ∈ after := by
      rcases ends with (early | own) | late
      · have := low _ early
        rw [endLabel_place] at this
        omega
      · have := segment_labels made own
        rw [endLabel_place] at this
        omega
      · exact late
    obtain ⟨between, back, rfl⟩ := append_of_mem behind
    refine ⟨before ++ front, inner ++ .label (endLabel r.1) :: between, back, ?_, ?_⟩
    · rw [whole, segment]
      simp
    · refine real.imp_left ?_
      rintro ⟨i, inside, plain⟩
      exact ⟨i, mem_append_left _ inside, plain⟩
  · refine ⟨before ++ front, inner, after, ?_, real⟩
    rw [whole, segment, same]
    simp

lemma lower_usedLabels (used : l ∈ usedLabels body) : (labelsOf body.instructions).count l = 1 := by
  obtain ⟨slots, codes, opens, made, whole, -⟩ := lower_parts lowered
  have once := emitted_nodup made
  rw [← whole] at once
  refine count_eq_one_of_mem once (mem_labelsOf.2 ?_)
  rcases mem_append.1 used with jumps | entries
  · obtain ⟨i, inside, mem⟩ := mem_flatMap.1 jumps
    obtain ⟨slots, b, block, -, origin⟩ := lower_origin lowered inside
    obtain ⟨t, known⟩ := origin.leads mem
    obtain ⟨n, rfl, at_⟩ := target_spec known
    obtain ⟨_, -, holds⟩ := lower_holds lowered at_
    exact holds _ (by simp [segmentLabels])
  · obtain ⟨e, entry, mem⟩ := mem_flatMap.1 entries
    obtain ⟨handler, front, inner, back, decomposed, -⟩ := lower_entry lowered entry
    simp only [mem_cons, not_mem_nil, or_false] at mem
    rcases mem with rfl | rfl | rfl
    · rw [decomposed]
      simp
    · rw [decomposed]
      simp
    · exact handler

end Lowered

end Restack.Lowering

namespace Restack

open List Ir Lowering
open Register (ArrayData Code)

variable {m : Register.Method} {code : Code}

/-- A statement that fills arrays from tables of `S` only. -/
def Ir.Stmt.FillsIn (S : ArrayData → Prop) (s : Stmt) : Prop :=
  ∀ array data, s = .fillArrayData array data → S data

lemma Pass.stable_fillsIn {S : ArrayData → Prop} : Stable (Stmt.FillsIn S) where
  withValues s vs fills := by
    intro array data same
    unfold Stmt.withValues at same
    split at same <;> cases same <;> exact fills _ _ rfl
  effect _ _ _ _ := nofun
  copy _ _ := nofun
  object _ _ _ _ := nofun
  literal _ _ _ := nofun
  allocation _ _ _ _ := nofun

lemma Lifting.lift_fillsIn {order ir} (lifted : lift m code order = .ok ir) :
    ir.Each (Stmt.FillsIn fun data => ∃ array, .fillArrayData array data ∈ code.instructions) := by
  refine lift_each lifted (fun _ _ _ => nofun) fun i listed o stop vs a does => ?_
  cases a with
  | define dest e => exact fun _ => nofun
  | call e => exact ⟨nofun, fun _ => nofun⟩
  | perform s =>
    rintro array data rfl
    cases does
    exact ⟨_, listed⟩
  | skip | takeResult | finish => exact trivial

namespace Conversion

open LongString (ClassHelpers builtin)
open Stack (Body)

/-- Every label that a body uses occurs in it once. The start label of an entry of the exception
table stands in front of the end label, and between them an instruction unless the method fills
an array from an empty table. -/
theorem bodyCode_labels {options : Options} {helpers : ClassHelpers} {body : Body}
    (made : (bodyCode options helpers m code).2 = .ok body) :
    (∀ l ∈ usedLabels body, (labelsOf body.instructions).count l = 1) ∧
      ∀ e ∈ body.tryCatches, ∃ front inner back,
        body.instructions = front ++ .label e.start :: (inner ++ .label e.stop :: back) ∧
          ((∃ i ∈ inner, label? i = none) ∨
            ∃ array data, .fillArrayData array data ∈ code.instructions ∧ data.elements = []) := by
  obtain ⟨ir, fills, lowered⟩ := bodyCode_each Pass.stable_fillsIn (fun _ _ _ _ => nofun)
    (fun _ _ => Lifting.lift_fillsIn) made
  refine ⟨fun l used => lower_usedLabels lowered used, fun e entry => ?_⟩
  obtain ⟨-, front, inner, back, whole, real⟩ := lower_entry lowered entry
  refine ⟨front, inner, back, whole, real.imp_right ?_⟩
  rintro ⟨b, block, here, s, member, array, data, rfl, empty⟩
  obtain ⟨r, listed⟩ := fills b block here _ member array data rfl
  exact ⟨r, data, listed, empty⟩

/-- Fills an array from an empty table, within a guarded range. -/
def emptyFill : Code where
  registers := 1
  instructions := [.mark ⟨"s"⟩, .fillArrayData 0 ⟨4, []⟩, .mark ⟨"e"⟩, .returnVoid, .mark ⟨"h"⟩, .returnVoid]
  tries := [⟨⟨"s"⟩, ⟨"e"⟩, [⟨none, ⟨"h"⟩⟩]⟩]

def emptyFiller : Register.Method := ⟨9, ⟨"La/T;", "m", "([I)V"⟩, [], [], some emptyFill⟩

/-- The end label of the range stands right behind its start label. -/
theorem emptyFill_guards_nothing : ∃ body e,
    (bodyCode {} (.ofClass "a/T" builtin 0) emptyFiller emptyFill).2 = .ok body ∧ e ∈ body.tryCatches ∧
      labelAt body.instructions e.start = some 3 ∧ labelAt body.instructions e.stop = some 4 ∧
      (∀ l ∈ usedLabels body, (labelsOf body.instructions).count l = 1) ∧
      ∃ array data, .fillArrayData array data ∈ emptyFill.instructions ∧ data.elements = [] := by
  have range : (bodyCode {} (.ofClass "a/T" builtin 0) emptyFiller emptyFill).2.toOption.map (fun body =>
      body.tryCatches.map fun e => (labelAt body.instructions e.start, labelAt body.instructions e.stop)) =
      some [(some 3, some 4)] := by
    decide +kernel
  obtain ⟨body, made, range⟩ := Option.map_eq_some_iff.1 range
  obtain ⟨e, entry, places⟩ := mem_map.1 (range ▸ mem_singleton_self (some 3, some 4))
  obtain ⟨starts, stops⟩ := Prod.mk.inj places
  have made := Outcome.of_toOption made
  exact ⟨body, e, made, entry, starts, stops, (bodyCode_labels made).1, 0, ⟨4, []⟩, by simp [emptyFill], rfl⟩

end Conversion

end Restack
