/-
# The shape of lowered code

Code for operands, expressions and terminators has no labels and writes no slot
(`Piece.plain`), and a statement writes at most the slot of what it defines, last of all
(`stmtCode_pieces`). A body is the blocks' segments in layout order (`lower_segments`): the
segment at position `n` has the labels of its block (`segment_labelsOf`), whose numbers divided
by four are `n`, and ends with the code of the terminator and the end label (`blockCode_parts`).
-/
import Restack.Proofs.Lowering.Pieces

namespace Restack.Lowering

open List Outcome Ir
open Stack (Instruction Opcode Body)

/-! ## Code without labels -/

def Unlabelled (code : List Instruction) : Prop := ∀ l, Instruction.label l ∉ code

/-- Whether an instruction is no label and writes no slot. -/
def isPlain : Instruction → Bool
  | .label _ | .iinc .. => false
  | .var op _ => op.isLoad
  | _ => true

def Plain (code : List Instruction) : Prop := ∀ i ∈ code, isPlain i = true

variable {code : List Instruction} {i : Instruction} {f : Frame} {next : Option BlockId}
  {position : Nat} {b : BlockId} {c : BlockCode} {codes : List BlockCode}

lemma Plain.unlabelled (plain : Plain code) : Unlabelled code :=
  fun l mem => by simpa [isPlain] using plain _ mem

lemma Plain.nil : Plain [] := by simp [Plain]

/-- Whether an instruction pushes one value and does nothing else. -/
def isPush : Instruction → Bool
  | .var op _ => op.isLoad
  | i => i.isConstant

lemma isPush_plain (pushes : isPush i) : isPlain i = true := by
  cases i <;> simp_all [isPush, isPlain, Instruction.isConstant]

lemma read_of_isPush {V} (S : Stack.Sense V) (slots : Nat → V) (pushes : isPush i) :
    ∃ v, S.read slots i = some v := by
  cases i <;> simp_all [isPush, Stack.Sense.read]

lemma short_cases {v : Int32} (short : (-1 ≤ v && v ≤ 5) = true) :
    v = -1 ∨ v = 0 ∨ v = 1 ∨ v = 2 ∨ v = 3 ∨ v = 4 ∨ v = 5 := by
  simp only [Bool.and_eq_true, decide_eq_true_eq, Int32.le_iff_toInt_le] at short
  simp only [← Int32.toInt_inj]
  have low : (-1 : Int) ≤ v.toInt := short.1
  have high : v.toInt ≤ (5 : Int) := short.2
  change v.toInt = -1 ∨ v.toInt = 0 ∨ v.toInt = 1 ∨ v.toInt = 2 ∨ v.toInt = 3 ∨ v.toInt = 4 ∨ v.toInt = 5
  omega

lemma pushInt_constant (v : Int32) : (Stack.pushInt v).isConstant = true := by
  unfold Stack.pushInt
  split
  · rename_i short
    obtain rfl | rfl | rfl | rfl | rfl | rfl | rfl := short_cases short <;> rfl
  · split
    · rfl
    · split <;> rfl

lemma pushConstant_constant {c} (made : pushConstant c = .ok i) : i.isConstant = true := by
  unfold pushConstant at made
  split at made
  case h_3 | h_4 => cases made; exact pushInt_constant _
  case h_8 =>
    dsimp only at made
    split at made
    · simp at made
    · cases made; rfl
  all_goals
    cases made
    first
    | rfl
    | simp only [Stack.pushLong, Stack.pushFloat, Stack.pushDouble, pushType]
      (repeat' split) <;> rfl

lemma pushConstant_pushes {c} (made : pushConstant c = .ok i) : isPush i := by
  have pushes := pushConstant_constant made
  cases i <;> first | exact pushes | cases pushes

lemma slot_ok {l x} : f.slot l = .ok x ↔ f.slots.of? l = some x := by
  unfold Frame.slot
  split <;> simp_all

lemma load_pushes {v} (made : load f v = .ok i) : isPush i := by
  cases v with
  | var l =>
    obtain ⟨slot, -, made⟩ := bind_ok.1 made
    cases made
    cases f.method.localType l <;> rfl
  | const c => exact pushConstant_pushes made

lemma Piece.plain {vs} {site?} (part : Piece f vs site? i) : isPlain i = true := by
  cases part with
  | load _ made => exact isPush_plain (load_pushes made)
  | constant made => exact isPush_plain (pushConstant_pushes made)
  | custom => rfl
  | go goes => cases i <;> first | rfl | exact absurd rfl goes
  | work works => cases i <;> first | rfl | cases works

lemma Pieces.plain {vs} {site?} (parts : Pieces f vs site? code) : Plain code :=
  fun i mem => (parts i mem).plain

lemma store_ne_label {dst} (made : store f dst = .ok i) (l : Stack.Label) : i ≠ .label l := by
  obtain ⟨slot, -, made⟩ := bind_ok.1 made
  cases made
  simp

lemma stmtCode_unlabelled {s} (made : stmtCode f s = .ok code) : Unlabelled code := by
  rcases stmtCode_pieces made with ⟨-, parts⟩ | ⟨_, _, -, rfl⟩ | ⟨_, _, -, -, rfl⟩ |
    ⟨_, _, body, i, -, -, -, parts, stored, rfl⟩
  · exact parts.plain.unlabelled
  · exact Plain.nil.unlabelled
  · exact Plain.nil.unlabelled
  · intro l mem
    rcases mem_append.1 mem with inside | last
    · exact parts.plain.unlabelled l inside
    · exact store_ne_label stored l (mem_singleton.1 last).symm

lemma stmtsCode_unlabelled {stmts} (made : stmtsCode f stmts = .ok code) : Unlabelled code := by
  obtain ⟨parts, each, made⟩ := bind_ok.1 made
  cases made
  intro l mem
  obtain ⟨part, there, inside⟩ := mem_flatten.1 mem
  obtain ⟨s, -, here⟩ := Lists.forall₂_mem_right (mapM_ok.1 each) there
  exact stmtCode_unlabelled here l inside

lemma terminatorCode_plain {t} (made : terminatorCode f next t = .ok code) : Plain code :=
  (terminatorCode_pieces made).plain

lemma terminatorCode_unlabelled {t} (made : terminatorCode f next t = .ok code) : Unlabelled code :=
  (terminatorCode_plain made).unlabelled

/-! ## Segments -/

/-- An instruction that takes a value off the stack. -/
def isTake : Instruction → Bool
  | .simple op => op == Opcode.pop
  | .var op _ => op.isStore && !op.isLoad
  | _ => false

/-- The entry of a handler is its exception label and one instruction that takes
the exception; other blocks have none. -/
def EntryShape (m : Method) (b : BlockId) (position : Nat) (entry : List Instruction) : Prop :=
  if m.isHandler b then ∃ i, isTake i ∧ entry = [.label (exceptionLabel position), i] else entry = []

lemma store_isTake {dst} (made : store f dst = .ok i) : isTake i := by
  obtain ⟨slot, -, made⟩ := bind_ok.1 made
  cases made
  cases f.method.localType dst <;> rfl

lemma handlerEntry_shape {stmts rest entry} (made : handlerEntry f position stmts = .ok (entry, rest)) :
    ∃ i, isTake i ∧ entry = [.label (exceptionLabel position), i] := by
  unfold handlerEntry at made
  split at made
  · obtain ⟨i, stored, made⟩ := bind_ok.1 made
    cases made
    exact ⟨i, store_isTake stored, rfl⟩
  · cases made
    exact ⟨_, rfl, rfl⟩

/-- The entry of a block and the statements left for the block proper. -/
def enteredBy (f : Frame) (b : BlockId) (position : Nat) (block : Block) :
    List Instruction × List Stmt :=
  if f.method.isHandler b then (handlerEntry f position block.stmts).toOption.getD ([], block.stmts)
  else ([], block.stmts)

lemma enteredBy_shape {block}
    (made : f.method.isHandler b → ∃ r, handlerEntry f position block.stmts = .ok r) :
    EntryShape f.method b position (enteredBy f b position block).1 := by
  rw [EntryShape, enteredBy]
  split
  · rename_i handles
    obtain ⟨⟨entry, stmts⟩, entered⟩ := made handles
    rw [entered]
    exact handlerEntry_shape entered
  · rfl

/-- The parts of a block's code. -/
lemma blockCode_ok (made : blockCode f b position next = .ok c) :
    ∃ block calm rest ending, f.method.block? b = some block ∧
      EntryShape f.method b position (enteredBy f b position block).1 ∧
      stmtsCode f ((enteredBy f b position block).2.takeWhile (!Stmt.canThrow ·)) = .ok calm ∧
      stmtsCode f ((enteredBy f b position block).2.dropWhile (!Stmt.canThrow ·)) = .ok rest ∧
      terminatorCode f next block.terminator = .ok ending ∧
      c = ⟨(enteredBy f b position block).1, calm, rest ++ ending, isGuarded f.method b block⟩ := by
  unfold blockCode at made
  split at made
  · simp at made
  · rename_i block found
    have entered : (f.method.isHandler b → ∃ r, handlerEntry f position block.stmts = .ok r) ∧ ((do
        let calm ← stmtsCode f ((enteredBy f b position block).2.takeWhile (!Stmt.canThrow ·))
        let rest ← stmtsCode f ((enteredBy f b position block).2.dropWhile (!Stmt.canThrow ·))
        let ending ← terminatorCode f next block.terminator
        .ok ⟨(enteredBy f b position block).1, calm, rest ++ ending, isGuarded f.method b block⟩ :
          Except Failure BlockCode).mapError (·.within ("block " ++ b.text))) = .ok c := by
      split at made
      · rename_i handles
        obtain ⟨⟨entry, stmts⟩, entered, made⟩ := bind_ok.1 made
        rw [enteredBy, if_pos handles, entered]
        exact ⟨fun _ => ⟨_, rfl⟩, made⟩
      · rename_i plain
        rw [enteredBy, if_neg plain]
        exact ⟨fun handles => absurd handles plain, made⟩
    obtain ⟨taken, made⟩ := entered
    obtain ⟨calm, calmed, made⟩ := bind_ok.1 (mapError_ok.1 made)
    obtain ⟨rest, rested, made⟩ := bind_ok.1 made
    obtain ⟨ending, ended, made⟩ := bind_ok.1 made
    cases made
    exact ⟨block, calm, rest, ending, found, enteredBy_shape taken, calmed, rested, ended, rfl⟩

/-- The code of a block: an entry, the start label, and the code of its terminator behind all else. -/
lemma blockCode_parts (made : blockCode f b position next = .ok c) :
    ∃ block middle ending, f.method.block? b = some block ∧
      terminatorCode f next block.terminator = .ok ending ∧ EntryShape f.method b position c.entry ∧
      c.instructions position =
        c.entry ++ .label (startLabel position) :: (middle ++ ending ++ [.label (endLabel position)]) := by
  obtain ⟨block, calm, rest, ending, found, shape, calmed, rested, ended, rfl⟩ := blockCode_ok made
  exact ⟨block, calm ++ (if isGuarded f.method b block then [.label (throwsLabel position)] else []) ++
    rest, ending, found, ended, shape, by simp [BlockCode.instructions]⟩

lemma enteredBy_stmts {block} : ∀ s ∈ (enteredBy f b position block).2, s ∈ block.stmts := by
  intro s mem
  rw [enteredBy] at mem
  split at mem
  · cases entered : handlerEntry f position block.stmts with
    | error e => simpa [entered, Except.toOption] using mem
    | ok r =>
      rw [entered] at mem
      unfold handlerEntry at entered
      split at entered
      · rename_i l rest same
        obtain ⟨i, -, made⟩ := bind_ok.1 entered
        cases made
        exact same ▸ mem_cons_of_mem _ mem
      · cases entered
        exact mem
  · exact mem

/-- What an instruction of a block's code is there for. -/
inductive Origin (f : Frame) (block : Block) : Instruction → Prop
  | label (l : Stack.Label) : Origin f block (.label l)
  | take {i : Instruction} (takes : isTake i = true) : Origin f block i
  | stmt {s i} (among : s ∈ block.stmts) (part : Piece f s.values s.site? i) :
      Origin f block i
  | terminator {i : Instruction} (part : Piece f block.terminator.values none i) : Origin f block i

lemma stmtsCode_origin {block stmts} (made : stmtsCode f stmts = .ok code)
    (sub : ∀ s ∈ stmts, s ∈ (enteredBy f b position block).2) (inside : i ∈ code) : Origin f block i := by
  obtain ⟨parts, each, made⟩ := bind_ok.1 made
  cases made
  obtain ⟨part, there, inside⟩ := mem_flatten.1 inside
  obtain ⟨s, among, here⟩ := Lists.forall₂_mem_right (mapM_ok.1 each) there
  have among := enteredBy_stmts s (sub s among)
  rcases stmtCode_pieces here with ⟨-, pieces⟩ | ⟨_, _, -, rfl⟩ | ⟨_, _, -, -, rfl⟩ |
    ⟨dst, e, body, last, rfl, -, -, pieces, stored, rfl⟩
  · exact .stmt among (pieces i inside)
  · cases inside
  · cases inside
  · rcases mem_append.1 inside with inner | same
    · exact .stmt among (pieces i inner)
    · exact mem_singleton.1 same ▸ .take (store_isTake stored)

lemma blockCode_origin (made : blockCode f b position next = .ok c) (inside : i ∈ c.instructions position) :
    ∃ block, f.method.block? b = some block ∧ Origin f block i := by
  obtain ⟨block, calm, rest, ending, found, shape, calmed, rested, ended, rfl⟩ := blockCode_ok made
  refine ⟨block, found, ?_⟩
  simp only [BlockCode.instructions, mem_append, mem_cons, not_mem_nil, or_false] at inside
  rcases inside with (((entry | rfl | inCalm) | mark) | inRest | inEnding) | rfl
  · unfold EntryShape at shape
    split at shape
    · obtain ⟨j, takes, whole⟩ := shape
      rw [whole, mem_pair] at entry
      rcases entry with rfl | rfl
      · exact .label _
      · exact .take takes
    · rw [shape] at entry
      cases entry
  · exact .label _
  · exact stmtsCode_origin calmed (fun s => (takeWhile_sublist _).mem) inCalm
  · split at mark
    · exact mem_singleton.1 mark ▸ .label _
    · cases mark
  · exact stmtsCode_origin rested (fun s => (dropWhile_sublist _).mem) inRest
  · exact .terminator (terminatorCode_pieces ended i inEnding)
  · exact .label _

/-! ## The labels of a segment -/

def label? : Instruction → Option Stack.Label
  | .label l => some l
  | _ => none

def labelsOf (code : List Instruction) : List Stack.Label := code.filterMap label?

variable {l : Stack.Label}

lemma label?_eq_some : label? i = some l ↔ i = .label l := by
  cases i <;> simp [label?]

lemma mem_labelsOf : l ∈ labelsOf code ↔ .label l ∈ code := by
  simp [labelsOf, label?_eq_some]

lemma labelsOf_append (code code' : List Instruction) :
    labelsOf (code ++ code') = labelsOf code ++ labelsOf code' := filterMap_append

lemma Unlabelled.labelsOf (unlabelled : Unlabelled code) : labelsOf code = [] :=
  eq_nil_iff_forall_not_mem.2 fun l mem => unlabelled l (mem_labelsOf.1 mem)

lemma EntryShape.labelsOf {m} (shape : EntryShape m b position code) :
    labelsOf code = if m.isHandler b then [exceptionLabel position] else [] := by
  unfold EntryShape at shape
  split at shape
  · rename_i handles
    obtain ⟨i, takes, rfl⟩ := shape
    rw [if_pos handles]
    cases i <;> first | rfl | cases takes
  · rename_i plain
    rw [if_neg plain, shape]
    rfl

lemma EntryShape.label {m} (shape : EntryShape m b position code) (mem : .label l ∈ code) :
    l = exceptionLabel position := by
  rw [← mem_labelsOf, shape.labelsOf, mem_ite_nil_right] at mem
  exact mem_singleton.1 mem.2

/-- The labels of the segment of a block, in order. -/
def segmentLabels (m : Method) (b : BlockId) (block : Block) (position : Nat) : List Stack.Label :=
  (if m.isHandler b then [exceptionLabel position] else []) ++ startLabel position ::
    ((if isGuarded m b block then [throwsLabel position] else []) ++ [endLabel position])

lemma segment_labelsOf (made : blockCode f b position next = .ok c) : ∃ block,
    f.method.block? b = some block ∧
      labelsOf (c.instructions position) = segmentLabels f.method b block position := by
  obtain ⟨block, calm, rest, ending, found, shape, calmed, rested, ended, rfl⟩ := blockCode_ok made
  refine ⟨block, found, ?_⟩
  have start (l : Stack.Label) (code : List Instruction) :
      labelsOf (.label l :: code) = l :: labelsOf code := rfl
  have mark : labelsOf (if isGuarded f.method b block then [.label (throwsLabel position)] else []) =
      if isGuarded f.method b block then [throwsLabel position] else [] := by
    split <;> rfl
  simp only [BlockCode.instructions, labelsOf_append, start, mark, shape.labelsOf,
    (stmtsCode_unlabelled calmed).labelsOf, (stmtsCode_unlabelled rested).labelsOf,
    (terminatorCode_unlabelled ended).labelsOf, append_assoc, cons_append, nil_append]
  rfl

lemma throwsLabel_place (n : Nat) : (throwsLabel n).number / 4 = n := by
  simp only [throwsLabel]
  omega

lemma endLabel_place (n : Nat) : (endLabel n).number / 4 = n := by
  simp only [endLabel]
  omega

lemma segment_labels (made : blockCode f b position next = .ok c)
    (mem : .label l ∈ c.instructions position) : l.number / 4 = position := by
  obtain ⟨block, -, labels⟩ := segment_labelsOf made
  rw [← mem_labelsOf, labels, segmentLabels] at mem
  simp only [mem_append, mem_cons, not_mem_nil, or_false, mem_ite_nil_right] at mem
  rcases mem with ⟨-, rfl⟩ | rfl | ⟨-, rfl⟩ | rfl <;>
    simp only [exceptionLabel, startLabel, throwsLabel, endLabel] <;> omega

/-- Segments one after the other, the first at a position. -/
def emitted : Nat → List BlockCode → List Instruction
  | _, [] => []
  | position, c :: rest => c.instructions position ++ emitted (position + 1) rest

lemma emitted_eq_flatten (position : Nat) (codes : List BlockCode) :
    ((codes.zipIdx position).map fun (c, i) => c.instructions i).flatten = emitted position codes := by
  induction codes generalizing position with
  | nil => rfl
  | cons c codes ih =>
    rw [zipIdx_cons, map_cons, flatten_cons, ih]
    rfl

lemma blockCodes_cons {layout} (made : blockCodes f position (b :: layout) = .ok codes) :
    ∃ c rest, blockCode f b position layout.head? = .ok c ∧
      blockCodes f (position + 1) layout = .ok rest ∧ codes = c :: rest := by
  obtain ⟨c, first, made⟩ := bind_ok.1 made
  obtain ⟨rest, others, made⟩ := bind_ok.1 made
  cases made
  exact ⟨c, rest, first, others, rfl⟩

section Codes

variable {layout : List BlockId} (made : blockCodes f position layout = .ok codes)
include made

lemma emitted_labels (mem : Instruction.label l ∈ emitted position codes) : position ≤ l.number / 4 := by
  induction layout generalizing position codes with
  | nil =>
    cases made
    cases mem
  | cons b layout ih =>
    obtain ⟨c, rest, first, others, rfl⟩ := blockCodes_cons made
    rcases mem_append.1 mem with here | later
    · exact Nat.le_of_eq (segment_labels first here).symm
    · exact Nat.le_of_succ_le (ih others later)

lemma blockCodes_spec : codes.length = layout.length ∧ ∀ n b, layout[n]? = some b →
      ∃ c, codes[n]? = some c ∧ blockCode f b (position + n) layout[n + 1]? = .ok c := by
  induction layout generalizing position codes with
  | nil => cases made; simp
  | cons b layout ih =>
    obtain ⟨c, rest, first, others, rfl⟩ := blockCodes_cons made
    obtain ⟨same, each⟩ := ih others
    refine ⟨by simp [same], fun n b' found => ?_⟩
    cases n with
    | zero =>
      simp only [getElem?_cons_zero, Option.some.injEq] at found
      subst found
      exact ⟨c, rfl, by simpa [head?_eq_getElem?] using first⟩
    | succ n =>
      obtain ⟨d, there, code⟩ := each n b' (by simpa using found)
      refine ⟨d, by simpa using there, ?_⟩
      rw [show position + (n + 1) = position + 1 + n by omega]
      simpa using code

/-- The segment of the block at place `n`, with what stands before and behind it. -/
lemma emitted_segment {n} (at_ : layout[n]? = some b) :
    ∃ c before after, blockCode f b (position + n) layout[n + 1]? = .ok c ∧
      emitted position codes = before ++ c.instructions (position + n) ++ after ∧
      (∀ l, Instruction.label l ∈ before → l.number / 4 < position + n) ∧
      (∀ l, Instruction.label l ∈ after → position + n < l.number / 4) ∧ ∀ b', layout[n + 1]? = some b' →
        ∃ d after', blockCode f b' (position + n + 1) layout[n + 2]? = .ok d ∧
          after = d.instructions (position + n + 1) ++ after' := by
  induction layout generalizing position codes n with
  | nil => simp at at_
  | cons a layout ih =>
    obtain ⟨c, rest, first, others, rfl⟩ := blockCodes_cons made
    cases n with
    | zero =>
      obtain rfl : a = b := by simpa using at_
      refine ⟨c, [], emitted (position + 1) rest, by simpa [head?_eq_getElem?] using first, rfl, by simp,
        fun l mem => emitted_labels others mem, fun b' next => ?_⟩
      cases layout with
      | nil => cases next
      | cons a' layout =>
        obtain rfl : a' = b' := by simpa using next
        obtain ⟨d, rest', second, -, rfl⟩ := blockCodes_cons others
        exact ⟨d, emitted (position + 2) rest', by simpa [head?_eq_getElem?] using second, rfl⟩
    | succ n =>
      obtain ⟨d, before, after, code, whole, low, high, next⟩ := ih others (by simpa using at_)
      rw [Nat.add_right_comm position 1 n] at code whole low high next
      refine ⟨d, c.instructions position ++ before, after, code,
        by simp [emitted, whole, Nat.add_assoc], fun l mem => ?_, high, next⟩
      rcases mem_append.1 mem with mine | theirs
      · have := segment_labels first mine
        omega
      · exact low l theirs

/-- The labels of the blocks of the layout are in the code. -/
lemma emitted_holds {n} (at_ : layout[n]? = some b) : ∃ block, f.method.block? b = some block ∧
    ∀ l ∈ segmentLabels f.method b block (position + n), .label l ∈ emitted position codes := by
  obtain ⟨c, before, after, code, whole, -⟩ := emitted_segment made at_
  obtain ⟨block, found, labels⟩ := segment_labelsOf code
  refine ⟨block, found, fun l mem => ?_⟩
  rw [← labels, mem_labelsOf] at mem
  rw [whole]
  exact mem_append_left _ (mem_append_right _ mem)

end Codes

lemma lower_segments {m body} (lowered : lower m = .ok body) :
    ∃ slots, assignSlots m = .ok slots ∧ ∀ n b, m.layout[n]? = some b →
      ∃ c before after, blockCode (frameOf m slots) b n m.layout[n + 1]? = .ok c ∧
        body.instructions = before ++ c.instructions n ++ after ∧
        (∀ l, Instruction.label l ∈ before → l.number / 4 < n) ∧
        (∀ l, Instruction.label l ∈ after → n < l.number / 4) ∧ ∀ b', m.layout[n + 1]? = some b' →
          ∃ d after', blockCode (frameOf m slots) b' (n + 1) m.layout[n + 2]? = .ok d ∧
            after = d.instructions (n + 1) ++ after' := by
  obtain ⟨slots, assigned, lowered⟩ := bind_ok.1 lowered
  obtain ⟨codes, made, lowered⟩ := bind_ok.1 lowered
  cases lowered
  refine ⟨slots, assigned, fun n b at_ => ?_⟩
  have segment := emitted_segment made at_
  rwa [Nat.zero_add, ← emitted_eq_flatten] at segment

lemma lower_origin {m body} (lowered : lower m = .ok body)
    (inside : i ∈ body.instructions) : ∃ slots b block, m.block? b = some block ∧
      Origin (frameOf m slots) block i := by
  obtain ⟨slots, -, lowered⟩ := bind_ok.1 lowered
  obtain ⟨codes, made, lowered⟩ := bind_ok.1 lowered
  cases lowered
  obtain ⟨part, there, inside⟩ := mem_flatten.1 inside
  obtain ⟨⟨c, n⟩, among, rfl⟩ := mem_map.1 there
  obtain ⟨same, each⟩ := blockCodes_spec made
  have bound : n < m.layout.length := same ▸ snd_lt_of_mem_zipIdx among
  obtain ⟨c', here, coded⟩ := each n _ (getElem?_eq_getElem bound)
  cases (mem_zipIdx_iff_getElem?.1 among).symm.trans here
  rw [Nat.zero_add] at coded
  exact ⟨slots, _, blockCode_origin coded inside⟩

end Restack.Lowering
