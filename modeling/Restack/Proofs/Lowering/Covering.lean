/-
# Where the ranges of the exception table lie

An entry of the table is over labels, over the guarded parts of blocks, and over the
entries of handlers that begin with their guarded part (`covered_place`). Where a
block has code in front of its guarded part, a range ends before the block or opens at
its throws label.
-/
import Restack.Proofs.Lowering.Flows
import Restack.Proofs.Lowering.Table
import Restack.Proofs.Lowering.Transfer

namespace Restack.Lowering

open List Ir
open Stack (Instruction TryCatch)

/-- An instruction of the guarded part of a block; `since` stands between the opening
of the part and the instruction. -/
def InGuarded (f : Frame) (i : Nat) (b : BlockId) (block : Block) (since : List Instruction) : Prop :=
  ∃ n before mid x post after, f.method.layout[n]? = some b ∧ f.method.block? b = some block ∧
    restListing f b n f.method.layout[n + 1]? block = mid ++ x :: post ∧
    listing f = before ++ (calmListing f b n block ++ (mid ++ x :: post)) ++ after ∧
    i = before.length + ((calmListing f b n block).length + mid.length) ∧
    since = mid.map (·.instruction)

/-- An instruction of the entry of a handler, with no code between the entry and the
guarded part of the handler. -/
def AtEntry (f : Frame) (i : Nat) (b : BlockId) (block : Block) (code : List Instruction) : Prop :=
  ∃ n stmts before after, f.method.layout[n]? = some b ∧ f.method.block? b = some block ∧
    handlerEntry f n block.stmts = .ok (code, stmts) ∧
    stmtsCode f (stmts.takeWhile (!Stmt.canThrow ·)) = .ok [] ∧
    listing f = before ++ code.map (⟨b, .entry, ·⟩) ++ after ∧
    before.length ≤ i ∧ i < before.length + code.length

section Places

variable {f : Frame} {b : BlockId} {n : Nat} {block : Block}

/-- Labels and code of a block in front of the throws label. -/
def headListing (f : Frame) (b : BlockId) (position : Nat) (block : Block) : List Emission :=
  (enteredBy f b position block).1.map (⟨b, .entry, ·⟩) ++
    ⟨b, .label, .label (startLabel position)⟩ ::
      stmtsListing f b ((enteredBy f b position block).2.takeWhile (!Stmt.canThrow ·))

lemma calmListing_eq (f : Frame) (b : BlockId) (position : Nat) (block : Block) :
    calmListing f b position block = headListing f b position block ++
      if isGuarded f.method b block then [⟨b, .label, .label (throwsLabel position)⟩] else [] := by
  simp [calmListing, headListing]

lemma headListing_unopened {calm : List Instruction}
    (shape : EntryShape f.method b n (enteredBy f b n block).1)
    (calmed : stmtsCode f ((enteredBy f b n block).2.takeWhile (!Stmt.canThrow ·)) = .ok calm) :
    .label (throwsLabel n) ∉ (headListing f b n block).map (·.instruction) := by
  intro mem
  simp only [headListing, map_append, map_cons, mem_append, mem_cons,
    stmtsListing_instructions calmed, map_map] at mem
  rcases mem with entry | start | inCalm
  · have inEntry : .label (throwsLabel n) ∈ (enteredBy f b n block).1 := by simpa using entry
    simpa [throwsLabel, exceptionLabel] using shape.label inEntry
  · simp [throwsLabel, startLabel] at start
  · exact stmtsCode_unlabelled calmed _ inCalm

variable {codes : List BlockCode} {opens : Nat → Bool} {i : Nat} {x : Emission} {t : Trap}
  {e : TryCatch}

/-- A place in a range that is in front of the throws label of its block: the range
opens in an earlier block, and the block has no code in front of its guarded part. -/
lemma Place.calm (made : blockCodes f 0 f.method.layout = .ok codes)
    (marks : ∀ n c, codes[n]? = some c → opens n = c.hasCalm)
    {before pre post after : List Emission} (place : Place f i x n before pre post after)
    (here : f.method.block? x.block = some block) {within : List Emission}
    (head : headListing f x.block n block = pre ++ x :: within) (trap : t ∈ f.method.traps)
    (entry : e ∈ trapEntries f opens t) (hits : covers ((listing f).map (·.instruction)) e i = true) :
    stmtsCode f ((enteredBy f x.block n block).2.takeWhile (!Stmt.canThrow ·)) = .ok [] := by
  obtain ⟨c, at_, code⟩ := (blockCodes_spec made).2 n x.block place.listed
  rw [Nat.zero_add] at code
  obtain ⟨block', calm, rest, ending, found, shape, calmed, rested, ended, rfl⟩ := blockCode_ok code
  cases here.symm.trans found
  obtain ⟨r, mem, starts, low, high, covered, _, found, throws⟩ := place.in_trap rfl made trap entry hits
  cases here.symm.trans found
  -- the range does not open in this block, where the label is still to come
  have opened : r.1 ≠ n := by
    rintro rfl
    obtain ⟨start, stop, found, -, le, -⟩ := covers_iff.1 hits
    rw [starts, place.split rfl] at found
    have absent : .label (throwsLabel r.1) ∉ (before ++ (pre ++ [x])).map (·.instruction) := by
      intro among
      rw [map_append, mem_append] at among
      rcases among with early | mine
      · have := place.earlier _ early
        rw [throwsLabel_place] at this
        omega
      · refine headListing_unopened shape calmed ?_
        rw [head, ← singleton_append, ← append_assoc, map_append]
        exact mem_append_left _ mine
    have := labelAt_right absent found
    simp only [length_map, length_append, length_cons] at this
    have := place.index
    omega
  have shut := (marks n _ at_).symm.trans (rangesOf_inner mem (by omega) high)
  have guarded := isGuarded_of_covered trap covered throws
  rw [BlockCode.hasCalm, guarded, Bool.true_and, Bool.not_eq_false', List.isEmpty_iff] at shut
  rw [calmed]
  exact congrArg _ shut

lemma entry_place {before pre post after : List Emission}
    (place : Place f i x n before pre post after) (here : f.method.block? x.block = some block)
    (calm : stmtsCode f ((enteredBy f x.block n block).2.takeWhile (!Stmt.canThrow ·)) = .ok [])
    {left tail : List Emission}
    (inEntry : (enteredBy f x.block n block).1.map (⟨x.block, .entry, ·⟩) = pre ++ x :: left)
    (behind : post = left ++ tail) : AtEntry f i x.block block (enteredBy f x.block n block).1 := by
  have some_ : (enteredBy f x.block n block).1 ≠ [] := by
    rintro empty
    rw [empty] at inEntry
    simp at inEntry
  obtain ⟨⟨code, stmts⟩, made, same⟩ : ∃ r, handlerEntry f n block.stmts = .ok r ∧
      enteredBy f x.block n block = r := by
    rw [enteredBy] at some_ ⊢
    split at some_
    · cases made : handlerEntry f n block.stmts with
      | error e => simp [made, Except.toOption] at some_
      | ok r => exact ⟨r, rfl, by simp [*, Except.toOption]⟩
    · exact absurd rfl some_
  rw [same] at calm inEntry ⊢
  have length := congrArg length inEntry
  simp only [length_map, length_append, length_cons] at length
  have index := place.index
  refine ⟨n, stmts, before, tail ++ after, place.listed, here, made, calm, ?_, by omega, by dsimp only; omega⟩
  rw [place.whole, inEntry, behind]
  simp

/-- An entry of the table is over labels, over guarded parts, and over the entries of
handlers that go on with their guarded part. -/
lemma covered_place (made : blockCodes f 0 f.method.layout = .ok codes)
    (marks : ∀ n c, codes[n]? = some c → opens n = c.hasCalm) (at_ : (listing f)[i]? = some x)
    (trap : t ∈ f.method.traps) (entry : e ∈ trapEntries f opens t)
    (hits : covers ((listing f).map (·.instruction)) e i = true) :
    x.part = .label ∨ (∃ block code, AtEntry f i x.block block code) ∨
      ∃ block since, InGuarded f i x.block block since := by
  obtain ⟨n, before, pre, post, after, place⟩ := listing_place made at_
  obtain ⟨c, at_, code⟩ := (blockCodes_spec made).2 n x.block place.listed
  obtain ⟨block, calm, rest, ending, here, shape, calmed, rested, ended, rfl⟩ := blockCode_ok code
  have segment := place.segment
  rw [blockListing, here] at segment
  rcases Lists.append_split segment with ⟨within, front, behind⟩ | ⟨inner, front, back⟩
  · rw [calmListing_eq] at front
    rcases Lists.append_split front with ⟨later, head, within_⟩ | ⟨later, -, mark⟩
    · have still := place.calm made marks here head trap entry hits
      rcases Lists.append_split head with ⟨left, inEntry, later_⟩ | ⟨rest, -, others⟩
      · rw [within_, later_, append_assoc, append_assoc] at behind
        exact .inr (.inl ⟨block, _, entry_place place here still inEntry behind⟩)
      · have none_ : stmtsListing f x.block
            ((enteredBy f x.block n block).2.takeWhile (!Stmt.canThrow ·)) = [] :=
          map_eq_nil_iff.1 (stmtsListing_instructions still)
        rw [none_] at others
        have same : x ∈ [(⟨x.block, .label, .label (startLabel n)⟩ : Emission)] := by rw [others]; simp
        rw [mem_singleton.1 same]
        exact .inl rfl
    · have same : x ∈ [(⟨x.block, .label, .label (throwsLabel n)⟩ : Emission)] := by
        split at mark
        · rw [mark]
          simp
        · simp at mark
      rw [mem_singleton.1 same]
      exact .inl rfl
  · rcases Lists.append_split back with ⟨later, rest, behind⟩ | ⟨later, -, last⟩
    · refine .inr (.inr ⟨block, _, n, before, inner, x, later,
        ⟨x.block, .label, .label (endLabel n)⟩ :: after, place.listed, here, rest, ?_, ?_, rfl⟩)
      · rw [place.whole, front, behind]
        simp
      · rw [place.index, front, length_append]
    · have same : x ∈ [(⟨x.block, .label, .label (endLabel n)⟩ : Emission)] := by rw [last]; simp
      rw [mem_singleton.1 same]
      exact .inl rfl

lemma catches_of_covers (made : blockCodes f 0 f.method.layout = .ok codes)
    (at_ : (listing f)[i]? = some x) (trap : t ∈ f.method.traps) (entry : e ∈ trapEntries f opens t)
    (hits : covers ((listing f).map (·.instruction)) e i = true) {h}
    (handles : h ∈ t.handlers) : h.target ∈ f.method.exceptionalSuccessors x.block := by
  obtain ⟨n, before, pre, post, after, place⟩ := listing_place made at_
  obtain ⟨-, -, -, -, -, covered, block, found, throws⟩ := place.in_trap rfl made trap entry hits
  exact (Method.mem_exceptionalSuccessors found).2 ⟨throws, t, trap, covered, h, handles, rfl⟩

end Places

end Restack.Lowering
