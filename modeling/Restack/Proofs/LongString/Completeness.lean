/-
# Rebuilding long strings is complete

With a decoder at hand, rebuilding leaves no operand of a statement or terminator that takes
more bytes than allowed, and changes nothing but the operands that did
(`rebuildStrings_swaps`). The pieces of a string spell its units, and the decoder that comes
with the converter reads them back (`hexChunks_encodes`).
-/
import Restack.Proofs.LongString.Swapping
import Restack.Proofs.Lowering.Faults

namespace Restack.LongString

open List Ir
open Register (MethodRef)

/-- The units that digits spell, four digits each. -/
def spelled? : List Nat → Option (List Nat)
  | [] => some []
  | a :: b :: c :: d :: rest =>
    (digits? 16 0 [a, b, c, d]).bind fun u => (spelled? rest).map (u :: ·)
  | _ => none

lemma spelled?_digits {us : List Nat} (small : ∀ u ∈ us, u < 65536) : spelled? (digits us) = some us := by
  induction us with
  | nil => rfl
  | cons u us ih =>
    obtain ⟨first, later⟩ := forall_mem_cons.1 small
    have spelt := digits?_unitDigits first
    have whole : digits (u :: us) = unitDigits u ++ digits us := flatMap_cons
    obtain ⟨a, b, c, d, four⟩ : ∃ a b c d, unitDigits u = [a, b, c, d] := ⟨_, _, _, _, rfl⟩
    rw [four] at spelt
    rw [whole, four, cons_append, cons_append, cons_append, cons_append, nil_append, spelled?, spelt,
      ih later]
    rfl

/-- Pieces that spell the units of a string, from which the decoder makes the string, unless there
are too many for it to count. -/
structure Encodes (s : String) (chunks : List String) : Prop where
  spells : spelled? (chunks.map Text.units).flatten = some (Text.units s)
  decodes : (Text.units s).length < 0x20000000 → ∃ n, (Machine.start decodeStringBody.instructions
    [.texts (chunks.map Text.units)]).run decoder n = .ok (.returned (.text (Text.units s)))

lemma hexChunks_encodes (s : String) (limit : Nat) : Encodes s (hexChunks s limit) := by
  have positive : 0 < unitsPerChunk limit := by
    rw [unitsPerChunk]
    omega
  have whole : (pieces (unitsPerChunk limit) (Text.units s)).flatten = Text.units s :=
    pieces_flatten positive _
  have texts : (hexChunks s limit).map Text.units =
      (pieces (unitsPerChunk limit) (Text.units s)).map digits := by
    simp only [hexChunks, map_map, Function.comp_def, units_hexText]
  have small : ∀ piece ∈ pieces (unitsPerChunk limit) (Text.units s), ∀ u ∈ piece, u < 65536 :=
    fun piece mem u inside => unit_lt (whole ▸ mem_flatten.2 ⟨piece, mem, inside⟩)
  have joined (ps : List (List Nat)) : (ps.map digits).flatten = digits ps.flatten := by
    induction ps with
    | nil => rfl
    | cons p ps ih => rw [map_cons, flatten_cons, ih, flatten_cons, digits, digits, digits, flatMap_append]
  refine ⟨?_, fun short => ?_⟩
  · rw [texts, joined, whole]
    exact spelled?_digits fun u mem => unit_lt mem
  · have few := length_le_flatten fun piece (mem : piece ∈ pieces _ (Text.units s)) =>
      (length_of_mem_pieces positive mem).1
    rw [whole] at few
    have returned := decoder_returns (pieces (unitsPerChunk limit) (Text.units s)) (by omega)
      (fun piece mem => ?_) small
    · rwa [← texts, whole] at returned
    · have := (sublist_flatten_of_mem mem).length_le
      rw [whole] at this
      rw [length_digits]
      omega

section Rebuild

variable {helpers : ClassHelpers} {m : Method} {limit : Nat}

lemma mem_operands (bare : ∀ b block, m.block? b = some block → block.phis = []) {v : Value} :
    v ∈ m.operands ↔ ∃ b block, m.block? b = some block ∧
      v ∈ block.stmts.flatMap Stmt.values ++ block.terminator.values := by
  simp only [Method.operands, mem_flatMap (l := m.blockList), Method.mem_blockList]
  constructor
  · rintro ⟨block, ⟨b, here⟩, operand⟩
    rw [bare b block here] at operand
    exact ⟨b, block, here, operand⟩
  · rintro ⟨b, block, here, operand⟩
    refine ⟨block, ⟨b, here⟩, ?_⟩
    rw [bare b block here]
    exact operand

section Swaps

variable {decoder : MethodRef} {m' : Method} {first last : BlockId → Nat}
  (swaps : Swaps decoder limit m m' m.layout first last)
  (listed : ∀ b, (m.block? b).isSome = true → b ∈ m.layout)

include swaps listed

lemma Swaps.bare (bare : ∀ b block, m.block? b = some block → block.phis = []) (b : BlockId)
    (block' : Block) (there : m'.block? b = some block') : block'.phis = [] := by
  obtain ⟨block, here, swapped, -⟩ := swaps.block listed there
  cases swapped
  exact bare b block here

lemma Swaps.fits (room : 4 ≤ limit) (bare : ∀ b block, m.block? b = some block → block.phis = [])
    (s : String) (operand : .const (.string s) ∈ m'.operands) : Text.modifiedLength s ≤ limit := by
  obtain ⟨b, block', there, among⟩ := (mem_operands (swaps.bare listed bare)).1 operand
  obtain ⟨block, -, swapped, -⟩ := swaps.block listed there
  have short := swapped.short room
  rw [blockHoldsLong_eq, holdsLong, any_eq_false] at short
  simpa [longString?] using short _ among

end Swaps

/-- Rebuilding long strings leaves none that takes more bytes than allowed. Statements and
terminators stay in order and keep all other operands; a long string becomes a local of its own that
gets, just before, what the decoder gives for pieces that spell the string. It tells whether there
was one. What is left is never too long to be lowered. -/
theorem rebuildStrings_complete (bare : ∀ b block, m.block? b = some block → block.phis = [])
    (listed : ∀ b, (m.block? b).isSome = true → b ∈ m.layout) (room : 4 ≤ limit)
    (enabled : helpers.isEnabled = true) :
    (∀ s, .const (.string s) ∈ (helpers.rebuildStrings m limit).2.1.operands →
      Text.modifiedLength s ≤ limit) ∧
    (∃ first last, Swaps (helpers.decoderIn m) limit m (helpers.rebuildStrings m limit).2.1 m.layout
      first last) ∧
    (∀ s, Encodes s (hexChunks s limit)) ∧
    ((helpers.rebuildStrings m limit).2.2 = true ↔
      ∃ s, .const (.string s) ∈ m.operands ∧ limit < Text.modifiedLength s) ∧
    (limit ≤ Text.maxConstantLength → ∀ e bytes,
      Lowering.lower (helpers.rebuildStrings m limit).2.1 = .error e → e.cause ≠ .longString bytes) := by
  obtain ⟨first, last, swaps⟩ := rebuildStrings_swaps (m := m) (.inr room) enabled
  have fits := swaps.fits listed room bare
  refine ⟨fits, ⟨first, last, swaps⟩, fun s => hexChunks_encodes s limit, ?_, fun few e bytes failed => ?_⟩
  · have flag : (helpers.rebuildStrings m limit).2.2 = hasLongString m limit := by
      simp only [ClassHelpers.rebuildStrings, enabled, Bool.and_true]
      split <;> simp_all
    rw [flag, hasLongString_iff]
    constructor
    · rintro ⟨b, block, here, long⟩
      rw [blockHoldsLong_eq, holdsLong, any_eq_true] at long
      obtain ⟨v, operand, long⟩ := long
      obtain ⟨s, found⟩ := Option.isSome_iff_exists.1 long
      obtain ⟨rfl, exceeds⟩ := longString?_some found
      exact ⟨s, (mem_operands bare).2 ⟨b, block, here, operand⟩, exceeds⟩
    · rintro ⟨s, operand, exceeds⟩
      obtain ⟨b, block, here, among⟩ := (mem_operands bare).1 operand
      refine ⟨b, block, here, ?_⟩
      rw [blockHoldsLong_eq, holdsLong, any_eq_true]
      exact ⟨_, among, by rw [longString?, if_pos exceeds]; rfl⟩
  · intro long
    have fault := Lowering.lower_fails _ e failed
    rw [long] at fault
    rcases fault with input | form | ⟨slots, -⟩
    · cases input with
      | longString operand exceeds =>
        exact absurd (Nat.le_trans (fits _ operand) few) (Nat.not_le.2 exceeds)
    · cases form
    · cases slots

end Rebuild

/-- A statement with two long strings, and one more behind it. -/
def wordy : Method where
  owner := "LWordy;"
  name := "run"
  descriptor := "()Ljava/lang/String;"
  isStatic := true
  params := #[]
  returnType := "Ljava/lang/String;"
  blocks := #[some ⟨[], [.effect (.invoke .static
    ⟨"LWordy;", "see", "(Ljava/lang/String;Ljava/lang/String;)V"⟩
    [.const (.string "abcdefgh"), .const (.string "ij😀kl")])], .ret (some (.const (.string "opqrstuv")))⟩]
  layout := [⟨0⟩]
  entry := ⟨0⟩
  traps := []
  locals := #[]

def wordyHelpers : ClassHelpers := .ofClass "Wordy" builtin 0

theorem wordy_complete :
    (∀ b block, wordy.block? b = some block → block.phis = []) ∧
    (∀ b, (wordy.block? b).isSome = true → b ∈ wordy.layout) ∧ wordyHelpers.isEnabled = true ∧
    (wordyHelpers.rebuildStrings wordy 4).2.2 = true ∧
    ∀ s, .const (.string s) ∈ (wordyHelpers.rebuildStrings wordy 4).2.1.operands →
      Text.modifiedLength s ≤ 4 := by
  have one (b : BlockId) (block : Block) (here : wordy.block? b = some block) :
      block.phis = [] ∧ b ∈ wordy.layout := by
    obtain ⟨_ | n⟩ := b
    · cases here
      exact ⟨rfl, by decide⟩
    · simp [Method.block?, wordy] at here
  have bare := fun b block here => (one b block here).1
  have listed (b : BlockId) (found : (wordy.block? b).isSome = true) : b ∈ wordy.layout := by
    obtain ⟨block, here⟩ := Option.isSome_iff_exists.1 found
    exact (one b block here).2
  have enabled : wordyHelpers.isEnabled = true := by decide
  obtain ⟨fits, -, -, flag, -⟩ := rebuildStrings_complete bare listed (Nat.le_refl 4) enabled
  exact ⟨bare, listed, enabled, flag.2 ⟨"abcdefgh", by decide, by decide +kernel⟩, fits⟩

end Restack.LongString
