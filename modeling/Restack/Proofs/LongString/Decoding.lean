/-
# Decoding what was cut into pieces

The decoder that comes with the converter gives back the units of every string that
`hexChunks` cut into pieces (`decoder_undoes_hexChunks`). Its two loops run along the
pieces and along the digits of a piece; what is left to read is what is still missing
in the buffer.
-/
import Restack.LongString.Rebuild
import Restack.Proofs.LongString.Machine

namespace Restack.LongString

open Stack (Instruction)
open List Text

/-! ## Pieces -/

section Pieces

variable {α : Type} {n : Nat}

lemma pieces_eq (xs : List α) :
    pieces n xs = (List.range ((xs.length + n - 1) / n)).map fun i => (xs.drop (i * n)).take n := by
  simp only [pieces, Array.toList_extract, extract_eq_take_drop]
  refine map_congr_left fun i _ => ?_
  rw [Nat.add_sub_cancel_left]

lemma flatten_range (xs : List α) (count : Nat) :
    ((List.range count).map fun i => (xs.drop (i * n)).take n).flatten = xs.take (count * n) := by
  induction count with
  | zero => simp
  | succ count ih =>
    rw [range_succ, map_append, flatten_append, ih, Nat.succ_mul, take_add]
    simp

lemma pieces_flatten (positive : 0 < n) (xs : List α) : (pieces n xs).flatten = xs := by
  rw [pieces_eq, flatten_range]
  refine take_of_length_le ?_
  have := Nat.div_add_mod (xs.length + n - 1) n
  have := Nat.mod_lt (xs.length + n - 1) positive
  rw [Nat.mul_comm]
  omega

lemma length_le_flatten {xss : List (List α)} (filled : ∀ xs ∈ xss, 0 < xs.length) :
    xss.length ≤ xss.flatten.length := by
  induction xss with
  | nil => exact Nat.le_refl 0
  | cons xs xss ih =>
    obtain ⟨first, others⟩ := forall_mem_cons.1 filled
    have := ih others
    rw [flatten_cons, length_append, length_cons]
    omega

lemma length_of_mem_pieces (positive : 0 < n) {xs piece : List α} (mem : piece ∈ pieces n xs) :
    0 < piece.length ∧ piece.length ≤ n := by
  rw [pieces_eq] at mem
  obtain ⟨i, inside, rfl⟩ := mem_map.1 mem
  have bound : (i + 1) * n ≤ xs.length + n - 1 :=
    (Nat.le_div_iff_mul_le positive).1 (mem_range.1 inside)
  rw [Nat.succ_mul] at bound
  simp only [length_take, length_drop]
  omega

end Pieces

/-! ## Digits -/

/-- The units of the digits of a unit. -/
def unitDigits (u : Nat) : List Nat := (lowHex 4 u).map Char.toNat

/-- The units of the digits of several units. -/
def digits (us : List Nat) : List Nat := us.flatMap unitDigits

@[simp] lemma length_unitDigits (u : Nat) : (unitDigits u).length = 4 := by simp [unitDigits, lowHex]

@[simp] lemma length_digits (us : List Nat) : (digits us).length = 4 * us.length := by
  induction us with
  | nil => rfl
  | cons u us ih =>
    rw [digits, flatMap_cons, length_append, length_unitDigits, length_cons]
    rw [digits] at ih
    omega

lemma digits_slice (before after : List Nat) (u : Nat) :
    ((digits (before ++ u :: after)).take (4 * before.length + 4)).drop (4 * before.length) =
      unitDigits u := by
  have front : digits (before ++ u :: after) = digits before ++ (unitDigits u ++ digits after) := by
    simp [digits]
  rw [front, ← length_digits before, take_length_add_append, drop_left]
  exact take_left' (length_unitDigits u)

lemma hexDigit_value : ∀ d < 16, digitValue? (hexDigit d).toNat = some d := by decide

lemma hexDigit_unit : ∀ d < 16, charUnits (hexDigit d) = [(hexDigit d).toNat] := by decide

lemma hexDigit_unsigned : ∀ d < 16, (hexDigit d).toNat ≠ 43 ∧ (hexDigit d).toNat ≠ 45 := by decide

lemma digits?_unitDigits {u} (small : u < 65536) : digits? 16 0 (unitDigits u) = some u := by
  have value (k : Nat) := hexDigit_value (k % 16) (Nat.mod_lt k (by decide))
  have below (k : Nat) : k % 16 < 16 := Nat.mod_lt k (by decide)
  simp only [unitDigits, lowHex, nil_append, cons_append, map_cons, map_nil,
    digits?, value, below, if_true, Option.some.injEq]
  omega

lemma toInt_ofNat {k : Nat} (small : k < 0x80000000) : (Int32.ofNat k).toInt = k :=
  Int32.toInt_ofNat_of_lt small

lemma signed_unitDigits (u : Nat) : signed (unitDigits u) = (false, unitDigits u) := by
  obtain ⟨plus, minus⟩ := hexDigit_unsigned (u / 16 / 16 / 16 % 16) (Nat.mod_lt _ (by decide))
  unfold signed
  split
  · rename_i same
    exact absurd (cons.inj same).1 plus
  · rename_i same
    exact absurd (cons.inj same).1 minus
  · rfl

lemma parseInt?_unitDigits {u} (small : u < 65536) : parseInt? 16 (unitDigits u) = some (Int32.ofNat u) := by
  have some_digits : (unitDigits u).isEmpty = false := rfl
  have radix : (16 : Int32).toInt = 16 := by decide
  have fits : (Int32.ofNat u).toInt = u := toInt_ofNat (by omega)
  rw [parseInt?, signed_unitDigits]
  simp only [some_digits, radix]
  rw [if_neg (by decide), show (16 : Int).toNat = 16 from rfl, digits?_unitDigits small]
  simp only [Option.bind_some, Bool.false_eq_true, if_false, Int32.ofInt_eq_ofNat, fits, if_true]

lemma lowUnit_ofNat {u : Nat} (small : u < 65536) : lowUnit (Int32.ofNat u) = u := by
  rw [lowUnit, toInt_ofNat (by omega)]
  omega

lemma unit_lt {s u} (mem : u ∈ units s) : u < 65536 := by
  obtain ⟨c, -, inside⟩ := mem_flatMap.1 mem
  have valid : c.toNat < 0x110000 := by
    rcases c.valid with low | ⟨-, high⟩
    · exact Nat.lt_trans low (by decide)
    · exact high
  unfold charUnits at inside
  dsimp only at inside
  split at inside
  · rw [mem_singleton.1 inside]
    assumption
  · simp only [mem_cons, not_mem_nil, or_false] at inside
    omega

lemma units_hexText (us : List Nat) : units (String.ofList (us.flatMap (lowHex 4))) = digits us := by
  have unit (k : Nat) := hexDigit_unit (k % 16) (Nat.mod_lt k (by decide))
  have single (u : Nat) : (lowHex 4 u).flatMap charUnits = unitDigits u := by
    simp [unitDigits, lowHex, unit]
  rw [units, String.toList_ofList, flatMap_assoc]
  simp only [single, digits]

/-! ## The decoder for one unit -/

lemma substring_run {us} {j : Nat} (inside : j + 4 ≤ us.length)
    (short : us.length < 0x80000000) (stack : List Word) (heap : Heap) : Routine.substring.run
        (.int (Int32.ofNat j + 4) :: .int (Int32.ofNat j) :: .text us :: stack) heap =
      .ok (.text ((us.take (j + 4)).drop j) :: stack, heap) := by
  have sum : Int32.ofNat j + 4 = Int32.ofNat (j + 4) := (Int32.ofNat_add j 4).symm
  have start : (Int32.ofNat j).toInt = j := toInt_ofNat (by omega)
  have stop : (Int32.ofNat (j + 4)).toInt = (j + 4 : Nat) := toInt_ofNat (by omega)
  rw [Routine.run, sum, start, stop, if_pos ⟨by omega, by omega, by omega⟩]
  rfl

lemma decodeChar_reaches {f callers heap us} {j u : Nat}
    (inside : j + 4 ≤ us.length) (short : us.length < 0x80000000) (small : u < 65536)
    (here : (us.take (j + 4)).drop j = unitDigits u) : Reaches decoder
      ⟨⟨decodeCharBody.instructions, 0, [], [some (.text us), some (.int (Int32.ofNat j))]⟩,
        f :: callers, heap⟩ ⟨{ f with stack := .int (Int32.ofNat u) :: f.stack }, callers, heap⟩ := by
  refine .load rfl (by decide) rfl rfl ?_
  refine .load rfl (by decide) rfl rfl ?_
  refine .load rfl (by decide) rfl rfl ?_
  refine .operate rfl (by decide) rfl ?_
  refine .operate rfl (by decide) rfl ?_
  refine .routine rfl (by decide) (r := .substring) (by decide) (substring_run inside short _ _) ?_
  refine .pushByte rfl ?_
  rw [here]
  refine .routine rfl (by decide) (r := .parseInt) (by decide) (by
    rw [Routine.run, parseInt?_unitDigits small]) ?_
  refine .operate rfl (by decide) rfl ?_
  rw [lowUnit_ofNat small]
  exact .leave rfl (by decide) rfl (.refl _)

/-! ## The loops -/

/-- The decoder at a label: the pieces, the number of the piece that is next or being
read, the slots behind those, and what was appended so far. -/
def atLabel (l : Nat) (parts : List (List Nat)) (i : Nat) (rest : List (Option Word))
    (appended : List Nat) : Machine :=
  ⟨⟨decodeStringBody.instructions, decodeStringBody.instructions.findIdx (Instruction.isLabel ⟨l⟩), [],
    some (.texts parts) :: some (.buffer 0) :: some (.int (Int32.ofNat i)) :: rest⟩, [], [some appended]⟩

lemma decodeChar_takes_two :
    (Signature.methodDescriptor decodeCharDescriptor).toOption.map (·.args.length) = some 2 := by
  decide +kernel

lemma ofNat_le {a b : Nat} (small : a < 0x80000000) (small' : b < 0x80000000) :
    Int32.ofNat a ≤ Int32.ofNat b ↔ a ≤ b := by
  rw [Int32.le_iff_toInt_le, toInt_ofNat small, toInt_ofNat small']
  omega

/-- One turn of the inner loop appends one unit. -/
lemma inner_turn {parts i more before after appended u}
    (short : (digits (before ++ u :: after)).length < 0x80000000) (small : u < 65536) : Reaches decoder
      (atLabel 1 parts i (some (.text (digits (before ++ u :: after))) ::
        some (.int (Int32.ofNat (4 * before.length))) :: more) appended)
      (atLabel 1 parts i (some (.text (digits (before ++ u :: after))) ::
        some (.int (Int32.ofNat (4 * (before ++ [u]).length))) :: more) (appended ++ [u])) := by
  have length : (digits (before ++ u :: after)).length = 4 * before.length + 4 * after.length + 4 := by
    simp only [length_digits, length_append, length_cons]
    omega
  have next : Int32.ofNat (4 * before.length) + (4 : Int16).toInt32 =
      Int32.ofNat (4 * (before ++ [u]).length) := by
    rw [length_append, Nat.mul_add, Int32.ofNat_add]
    rfl
  refine .label rfl ?_
  refine .load rfl (by decide) rfl rfl ?_
  refine .load rfl (by decide) rfl rfl ?_
  refine .routine rfl (by decide) (r := .length) (by decide) rfl ?_
  refine .passed rfl (by rw [ofNat_le short (by omega)]; omega) ?_
  refine .load rfl (by decide) rfl rfl ?_
  refine .load rfl (by decide) rfl rfl ?_
  refine .load rfl (by decide) rfl rfl ?_
  refine .call [.text _, .int _] rfl rfl decodeChar_takes_two ?_
  refine (decodeChar_reaches (by omega) short small (digits_slice before after u)).trans ?_
  refine .routine rfl (by decide) (r := .append) (by decide) rfl ?_
  rw [lowUnit_ofNat small]
  refine .operate rfl (by decide) rfl ?_
  refine .increment rfl rfl ?_
  rw [next]
  exact .goto rfl (.refl _)

lemma inner_reaches (parts : List (List Nat)) (i : Nat) (more : List (Option Word))
    (before appended : List Nat) {after}
    (short : (digits (before ++ after)).length < 0x80000000) (small : ∀ u ∈ after, u < 65536) :
    ∃ rest, Reaches decoder (atLabel 1 parts i (some (.text (digits (before ++ after))) ::
        some (.int (Int32.ofNat (4 * before.length))) :: more) appended)
      (atLabel 2 parts i rest (appended ++ after)) := by
  induction after generalizing before appended with
  | nil =>
    have length : (digits (before ++ [])).length = 4 * before.length := by simp
    refine ⟨some (.text (digits (before ++ []))) :: some (.int (Int32.ofNat (4 * before.length))) :: more, ?_⟩
    refine .label rfl ?_
    refine .load rfl (by decide) rfl rfl ?_
    refine .load rfl (by decide) rfl rfl ?_
    refine .routine rfl (by decide) (r := .length) (by decide) rfl ?_
    refine .taken rfl (by rw [length]; exact Int32.le_refl _) ?_
    rw [append_nil appended]
    exact .refl _
  | cons u after ih =>
    have here := forall_mem_cons.1 small
    have whole : before ++ u :: after = (before ++ [u]) ++ after := by simp
    obtain ⟨rest, later⟩ := ih (before ++ [u]) (appended ++ [u]) (whole ▸ short) here.2
    refine ⟨rest, (inner_turn short here.1).trans ?_⟩
    simpa using later

lemma aaload_here {parts} {n : Nat} {part} (small : n < 0x80000000)
    (here : parts[n]? = some part) (stack : List Word) :
    operate .aaload (.int (Int32.ofNat n) :: .texts parts :: stack) = .ok (.text part :: stack) := by
  have index : (Int32.ofNat n).toInt = n := toInt_ofNat small
  change (if (Int32.ofNat n).toInt < 0 then _ else _) = _
  rw [index, if_neg (by omega), Int.toNat_natCast, here]

/-- One turn of the outer loop appends one piece. -/
lemma outer_turn (rest : List (Option Word)) (appended : List Nat) {before after piece}
    (short : (digits piece).length < 0x80000000) (few : (before ++ piece :: after).length < 0x80000000)
    (small : ∀ u ∈ piece, u < 65536) : ∃ rest', Reaches decoder
      (atLabel 0 ((before ++ piece :: after).map digits) before.length rest appended)
      (atLabel 0 ((before ++ piece :: after).map digits) (before ++ [piece]).length rest'
        (appended ++ piece)) := by
  have count : (before ++ piece :: after).length = before.length + after.length + 1 := by
    simp only [length_append, length_cons]
    omega
  have here : ((before ++ piece :: after).map digits)[before.length]? = some (digits piece) := by simp
  have next : Int32.ofNat before.length + (1 : Int16).toInt32 = Int32.ofNat (before ++ [piece]).length := by
    rw [length_append, Int32.ofNat_add]
    rfl
  -- The first turn makes the slots of the piece and the position, later ones find them.
  obtain ⟨more, stored⟩ : ∃ more, ∀ v w, storeSlot (storeSlot rest 0 v) 1 w = some v :: some w :: more := by
    match rest with
    | [] => exact ⟨[], fun _ _ => rfl⟩
    | [_] => exact ⟨[], fun _ _ => rfl⟩
    | _ :: _ :: more => exact ⟨more, fun _ _ => rfl⟩
  obtain ⟨rest', inner⟩ := inner_reaches ((before ++ piece :: after).map digits) before.length more []
    appended short small
  refine ⟨rest', ?_⟩
  refine .label rfl ?_
  refine .load rfl (by decide) rfl rfl ?_
  refine .load rfl (by decide) rfl rfl ?_
  refine .operate rfl (by decide) rfl ?_
  refine .passed rfl (by rw [length_map, ofNat_le few (by omega)]; omega) ?_
  refine .load rfl (by decide) rfl rfl ?_
  refine .load rfl (by decide) rfl rfl ?_
  refine .operate rfl (by decide) (aaload_here (by omega) here _) ?_
  refine .store rfl (by decide) (by decide) rfl ?_
  refine .operate rfl (by decide) rfl ?_
  refine .store rfl (by decide) (by decide) rfl ?_
  change Reaches decoder ⟨⟨_, _, _, _ :: _ :: _ :: storeSlot (storeSlot rest 0 _) 1 _⟩, _, _⟩ _
  rw [stored]
  refine Reaches.trans inner ?_
  refine .label rfl ?_
  refine .increment rfl rfl ?_
  rw [next]
  exact .goto rfl (.refl _)

lemma outer_reaches (before : List (List Nat)) (rest : List (Option Word)) (appended : List Nat)
    {after} (few : (before ++ after).length < 0x80000000)
    (short : ∀ piece ∈ after, (digits piece).length < 0x80000000)
    (small : ∀ piece ∈ after, ∀ u ∈ piece, u < 65536) :
    ∃ i rest', Reaches decoder (atLabel 0 ((before ++ after).map digits) before.length rest appended)
      (atLabel 3 ((before ++ after).map digits) i rest' (appended ++ after.flatten)) := by
  induction after generalizing before rest appended with
  | nil =>
    refine ⟨before.length, rest, ?_⟩
    refine .label rfl ?_
    refine .load rfl (by decide) rfl rfl ?_
    refine .load rfl (by decide) rfl rfl ?_
    refine .operate rfl (by decide) rfl ?_
    refine .taken rfl (by simp) ?_
    rw [flatten_nil, append_nil appended]
    exact .refl _
  | cons piece after ih =>
    obtain ⟨shortPiece, shortAfter⟩ := forall_mem_cons.1 short
    obtain ⟨smallPiece, smallAfter⟩ := forall_mem_cons.1 small
    have whole : before ++ piece :: after = (before ++ [piece]) ++ after := by simp
    obtain ⟨between, turned⟩ := outer_turn rest appended shortPiece few smallPiece
    obtain ⟨i, rest', later⟩ := ih (before ++ [piece]) between (appended ++ piece) (whole ▸ few)
      shortAfter smallAfter
    refine ⟨i, rest', turned.trans ?_⟩
    simpa using later

lemma decoder_returns (parts : List (List Nat)) (few : parts.length < 0x80000000)
    (short : ∀ piece ∈ parts, (digits piece).length < 0x80000000)
    (small : ∀ piece ∈ parts, ∀ u ∈ piece, u < 65536) :
    ∃ n, (Machine.start decodeStringBody.instructions [.texts (parts.map digits)]).run decoder n =
      .ok (.returned (.text parts.flatten)) := by
  obtain ⟨i, rest, looped⟩ := outer_reaches [] [] [] few short small
  have reached : Reaches decoder (Machine.start decodeStringBody.instructions [.texts (parts.map digits)])
      ⟨⟨decodeStringBody.instructions, decodeStringBody.instructions.length - 1, [.text parts.flatten],
        some (.texts (parts.map digits)) :: some (.buffer 0) :: some (.int (Int32.ofNat i)) :: rest⟩, [],
        [some parts.flatten]⟩ := by
    refine .new rfl ?_
    refine .operate rfl (by decide) rfl ?_
    refine .routine rfl (by decide) (r := .construct) (by decide) rfl ?_
    refine .store rfl (by decide) (by decide) rfl ?_
    refine .operate rfl (by decide) rfl ?_
    refine .store rfl (by decide) (by decide) rfl ?_
    refine looped.trans ?_
    refine .label rfl ?_
    refine .load rfl (by decide) rfl rfl ?_
    refine .routine rfl (by decide) (r := .finish) (by decide) rfl ?_
    exact .refl _
  exact reached.returns rfl

lemma length_hexText (us : List Nat) : (String.ofList (us.flatMap (lowHex 4))).length = 4 * us.length := by
  rw [String.length_ofList, ← length_digits, ← length_map Char.toNat, map_flatMap]
  rfl

/-- Decoding undoes the cutting into pieces, for every string whose digits can be
counted; each piece has the digits of at least one unit and no more than allowed. -/
theorem decoder_undoes_hexChunks (s : String) (maxLength : Nat) (short : (units s).length < 0x20000000) :
    (∃ n, (Machine.start decodeStringBody.instructions
        [.texts ((hexChunks s maxLength).map units)]).run decoder n = .ok (.returned (.text (units s)))) ∧
      ∀ chunk ∈ hexChunks s maxLength,
        0 < chunk.length ∧ chunk.length % 4 = 0 ∧ chunk.length ≤ max maxLength 4 := by
  have positive : 0 < unitsPerChunk maxLength := by
    rw [unitsPerChunk]
    omega
  have whole : (pieces (unitsPerChunk maxLength) (units s)).flatten = units s := pieces_flatten positive _
  constructor
  · have texts : (hexChunks s maxLength).map units =
        (pieces (unitsPerChunk maxLength) (units s)).map digits := by
      simp only [hexChunks, List.map_map, Function.comp_def, units_hexText]
    have few := length_le_flatten fun piece (member : piece ∈ pieces _ (units s)) =>
      (length_of_mem_pieces positive member).1
    have returned := decoder_returns (pieces (unitsPerChunk maxLength) (units s))
      (by rw [whole] at few; omega) (fun piece member => ?_) (fun piece member u inside => ?_)
    · rwa [← texts, whole] at returned
    · have := (List.sublist_flatten_of_mem member).length_le
      rw [whole] at this
      rw [length_digits]
      omega
    · exact unit_lt (whole ▸ List.mem_flatten.2 ⟨piece, member, inside⟩)
  · intro chunk member
    obtain ⟨piece, among, rfl⟩ := List.mem_map.1 member
    obtain ⟨filled, bounded⟩ := length_of_mem_pieces positive among
    rw [length_hexText]
    rw [unitsPerChunk] at bounded
    omega

/-- The pair of a character stands on both sides of a cut. -/
theorem decoder_undoes_cut_pair :
    (units "a😀").length < 0x20000000 ∧ hexChunks "a😀" 10 = ["0061d83d", "de00"] ∧
      ∃ n, (Machine.start decodeStringBody.instructions
        [.texts ((hexChunks "a😀" 10).map units)]).run decoder n =
          .ok (.returned (.text (units "a😀"))) :=
  have short : (units "a😀").length < 0x20000000 := by decide
  ⟨short, by decide +kernel, (decoder_undoes_hexChunks "a😀" 10 short).1⟩

end Restack.LongString
