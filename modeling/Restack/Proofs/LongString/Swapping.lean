/-
# What rebuilding long strings makes of a method

`Swapped` is rebuilding said once, for a list of operands: an operand stays, or it is a long
string and becomes a new local, behind two statements that make an array of its pieces and
call the decoder on it. The walk over the layout does so with every block, each with numbers
of its own (`rebuildAll_swapped`).
-/
import Mathlib.Data.List.Induction
import Restack.LongString.Rebuild
import Restack.Proofs.Ir.Graph
import Restack.Proofs.LongString.Decoding

namespace Restack.LongString

open List Ir
open Register (MethodRef)

variable {decoder : MethodRef} {limit : Nat}

/-! ## Operands and statements -/

def holdsLong (limit : Nat) (vs : List Value) : Bool := vs.any fun v => (longString? limit v).isSome

/-- Whether a statement or the terminator of a block has a long string. -/
def blockHoldsLong (limit : Nat) (block : Block) : Bool :=
  block.stmts.any (fun s => holdsLong limit s.values) || holdsLong limit block.terminator.values

/-- The statements that rebuild a long string in locals `n` and `n + 1`. -/
def rebuilding (decoder : MethodRef) (limit n : Nat) (s : String) : List Stmt :=
  [.assign ⟨n⟩ (.filledArray stringArray ((hexChunks s limit).map fun c => .const (.string c))),
    .assign ⟨n + 1⟩ (.invoke .static decoder [.var ⟨n⟩])]

/-- Operands with the long strings swapped for locals from `n` on, and what rebuilds them. -/
inductive Swapped (decoder : MethodRef) (limit : Nat) :
    Nat → List Value → List Stmt → List Value → Nat → Prop
  | nil (n : Nat) : Swapped decoder limit n [] [] [] n
  | keep {n n' v vs vs' stmts}
      (short : longString? limit v = none) (later : Swapped decoder limit n vs stmts vs' n') :
      Swapped decoder limit n (v :: vs) stmts (v :: vs') n'
  | swap {n n' s vs vs' stmts}
      (long : limit < Text.modifiedLength s) (later : Swapped decoder limit (n + 2) vs stmts vs' n') :
      Swapped decoder limit n (.const (.string s) :: vs) (rebuilding decoder limit n s ++ stmts)
        (.var ⟨n + 1⟩ :: vs') n'

/-- Statements in order, each behind what rebuilds its long strings. -/
inductive SwappedStmts (decoder : MethodRef) (limit : Nat) :
    Nat → List Stmt → List Stmt → Nat → Prop
  | nil (n : Nat) : SwappedStmts decoder limit n [] [] n
  | cons {n n₁ n' s vs pieces rest rest'} (made : Swapped decoder limit n s.values pieces vs n₁)
      (later : SwappedStmts decoder limit n₁ rest rest' n') :
      SwappedStmts decoder limit n (s :: rest) (pieces ++ s.withValues vs :: rest') n'

/-- A block with its long strings swapped for locals from `n` up to `n'`. -/
inductive SwappedBlock (decoder : MethodRef) (limit n : Nat) (block : Block) : Block → Nat → Prop
  | mk {n₁ n' stmts last vs} (body : SwappedStmts decoder limit n block.stmts stmts n₁)
      (ending : Swapped decoder limit n₁ block.terminator.values last vs n') :
      SwappedBlock decoder limit n block
        ⟨block.phis, stmts ++ last, block.terminator.withValues vs⟩ n'

lemma longString?_some {v s} (long : longString? limit v = some s) :
    v = .const (.string s) ∧ limit < Text.modifiedLength s := by
  unfold longString? at long
  split at long
  · split at long
    · cases long
      exact ⟨rfl, by assumption⟩
    · cases long
  · cases long

section Rebuild

variable (decoder limit)

lemma rebuildValues_swapped (m : Method) (vs : List Value) :
    Swapped decoder limit m.locals.size vs (rebuildValues decoder limit m vs).1
        (rebuildValues decoder limit m vs).2.1 (rebuildValues decoder limit m vs).2.2.locals.size ∧
      (rebuildValues decoder limit m vs).2.2 =
        { m with locals := (rebuildValues decoder limit m vs).2.2.locals } := by
  induction vs generalizing m with
  | nil => exact ⟨.nil _, rfl⟩
  | cons v vs ih =>
    unfold rebuildValues
    cases long : longString? limit v with
    | none =>
      obtain ⟨made, rest⟩ := ih m
      exact ⟨.keep long made, rest⟩
    | some s =>
      obtain ⟨rfl, exceeds⟩ := longString?_some long
      obtain ⟨made, rest⟩ := ih (freshTyped (freshTyped m (.ref stringArray)).2 (.ref "Ljava/lang/String;")).2
      have size : (freshTyped (freshTyped m (.ref stringArray)).2
          (.ref "Ljava/lang/String;")).2.locals.size = m.locals.size + 2 := by
        simp [freshTyped, Method.freshLocal]
      have decoded : (freshTyped (freshTyped m (.ref stringArray)).2 (.ref "Ljava/lang/String;")).1 =
          ⟨m.locals.size + 1⟩ := by
        simp [freshTyped, Method.freshLocal]
      rw [size] at made
      refine ⟨?_, rest⟩
      dsimp only
      rw [decoded]
      exact .swap exceeds made

lemma rebuildStmts_swapped (m : Method) (stmts : List Stmt) :
    SwappedStmts decoder limit m.locals.size stmts (rebuildStmts decoder limit m stmts).1
        (rebuildStmts decoder limit m stmts).2.locals.size ∧ (rebuildStmts decoder limit m stmts).2 =
        { m with locals := (rebuildStmts decoder limit m stmts).2.locals } := by
  induction stmts generalizing m with
  | nil => exact ⟨.nil _, rfl⟩
  | cons s stmts ih =>
    obtain ⟨made, rest⟩ := rebuildValues_swapped decoder limit m s.values
    obtain ⟨later, rest'⟩ := ih (rebuildValues decoder limit m s.values).2.2
    refine ⟨.cons made later, ?_⟩
    unfold rebuildStmts
    rw [rest', rest]

lemma rebuildBlock_swapped {m b block} (here : m.block? b = some block) :
    ∃ block', SwappedBlock decoder limit m.locals.size block block'
        (rebuildBlock decoder limit m b).locals.size ∧
      (∀ c, (rebuildBlock decoder limit m b).block? c = if c = b then some block' else m.block? c) ∧
      rebuildBlock decoder limit m b = { m with
        blocks := (rebuildBlock decoder limit m b).blocks
        locals := (rebuildBlock decoder limit m b).locals } := by
  obtain ⟨body, rest⟩ := rebuildStmts_swapped decoder limit m block.stmts
  obtain ⟨ending, rest'⟩ := rebuildValues_swapped decoder limit
    (rebuildStmts decoder limit m block.stmts).2 block.terminator.values
  have made : rebuildBlock decoder limit m b =
      (rebuildValues decoder limit (rebuildStmts decoder limit m block.stmts).2
        block.terminator.values).2.2.setBlock b ⟨block.phis,
          (rebuildStmts decoder limit m block.stmts).1 ++ (rebuildValues decoder limit
            (rebuildStmts decoder limit m block.stmts).2 block.terminator.values).1,
          block.terminator.withValues (rebuildValues decoder limit
            (rebuildStmts decoder limit m block.stmts).2 block.terminator.values).2.1⟩ := by
    simp only [rebuildBlock, here]
  rw [made]
  refine ⟨_, .mk body ending, fun c => ?_, ?_⟩
  · have inside := Method.index_lt_of_block? here
    rw [rest', rest]
    exact Method.block?_setBlock inside
  · rw [rest', rest]
    rfl

end Rebuild

/-! ## What is swapped -/

section Facts

variable {n n' : Nat} {vs vs' : List Value} {stmts stmts' : List Stmt} {block block' : Block}

lemma Swapped.le (swapped : Swapped decoder limit n vs stmts vs' n') : n ≤ n' := by
  induction swapped with
  | nil => exact Nat.le_refl _
  | keep _ _ ih => exact ih
  | swap _ _ ih => omega

lemma SwappedStmts.le (swapped : SwappedStmts decoder limit n stmts stmts' n') : n ≤ n' := by
  induction swapped with
  | nil => exact Nat.le_refl _
  | cons made _ ih => exact Nat.le_trans made.le ih

lemma SwappedBlock.le (swapped : SwappedBlock decoder limit n block block' n') : n ≤ n' := by
  cases swapped with
  | mk body ending => exact Nat.le_trans body.le ending.le

lemma Swapped.length (swapped : Swapped decoder limit n vs stmts vs' n') : vs'.length = vs.length := by
  induction swapped with
  | nil => rfl
  | keep _ _ ih | swap _ _ ih => rw [length_cons, length_cons, ih]

lemma Swapped.same (swapped : Swapped decoder limit n vs stmts vs' n')
    (short : holdsLong limit vs = false) : stmts = [] ∧ vs' = vs ∧ n' = n := by
  induction swapped with
  | nil => exact ⟨rfl, rfl, rfl⟩
  | keep _ _ ih =>
    obtain ⟨rfl, rfl, rfl⟩ := ih (Bool.or_eq_false_iff.1 short).2
    exact ⟨rfl, rfl, rfl⟩
  | swap long _ _ =>
    have first := (Bool.or_eq_false_iff.1 short).1
    simp [longString?, long] at first

lemma SwappedStmts.same (swapped : SwappedStmts decoder limit n stmts stmts' n')
    (short : (stmts.any fun s => holdsLong limit s.values) = false) : stmts' = stmts ∧ n' = n := by
  induction swapped with
  | nil => exact ⟨rfl, rfl⟩
  | cons made _ ih =>
    obtain ⟨first, later⟩ := Bool.or_eq_false_iff.1 short
    obtain ⟨rfl, rfl, rfl⟩ := made.same first
    obtain ⟨rfl, rfl⟩ := ih later
    rw [Stmt.withValues_values]
    exact ⟨rfl, rfl⟩

lemma SwappedBlock.same (swapped : SwappedBlock decoder limit n block block' n')
    (short : blockHoldsLong limit block = false) : block' = block ∧ n' = n := by
  obtain ⟨inner, last⟩ := Bool.or_eq_false_iff.1 short
  cases swapped with
  | mk body ending =>
    obtain ⟨rfl, rfl⟩ := body.same inner
    obtain ⟨rfl, rfl, rfl⟩ := ending.same last
    rw [append_nil, Terminator.withValues_values]
    exact ⟨rfl, rfl⟩

/-! ## What is left -/

lemma modifiedLength_hexText (us : List Nat) :
    Text.modifiedLength (String.ofList (us.flatMap (Text.lowHex 4))) = 4 * us.length := by
  have digit : ∀ d < 16, total ((Text.charUnits (Text.hexDigit d)).map Text.unitLength) = 1 := by decide
  have each : ∀ c ∈ us.flatMap (Text.lowHex 4),
      total ((Text.charUnits c).map Text.unitLength) = 1 := by
    intro c mem
    obtain ⟨u, -, among⟩ := mem_flatMap.1 mem
    simp only [Text.lowHex, nil_append, cons_append, mem_cons, not_mem_nil, or_false] at among
    rcases among with rfl | rfl | rfl | rfl <;> exact digit _ (Nat.mod_lt _ (by decide))
  rw [Text.modifiedLength, String.toList_ofList, Lists.foldl_add_total, Nat.zero_add,
    map_congr_left each, map_const', Lists.total_replicate, Nat.mul_one, ← length_hexText,
    String.length_ofList]

lemma modifiedLength_chunk (room : 4 ≤ limit) {s c} (piece : c ∈ hexChunks s limit) :
    Text.modifiedLength c ≤ limit := by
  obtain ⟨us, among, rfl⟩ := mem_map.1 piece
  have units := (length_of_mem_pieces (n := unitsPerChunk limit) (by rw [unitsPerChunk]; omega) among).2
  rw [modifiedLength_hexText]
  rw [unitsPerChunk] at units
  omega

section Room

variable (room : 4 ≤ limit)

include room

lemma Swapped.short (swapped : Swapped decoder limit n vs stmts vs' n') :
    (stmts.any fun s => holdsLong limit s.values) = false ∧ holdsLong limit vs' = false := by
  induction swapped with
  | nil => exact ⟨rfl, rfl⟩
  | keep short _ ih => exact ⟨ih.1, Bool.or_eq_false_iff.2 ⟨by simp [short], ih.2⟩⟩
  | @swap _ _ s _ _ _ _ _ ih =>
    have chunks : holdsLong limit ((hexChunks s limit).map fun c => .const (.string c)) = false := by
      rw [holdsLong, any_map, any_eq_false]
      intro c piece
      simp [longString?, modifiedLength_chunk room piece]
    exact ⟨Bool.or_eq_false_iff.2 ⟨chunks, ih.1⟩, ih.2⟩

lemma SwappedStmts.short (swapped : SwappedStmts decoder limit n stmts stmts' n') :
    (stmts'.any fun s => holdsLong limit s.values) = false := by
  induction swapped with
  | nil => rfl
  | @cons _ _ _ s _ _ _ _ made _ ih =>
    rw [any_append, any_cons, (made.short room).1, s.values_withValues made.length, (made.short room).2, ih]
    rfl

lemma SwappedBlock.short (swapped : SwappedBlock decoder limit n block block' n') :
    blockHoldsLong limit block' = false := by
  cases swapped with
  | mk body ending =>
    rw [blockHoldsLong, any_append, body.short room, (ending.short room).1,
      Terminator.values_withValues _ ending.length, (ending.short room).2]
    rfl

end Room

end Facts

/-! ## The walk -/

/-- Some blocks of a method are swapped, each with locals of its own, and nothing else changed. -/
structure Swaps (decoder : MethodRef) (limit : Nat) (m m' : Method) (done : List BlockId)
    (first last : BlockId → Nat) : Prop where
  rest : m' = { m with blocks := m'.blocks, locals := m'.locals }
  grown : m.locals.size ≤ m'.locals.size
  blocks : ∀ b ∈ done, ∀ block, m.block? b = some block → ∃ block', m'.block? b = some block' ∧
    SwappedBlock decoder limit (first b) block block' (last b) ∧ m.locals.size ≤ first b ∧
    last b ≤ m'.locals.size
  others : ∀ b, b ∉ done ∨ m.block? b = none → m'.block? b = m.block? b
  apart : ∀ b ∈ done, ∀ c ∈ done, b ≠ c → (m.block? b).isSome = true → (m.block? c).isSome = true →
    last b ≤ first c ∨ last c ≤ first b

variable {m m' : Method}

namespace Swaps

variable {done : List BlockId} {first last : BlockId → Nat}

lemma start (m : Method) : Swaps decoder limit m m [] first last :=
  ⟨rfl, Nat.le_refl _, by simp, fun _ _ => rfl, by simp⟩

lemma skip (swaps : Swaps decoder limit m m' done first last) {b}
    (known : b ∈ done ∨ m.block? b = none) : Swaps decoder limit m m' (b :: done) first last := by
  have mem {c : BlockId} {block : Block} (visited : c ∈ b :: done) (here : m.block? c = some block) :
      c ∈ done := by
    rcases mem_cons.1 visited with rfl | old
    · exact known.resolve_right fun gone => by rw [here] at gone; cases gone
    · exact old
  refine ⟨swaps.rest, swaps.grown, fun c visited block here => ?_, fun c out => ?_,
    fun c one d other ne found found' => ?_⟩
  · exact swaps.blocks c (mem visited here) block here
  · exact swaps.others c (out.imp (fun out member => out (mem_cons_of_mem _ member)) id)
  · obtain ⟨_, here⟩ := Option.isSome_iff_exists.1 found
    obtain ⟨_, there⟩ := Option.isSome_iff_exists.1 found'
    exact swaps.apart c (mem one here) d (mem other there) ne found found'

/-- A visit to one more block. -/
lemma visit (swaps : Swaps decoder limit m m' done first last) {b} (room : b ∈ done → 4 ≤ limit) :
    ∃ first' last', Swaps decoder limit m (rebuildBlock decoder limit m' b) (b :: done) first' last' := by
  cases here : m.block? b with
  | none =>
    have gone : rebuildBlock decoder limit m' b = m' := by
      simp only [rebuildBlock, swaps.others b (.inr here), here]
    rw [gone]
    exact ⟨first, last, swaps.skip (.inr here)⟩
  | some block =>
    by_cases again : b ∈ done
    · -- the block is swapped already, so there is nothing left to swap
      obtain ⟨block', there, swapped, -⟩ := swaps.blocks b again block here
      obtain ⟨block'', made, shows, rest⟩ := rebuildBlock_swapped decoder limit there
      obtain ⟨rfl, size⟩ := made.same (swapped.short (room again))
      refine ⟨first, last, .skip ⟨?_, ?_, fun c visited found here => ?_, fun c out => ?_, swaps.apart⟩
        (.inl again)⟩
      · rw [rest, swaps.rest]
      · rw [size]
        exact swaps.grown
      · rw [size, shows]
        obtain ⟨found', there', kept⟩ := swaps.blocks c visited found here
        refine ⟨found', ?_, kept⟩
        split
        · rename_i same
          rw [← there', same, there]
        · exact there'
      · rw [shows, if_neg]
        · exact swaps.others c out
        · rintro rfl
          rcases out with out | gone
          · exact out again
          · rw [here] at gone
            cases gone
    · obtain ⟨block', made, shows, rest⟩ := rebuildBlock_swapped decoder limit
        ((swaps.others b (.inl again)).trans here)
      have le := made.le
      generalize rebuildBlock decoder limit m' b = new at made shows rest le
      refine ⟨Function.update first b m'.locals.size, Function.update last b new.locals.size, ?_, ?_,
        fun c visited found there => ?_, fun c out => ?_, fun c one d other ne found found' => ?_⟩
      · rw [rest, swaps.rest]
      · exact Nat.le_trans swaps.grown le
      · rw [shows]
        by_cases same : c = b
        · subst same
          rw [here] at there
          cases there
          rw [if_pos rfl, Function.update_self, Function.update_self]
          exact ⟨block', rfl, made, swaps.grown, Nat.le_refl _⟩
        · rw [if_neg same, Function.update_of_ne same, Function.update_of_ne same]
          obtain ⟨found', there', swapped, low, high⟩ :=
            swaps.blocks c ((mem_cons.1 visited).resolve_left same) found there
          exact ⟨found', there', swapped, low, Nat.le_trans high le⟩
      · have other : c ≠ b := by
          rintro rfl
          rcases out with out | gone
          · exact out mem_cons_self
          · rw [here] at gone
            cases gone
        rw [shows, if_neg other]
        exact swaps.others c (out.imp (fun out mem => out (mem_cons_of_mem _ mem)) id)
      · -- the new numbers lie behind all that were given out before
        have behind {c : BlockId} (mem : c ∈ b :: done) (ne : c ≠ b)
            (found : (m.block? c).isSome = true) : last c ≤ m'.locals.size := by
          obtain ⟨_, there⟩ := Option.isSome_iff_exists.1 found
          obtain ⟨_, -, -, -, high⟩ := swaps.blocks c ((mem_cons.1 mem).resolve_left ne) _ there
          exact high
        by_cases c_new : c = b <;> by_cases d_new : d = b
        · exact absurd (c_new.trans d_new.symm) ne
        · subst c_new
          simp only [Function.update_self, Function.update_of_ne d_new]
          exact .inr (behind other d_new found')
        · subst d_new
          simp only [Function.update_self, Function.update_of_ne c_new]
          exact .inl (behind one c_new found)
        · simp only [Function.update_of_ne c_new, Function.update_of_ne d_new]
          exact swaps.apart c ((mem_cons.1 one).resolve_left c_new) d
            ((mem_cons.1 other).resolve_left d_new) ne found found'

end Swaps

/-- All blocks that the layout lists are swapped. -/
lemma rebuildAll_swapped (decoder : MethodRef) (m : Method) {bs : List BlockId}
    (room : bs.Nodup ∨ 4 ≤ limit) :
    ∃ first last, Swaps decoder limit m (bs.foldl (rebuildBlock decoder limit) m) bs.reverse first last := by
  induction bs using reverseRecOn with
  | nil => exact ⟨fun _ => 0, fun _ => 0, .start m⟩
  | append_singleton bs b ih =>
    obtain ⟨first, last, swaps⟩ := ih (room.imp_left fun once => (nodup_append.1 once).1)
    rw [foldl_append, reverse_append]
    refine swaps.visit fun again => room.resolve_left fun once => ?_
    exact (nodup_append.1 once).2.2 b (mem_reverse.1 again) b (mem_singleton_self b) rfl

/-! ## Methods without long strings -/

lemma blockHoldsLong_eq (limit : Nat) (block : Block) : blockHoldsLong limit block =
    holdsLong limit (block.stmts.flatMap Stmt.values ++ block.terminator.values) := by
  rw [holdsLong, any_append, any_flatMap]
  rfl

lemma hasLongString_iff : hasLongString m limit = true ↔
    ∃ b block, m.block? b = some block ∧ blockHoldsLong limit block = true := by
  simp only [blockHoldsLong_eq]
  rw [hasLongString, any_eq_true]
  exact Method.exists_mem_blockList

/-! ## All strings -/

variable {helpers : ClassHelpers}

/-- The decoder that rebuilt methods of a class call. -/
def ClassHelpers.decoderIn (h : ClassHelpers) (m : Method) : MethodRef :=
  ⟨m.owner, h.helperName decodeString, decodeStringDescriptor⟩

lemma rebuildStrings_swaps (room : m.layout.Nodup ∨ 4 ≤ limit) (enabled : helpers.isEnabled = true) :
    ∃ first last, Swaps (helpers.decoderIn m) limit m (helpers.rebuildStrings m limit).2.1 m.layout
      first last := by
  cases long : hasLongString m limit with
  | false =>
    simp only [ClassHelpers.rebuildStrings, long]
    refine ⟨fun _ => m.locals.size, fun _ => m.locals.size, rfl, Nat.le_refl _,
      fun b _ block here => ?_, fun _ _ => rfl, fun _ _ _ _ _ _ _ => .inl (Nat.le_refl _)⟩
    have short : blockHoldsLong limit block = false := by
      by_contra holds
      rw [hasLongString_iff.2 ⟨b, block, here, by simpa using holds⟩] at long
      cases long
    obtain ⟨_, made, -⟩ := rebuildBlock_swapped (helpers.decoderIn m) limit here
    obtain ⟨rfl, size⟩ := made.same short
    exact ⟨_, here, size ▸ made, Nat.le_refl _, Nat.le_refl _⟩
  | true =>
    simp only [ClassHelpers.rebuildStrings, long, enabled]
    obtain ⟨first, last, swaps⟩ := rebuildAll_swapped (helpers.decoderIn m) m room
    refine ⟨first, last, swaps.rest, swaps.grown, fun b listed => ?_, fun b out => ?_,
      fun b one c other => ?_⟩
    · exact swaps.blocks b (mem_reverse.2 listed)
    · exact swaps.others b (out.imp (fun out mem => out (mem_reverse.1 mem)) id)
    · exact swaps.apart b (mem_reverse.2 one) c (mem_reverse.2 other)

lemma Swaps.block {first last} (swaps : Swaps decoder limit m m' m.layout first last)
    (listed : ∀ b, (m.block? b).isSome = true → b ∈ m.layout) {b block'}
    (there : m'.block? b = some block') : ∃ block, m.block? b = some block ∧
      SwappedBlock decoder limit (first b) block block' (last b) ∧ m.locals.size ≤ first b := by
  cases here : m.block? b with
  | none =>
    rw [swaps.others b (.inr here), here] at there
    cases there
  | some block =>
    obtain ⟨found, there', swapped, low, -⟩ := swaps.blocks b (listed b (by rw [here]; rfl)) block here
    rw [there] at there'
    cases there'
    exact ⟨block, rfl, swapped, low⟩

end Restack.LongString
