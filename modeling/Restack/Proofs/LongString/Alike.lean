/-
# Rebuilding strings with either decoder

Rebuilt methods call the decoder that they are given and are otherwise the same whichever it is:
the new locals, the pieces and the operands do not depend on it (`rebuildAll_alike`). They
differ as soon as a string is rebuilt.
-/
import Restack.Proofs.Ir.Alike
import Restack.Proofs.Ir.Valid
import Restack.Proofs.LongString.Places

namespace Restack.LongString

open List Ir
open Register (MethodRef)

section Statements

variable (d d' : MethodRef) (limit : Nat) (blocks : Array (Option Block))

lemma rebuildValues_alike (m : Method) (vs : List Value) :
    Alike (Stmt.Recalled d d') (holdsLong limit vs) (rebuildValues d limit m vs).1
        (rebuildValues d' limit { m with blocks := blocks } vs).1 ∧
      (rebuildValues d' limit { m with blocks := blocks } vs).2.1 = (rebuildValues d limit m vs).2.1 ∧
      (rebuildValues d' limit { m with blocks := blocks } vs).2.2 =
        { (rebuildValues d limit m vs).2.2 with blocks := blocks } := by
  induction vs generalizing m with
  | nil => exact ⟨.nil, rfl, rfl⟩
  | cons v vs ih =>
    unfold rebuildValues
    cases long : longString? limit v with
    | none =>
      obtain ⟨stmts, values, rest⟩ := ih m
      have holds : holdsLong limit (v :: vs) = holdsLong limit vs := by simp [holdsLong, long]
      rw [holds]
      exact ⟨stmts, congrArg (v :: ·) values, rest⟩
    | some s =>
      have holds : holdsLong limit (v :: vs) = true := by simp [holdsLong, long]
      rw [holds]
      obtain ⟨stmts, values, rest⟩ := ih (freshTyped (freshTyped m (.ref stringArray)).2
        (.ref "Ljava/lang/String;")).2
      exact ⟨.same _ (.swap ⟨_, _, rfl, rfl⟩ stmts), congrArg (Value.var _ :: ·) values, rest⟩

lemma rebuildStmts_alike {flag : Bool} {stmts stmts' : List Stmt} {d d' : MethodRef} (m : Method)
    (alike : Alike (Stmt.Recalled d d') flag stmts stmts') :
    Alike (Stmt.Recalled d d') (flag || stmts.any fun s => holdsLong limit s.values)
        (rebuildStmts d limit m stmts).1 (rebuildStmts d' limit { m with blocks := blocks } stmts').1 ∧
      (rebuildStmts d' limit { m with blocks := blocks } stmts').2 =
        { (rebuildStmts d limit m stmts).2 with blocks := blocks } := by
  induction alike generalizing m with
  | nil => exact ⟨.nil, rfl⟩
  | @same flag stmts stmts' s _ ih =>
    obtain ⟨pieces, values, rest⟩ := rebuildValues_alike d d' limit blocks m s.values
    obtain ⟨later, last⟩ := ih (rebuildValues d limit m s.values).2.2
    unfold rebuildStmts
    dsimp only
    rw [values, rest]
    refine ⟨?_, last⟩
    have whole := pieces.append (later.same (s.withValues (rebuildValues d limit m s.values).2.1))
    rwa [any_cons, Bool.or_left_comm]
  | @swap flag s t stmts stmts' calls _ ih =>
    obtain ⟨pieces, values, rest⟩ := rebuildValues_alike d d' limit blocks m s.values
    obtain ⟨later, last⟩ := ih (rebuildValues d limit m s.values).2.2
    unfold rebuildStmts
    dsimp only
    rw [← calls.values_eq, values, rest]
    refine ⟨?_, last⟩
    have whole := pieces.append (later.swap (calls.withValues (rebuildValues d limit m s.values).2.1))
    rwa [Bool.or_true] at whole

end Statements

variable {d d' : MethodRef} {limit : Nat} {blocks : Array (Option Block)} {swapped : BlockId → Bool} {m : Method}

/-- Whether a block of a method has a long string. -/
def longAt (limit : Nat) (m : Method) (b : BlockId) : Bool :=
  (m.block? b).any (blockHoldsLong limit)

lemma rebuildBlock_other {b c : BlockId} (other : c ≠ b) :
    (rebuildBlock d limit m b).block? c = m.block? c := by
  cases here : m.block? b with
  | none => simp only [rebuildBlock, here]
  | some block =>
    obtain ⟨block', -, lookup, -⟩ := rebuildBlock_swapped d limit here
    rw [lookup, if_neg other]

lemma exists_longAt (long : hasLongString m limit = true) : ∃ b, longAt limit m b = true := by
  obtain ⟨b, block, here, long⟩ := hasLongString_iff.1 long
  exact ⟨b, by rw [longAt, here, Option.any_some, long]⟩

lemma rebuildBlock_alike (limit : Nat) (alike : m.Alike d d' swapped blocks) (b : BlockId) :
    ∃ blocks', rebuildBlock d' limit { m with blocks := blocks } b =
        { rebuildBlock d limit m b with blocks := blocks' } ∧
      (rebuildBlock d limit m b).Alike d d'
        (fun c => if c = b then swapped b || longAt limit m b else swapped c) blocks' := by
  rcases alike.cases b with ⟨here, there⟩ | ⟨block, block', here, there, same⟩
  · have unmarked : (fun c => if c = b then swapped b || longAt limit m b else swapped c) = swapped := by
      funext c
      split
      · rename_i same
        rw [longAt, here, Option.any_none, Bool.or_false, same]
      · rfl
    refine ⟨blocks, ?_, ?_⟩
    · simp only [rebuildBlock, here, there]
    · rw [unmarked]
      simpa only [rebuildBlock, here] using alike
  · obtain ⟨stmts, first⟩ := rebuildStmts_alike limit blocks m same.stmts
    obtain ⟨pieces, values, second⟩ := rebuildValues_alike d d' limit blocks
      (rebuildStmts d limit m block.stmts).2 block.terminator.values
    have blocks₁ := congrArg Method.blocks (rebuildStmts_swapped d limit m block.stmts).2
    have blocks₂ := congrArg Method.blocks (rebuildValues_swapped d limit
      (rebuildStmts d limit m block.stmts).2 block.terminator.values).2
    have inside := Method.index_lt_of_block? here
    have grown := alike.of_blocks (blocks₂.trans blocks₁)
    rw [← blocks₁, ← blocks₂] at inside
    have long : longAt limit m b = blockHoldsLong limit block := by rw [longAt, here, Option.any_some]
    simp only [rebuildBlock, here, there]
    rw [← same.terminator, first, second, values]
    refine ⟨_, rfl, grown.setBlock inside ⟨same.phis, ?_, by rw [same.terminator]⟩⟩
    rw [long, blockHoldsLong, ← Bool.or_assoc]
    exact stmts.append pieces

lemma rebuildBlocks_alike (limit : Nat) (alike : m.Alike d d' swapped blocks) (bs : List BlockId) :
    ∃ blocks' swapped', bs.foldl (rebuildBlock d' limit) { m with blocks := blocks } =
        { bs.foldl (rebuildBlock d limit) m with blocks := blocks' } ∧
      (bs.foldl (rebuildBlock d limit) m).Alike d d' swapped' blocks' ∧
      (∀ b, swapped b = true → swapped' b = true) ∧
      ∀ b ∈ bs, longAt limit m b = true → swapped' b = true := by
  induction bs generalizing m blocks swapped with
  | nil => exact ⟨blocks, swapped, rfl, alike, fun _ marked => marked, by simp⟩
  | cons b bs ih =>
    obtain ⟨blocks₁, first, alike₁⟩ := rebuildBlock_alike limit alike b
    obtain ⟨blocks', swapped', rest, alike', keeps, marks⟩ := ih alike₁
    have kept (c : BlockId) (marked : swapped c = true) : swapped' c = true := by
      refine keeps c ?_
      split
      · rename_i same
        rw [← same, marked, Bool.true_or]
      · exact marked
    refine ⟨blocks', swapped', ?_, alike', kept, fun c mem long => ?_⟩
    · rw [foldl_cons, foldl_cons, first, rest]
    · by_cases same : c = b
      · refine keeps c ?_
        rw [if_pos same, ← same, long, Bool.or_true]
      · -- no other block is touched on the way to this one
        refine marks c ((mem_cons.1 mem).resolve_left same) ?_
        rwa [longAt, rebuildBlock_other same]

/-- Whichever decoder is called, rebuilt methods are alike, and where a string is rebuilt they
differ. -/
lemma rebuildAll_alike (d d' : MethodRef) (limit : Nat) (linked : m.Linked) :
    ∃ blocks' swapped, m.layout.foldl (rebuildBlock d' limit) m =
        { m.layout.foldl (rebuildBlock d limit) m with blocks := blocks' } ∧
      (m.layout.foldl (rebuildBlock d limit) m).Alike d d' swapped blocks' ∧
      (hasLongString m limit = true →
        (m.layout.foldl (rebuildBlock d limit) m).layout.any swapped = true) := by
  obtain ⟨blocks', swapped, same, alike, -, marks⟩ :=
    rebuildBlocks_alike limit (Method.Alike.refl (d := d) m : m.Alike d d' _ _) m.layout
  refine ⟨blocks', swapped, same, alike, fun long => ?_⟩
  obtain ⟨b, long⟩ := exists_longAt long
  have found : (m.block? b).isSome = true := by
    cases here : m.block? b with
    | none => simp [longAt, here] at long
    | some block => rfl
  have listed := (linked.mem_layout b).2 found
  obtain ⟨_, _, swaps⟩ := rebuildAll_swapped d m (.inl linked.layout_nodup : _ ∨ 4 ≤ limit)
  rw [swaps.rest]
  exact any_eq_true.2 ⟨b, listed, marks b listed long⟩

end Restack.LongString
