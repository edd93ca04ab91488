/-
# Methods that differ in one callee

`Alike` puts two lists side by side that are equal but for calls, which go to one method on the
one side and to another on the other, and tells whether they differ at all. All that an analysis
asks about a statement has the same answer on both sides.
-/
import Restack.Proofs.Ir.Graph

namespace Restack

open List

/-- Two lists that are equal but for some places, at which `S` relates the elements; the flag
tells whether there is such a place. -/
inductive Alike {α : Type} (S : α → α → Prop) : Bool → List α → List α → Prop
  | nil : Alike S false [] []
  | same {swapped xs ys} (x : α) (rest : Alike S swapped xs ys) :
      Alike S swapped (x :: xs) (x :: ys)
  | swap {swapped x y xs ys} (first : S x y) (rest : Alike S swapped xs ys) :
      Alike S true (x :: xs) (y :: ys)

namespace Alike

variable {α β : Type} {S : α → α → Prop} {swapped : Bool} {xs ys : List α}

lemma refl (xs : List α) : Alike S false xs xs := by
  induction xs with
  | nil => exact .nil
  | cons x xs ih => exact .same x ih

lemma append {later xs' ys'} (first : Alike S swapped xs ys)
    (second : Alike S later xs' ys') : Alike S (swapped || later) (xs ++ xs') (ys ++ ys') := by
  induction first with
  | nil => exact second
  | same x _ ih => exact .same x ih
  | swap related _ ih => exact .swap related ih

variable (alike : Alike S swapped xs ys)

include alike

lemma eq (same : swapped = false) : xs = ys := by
  induction alike with
  | nil => rfl
  | same x _ ih => rw [ih same]
  | swap => cases same

lemma forall₂ : List.Forall₂ (fun x y => x = y ∨ S x y) xs ys := by
  induction alike with
  | nil => exact .nil
  | same x _ ih => exact .cons (.inl rfl) ih
  | swap related _ ih => exact .cons (.inr related) ih

/-- What cannot tell related elements apart cannot tell the lists apart. -/
lemma map_eq {f : α → β} (blind : ∀ x y, S x y → f x = f y) : xs.map f = ys.map f := by
  induction alike with
  | nil => rfl
  | same x _ ih => rw [map_cons, map_cons, ih]
  | swap related _ ih => rw [map_cons, map_cons, ih, blind _ _ related]

lemma length_eq : xs.length = ys.length := by
  simpa using congrArg length (alike.map_eq (f := fun _ => ()) fun _ _ _ => rfl)

lemma any_eq {p} (blind : ∀ x y, S x y → p x = p y) : xs.any p = ys.any p := by
  have same := congrArg (any · id) (alike.map_eq blind)
  simpa [any_map, Function.comp_def] using same

lemma flatMap_eq {f : α → List β} (blind : ∀ x y, S x y → f x = f y) : xs.flatMap f = ys.flatMap f := by
  rw [flatMap_def, flatMap_def, alike.map_eq blind]

lemma span {p} (blind : ∀ x y, S x y → p x = p y) :
    ∃ before behind, swapped = (before || behind) ∧ Alike S before (xs.takeWhile p) (ys.takeWhile p) ∧
      Alike S behind (xs.dropWhile p) (ys.dropWhile p) := by
  induction alike with
  | nil => exact ⟨false, false, rfl, .nil, .nil⟩
  | same x rest ih =>
    cases passes : p x with
    | false => exact ⟨false, _, rfl, by simp [passes, nil], by simpa [passes] using rest.same x⟩
    | true =>
      obtain ⟨before, behind, rfl, taken, dropped⟩ := ih
      exact ⟨before, behind, rfl, by simpa [passes] using taken.same x, by simpa [passes] using dropped⟩
  | @swap _ x y _ _ related rest ih =>
    have same := blind x y related
    cases passes : p x with
    | false =>
      exact ⟨false, true, rfl, by simp [passes, ← same, nil],
        by simpa [passes, ← same] using rest.swap related⟩
    | true =>
      obtain ⟨before, behind, rfl, taken, dropped⟩ := ih
      exact ⟨true, behind, rfl, by simpa [passes, ← same] using taken.swap related,
        by simpa [passes, ← same] using dropped⟩

lemma place (i : Nat) : xs[i]? = ys[i]? ∨ ∃ x y, xs[i]? = some x ∧ ys[i]? = some y ∧ S x y := by
  induction alike generalizing i with
  | nil => exact .inl rfl
  | same x _ ih =>
    cases i with
    | zero => exact .inl rfl
    | succ i => exact ih i
  | swap related _ ih =>
    cases i with
    | zero => exact .inr ⟨_, _, rfl, rfl, related⟩
    | succ i => exact ih i

lemma exists_place (differ : swapped = true) :
    ∃ (i : Nat) (x y : α), xs[i]? = some x ∧ ys[i]? = some y ∧ S x y := by
  induction alike with
  | nil => cases differ
  | same x _ ih =>
    obtain ⟨i, related⟩ := ih differ
    exact ⟨i + 1, related⟩
  | swap related _ _ => exact ⟨0, _, _, rfl, rfl, related⟩

end Alike

namespace Ir

open Register (MethodRef)

/-- Two static calls into one local, to `d` and to `d'`. -/
def Stmt.Recalled (d d' : MethodRef) (s t : Stmt) : Prop :=
  ∃ dst args, s = .assign dst (.invoke .static d args) ∧ t = .assign dst (.invoke .static d' args)

namespace Stmt.Recalled

variable {d d' : MethodRef} {s t : Stmt}

lemma def?_eq (calls : Recalled d d' s t) : s.def? = t.def? := by
  obtain ⟨dst, args, rfl, rfl⟩ := calls
  rfl

lemma values_eq (calls : Recalled d d' s t) : s.values = t.values := by
  obtain ⟨dst, args, rfl, rfl⟩ := calls
  rfl

lemma canThrow_eq (calls : Recalled d d' s t) : s.canThrow = t.canThrow := by
  obtain ⟨dst, args, rfl, rfl⟩ := calls
  rfl

lemma withValues (calls : Recalled d d' s t) (vs : List Value) :
    Recalled d d' (s.withValues vs) (t.withValues vs) := by
  obtain ⟨dst, args, rfl, rfl⟩ := calls
  exact ⟨dst, vs, rfl, rfl⟩

end Stmt.Recalled

/-- Two blocks that differ in calls only. -/
structure Block.Alike (d d' : MethodRef) (swapped : Bool) (block block' : Block) : Prop where
  phis : block.phis = block'.phis
  stmts : Restack.Alike (Stmt.Recalled d d') swapped block.stmts block'.stmts
  terminator : block.terminator = block'.terminator

lemma Block.Alike.refl {d d'} (block : Block) : Block.Alike d d' false block block :=
  ⟨rfl, .refl _, rfl⟩

lemma Block.Alike.canThrow_eq {d d' swapped block block'}
    (alike : Block.Alike d d' swapped block block') : block.canThrow = block'.canThrow := by
  unfold Block.canThrow
  rw [alike.stmts.any_eq fun _ _ => Stmt.Recalled.canThrow_eq, alike.terminator]

/-- A method and the same with other blocks, which differ in calls only. -/
structure Method.Alike (d d' : MethodRef) (swapped : BlockId → Bool) (m : Method)
    (blocks : Array (Option Block)) : Prop where
  size : blocks.size = m.blocks.size
  block (b : BlockId) :
    Option.Rel (Block.Alike d d' (swapped b)) (m.block? b) ({ m with blocks := blocks }.block? b)

namespace Method.Alike

variable {d d' : MethodRef} {swapped : BlockId → Bool} {m : Method} {blocks : Array (Option Block)}

lemma refl (m : Method) : m.Alike d d' (fun _ => false) m.blocks where
  size := rfl
  block b := by
    cases m.block? b with
    | none => exact .none
    | some block => exact .some (.refl block)

lemma of_blocks {n : Method} (alike : m.Alike d d' swapped blocks) (same : n.blocks = m.blocks) :
    n.Alike d d' swapped blocks where
  size := by rw [same, alike.size]
  block b := by
    have there : ({ n with blocks := blocks } : Method).block? b = { m with blocks := blocks }.block? b := rfl
    rw [Method.block?, same]
    exact alike.block b

lemma setBlock (alike : m.Alike d d' swapped blocks) {b : BlockId} (inside : b.index < m.blocks.size)
    {flag : Bool} {block block' : Block} (new : Block.Alike d d' flag block block') :
    (m.setBlock b block).Alike d d' (fun c => if c = b then flag else swapped c)
      (blocks.setIfInBounds b.index (some block')) where
  size := by simp [Method.setBlock, alike.size]
  block c := by
    have there : (Method.setBlock { m with blocks := blocks } b block').block? c =
        if c = b then some block' else { m with blocks := blocks }.block? c :=
      Method.block?_setBlock (alike.size ▸ inside : b.index < blocks.size)
    rw [Method.block?_setBlock inside]
    refine cast (congrArg (Option.Rel _ _) there.symm) ?_
    by_cases same : c = b
    · simpa only [if_pos same] using .some new
    · simpa only [if_neg same] using alike.block c

variable (alike : m.Alike d d' swapped blocks)
include alike

lemma cases (b : BlockId) :
    (m.block? b = none ∧ { m with blocks := blocks }.block? b = none) ∨
      ∃ block block', m.block? b = some block ∧ { m with blocks := blocks }.block? b = some block' ∧
        Block.Alike d d' (swapped b) block block' := by
  have related := alike.block b
  generalize m.block? b = here at related
  generalize ({ m with blocks := blocks } : Method).block? b = there at related
  cases related with
  | none => exact .inl ⟨rfl, rfl⟩
  | some alike => exact .inr ⟨_, _, rfl, rfl, alike⟩

lemma successors_eq (b : BlockId) : m.successors b = { m with blocks := blocks }.successors b := by
  rcases alike.cases b with ⟨here, there⟩ | ⟨block, block', here, there, alike⟩
  · simp only [Method.successors, here, there]
  · simp only [Method.successors, here, there, alike.terminator]

lemma exceptionalSuccessors_eq (b : BlockId) :
    m.exceptionalSuccessors b = { m with blocks := blocks }.exceptionalSuccessors b := by
  rcases alike.cases b with ⟨here, there⟩ | ⟨block, block', here, there, alike⟩
  · simp only [Method.exceptionalSuccessors, here, there]
  · simp only [Method.exceptionalSuccessors, here, there, alike.canThrow_eq]

end Method.Alike

end Ir

end Restack
