/-
# Searching with a stack

A search takes items off a stack, passes over those that it has or cannot go to, and
otherwise marks them and puts on the stack what they lead to. With fuel for all that may
be put there it ends with everything that its start leads to (`Lawful.found`), and it
never has anything else (`Lawful.least`).
-/
import Mathlib.Data.List.Basic

namespace Restack

open List

structure Search (α S : Type) where
  next : α → List α
  passes : S → α → Bool
  mark : S → α → S

namespace Search

variable {α S : Type}

def run (search : Search α S) : Nat → List α → S → S
  | 0, _, s => s
  | _ + 1, [], s => s
  | fuel + 1, x :: stack, s =>
    if search.passes s x then search.run fuel stack s
    else search.run fuel (search.next x ++ stack) (search.mark s x)

/-- `Has` tells what a state has, `able` what can be gone to at all, and `left` how much is still
led to by what a state does not have. -/
structure Lawful (search : Search α S) (Inv : S → Prop) (able : α → Prop) (Has : S → α → Prop)
    (left : S → Nat) : Prop where
  passes : ∀ {s x}, Inv s → (search.passes s x = true ↔ (able x → Has s x))
  inv : ∀ {s x}, Inv s → able x → ¬ Has s x → Inv (search.mark s x)
  mark : ∀ {s x}, Inv s → able x → ∀ y, Has (search.mark s x) y ↔ y = x ∨ Has s y
  left : ∀ {s x}, Inv s → able x → ¬ Has s x → left (search.mark s x) + (search.next x).length ≤ left s

/-- What a search has when it is done: what it had, what it was to look at, and everything behind. -/
structure Found (search : Search α S) (able : α → Prop) (Has : S → α → Prop) (stack : List α)
    (s s' : S) : Prop where
  kept : ∀ x, Has s x → Has s' x
  stack : ∀ x ∈ stack, able x → Has s' x
  closed : ∀ x, Has s' x → ∀ y ∈ search.next x, able y → Has s' y

namespace Lawful

variable {search : Search α S} {Inv : S → Prop} {able : α → Prop} {Has : S → α → Prop}
  {left : S → Nat} (lawful : Lawful search Inv able Has left) {fuel : Nat} {stack : List α} {s : S}

include lawful

lemma found (inv : Inv s) (enough : stack.length + left s ≤ fuel)
    (behind : ∀ x, Has s x → ∀ y ∈ search.next x, able y → Has s y ∨ y ∈ stack) :
    Inv (search.run fuel stack s) ∧ Found search able Has stack s (search.run fuel stack s) := by
  induction fuel generalizing stack s with
  | zero =>
    obtain rfl : stack = [] := eq_nil_of_length_eq_zero (by omega)
    exact ⟨inv, fun _ has => has, by simp, fun x has y next can =>
      (behind x has y next can).resolve_right (by simp)⟩
  | succ fuel ih =>
    cases stack with
    | nil =>
      exact ⟨inv, fun _ has => has, by simp, fun x has y next can =>
        (behind x has y next can).resolve_right (by simp)⟩
    | cons x stack =>
      rw [length_cons] at enough
      rw [run]
      split
      · rename_i passed
        have known := (lawful.passes inv).1 passed
        obtain ⟨inv', found⟩ := @ih stack s inv (by omega) fun z has y next can => by
          rcases behind z has y next can with h | h
          · exact .inl h
          · rcases mem_cons.1 h with rfl | later
            · exact .inl (known can)
            · exact .inr later
        refine ⟨inv', found.kept, fun y mem can => ?_, found.closed⟩
        rcases mem_cons.1 mem with rfl | later
        · exact found.kept y (known can)
        · exact found.stack y later can
      · rename_i new
        rw [lawful.passes inv, Classical.not_imp] at new
        have has := lawful.mark inv new.1
        have less := lawful.left inv new.1 new.2
        obtain ⟨inv', found⟩ := @ih (search.next x ++ stack) _ (lawful.inv inv new.1 new.2)
          (by rw [length_append]; omega) fun z on y next can => by
            rcases (has z).1 on with rfl | old
            · exact .inr (mem_append_left _ next)
            · rcases behind z old y next can with h | h
              · exact .inl ((has y).2 (.inr h))
              · rcases mem_cons.1 h with rfl | later
                · exact .inl ((has y).2 (.inl rfl))
                · exact .inr (mem_append_right _ later)
        refine ⟨inv', fun y old => found.kept y ((has y).2 (.inr old)), fun y mem can => ?_,
          found.closed⟩
        rcases mem_cons.1 mem with rfl | later
        · exact found.kept y ((has y).2 (.inl rfl))
        · exact found.stack y (mem_append_right _ later) can

lemma least {P : α → Prop} (inv : Inv s)
    (closed : ∀ x, P x → ∀ y ∈ search.next x, able y → P y) (start : ∀ x ∈ stack, able x → P x)
    (known : ∀ x, Has s x → P x) (x : α) (has : Has (search.run fuel stack s) x) : P x := by
  induction fuel generalizing stack s with
  | zero => exact known x has
  | succ fuel ih =>
    cases stack with
    | nil => exact known x has
    | cons y stack =>
      obtain ⟨first, later⟩ := forall_mem_cons.1 start
      rw [run] at has
      split at has
      · exact ih inv later known has
      · rename_i new
        rw [lawful.passes inv, Classical.not_imp] at new
        refine ih (lawful.inv inv new.1 new.2) (fun z mem can => ?_) (fun z on => ?_) has
        · rcases mem_append.1 mem with next | older
          · exact closed y (first new.1) z next can
          · exact later z older can
        · rcases (lawful.mark inv new.1 z).1 on with rfl | old
          · exact first new.1
          · exact known z old

end Lawful

end Search

end Restack
