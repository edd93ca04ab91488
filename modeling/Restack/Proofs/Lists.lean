/-
# Facts about lists

What the standard library does not say of `eraseDups`, of lists made piecewise or
split at an element, of lists related element by element and of totals.
-/
import Mathlib.Data.List.Forall2
import Mathlib.Data.List.Nodup
import Restack.Text.Basic

namespace Restack.Lists

open List

variable {α β γ δ : Type}

lemma nodup_eraseDups [DecidableEq α] (l : List α) : l.eraseDups.Nodup := by
  induction length : l.length using Nat.strongRecOn generalizing l with
  | _ n ih =>
    cases l with
    | nil => simp
    | cons a l =>
      rw [eraseDups_cons, nodup_cons]
      refine ⟨by simp, ih _ ?_ _ rfl⟩
      have := length_filter_le (fun b => !b == a) l
      simp only [length_cons] at length
      omega

lemma flatMap_cons_toList_perm (f : α → β) (g : α → Option β) (l : List α) :
    (l.flatMap fun x => f x :: (g x).toList).Perm (l.map f ++ l.filterMap g) := by
  induction l with
  | nil => exact .nil
  | cons x l ih =>
    simp only [flatMap_cons]
    refine .cons _ ?_
    cases found : g x with
    | none => simpa [filterMap_cons_none found] using ih
    | some y =>
      rw [filterMap_cons_some found]
      exact (ih.cons y).trans perm_middle.symm

lemma forall₂_flatMap {R} {f : α → List γ} {g : β → List δ} {xs ys}
    (related : List.Forall₂ (fun x y => List.Forall₂ R (f x) (g y)) xs ys) :
    List.Forall₂ R (xs.flatMap f) (ys.flatMap g) := by
  induction related with
  | nil => exact .nil
  | cons head _ ih => exact rel_append head ih

lemma forall₂_mem_left {R xs} {ys : List β}
    (related : List.Forall₂ R xs ys) {x : α} (mem : x ∈ xs) : ∃ y ∈ ys, R x y := by
  induction related with
  | nil => cases mem
  | cons head _ ih =>
    rcases mem_cons.1 mem with rfl | later
    · exact ⟨_, mem_cons_self, head⟩
    · obtain ⟨y, among, rel⟩ := ih later
      exact ⟨y, mem_cons_of_mem _ among, rel⟩

lemma forall₂_mem_right {R} {xs : List α} {ys}
    (related : List.Forall₂ R xs ys) {y : β} (mem : y ∈ ys) : ∃ x ∈ xs, R x y :=
  forall₂_mem_left related.flip mem

lemma append_split {xs ys before rest} {x : α} (same : xs ++ ys = before ++ x :: rest) :
    (∃ mid, xs = before ++ x :: mid ∧ rest = mid ++ ys) ∨
      ∃ mid, before = xs ++ mid ∧ ys = mid ++ x :: rest := by
  rcases append_eq_append_iff.1 same with ⟨mid, front, back⟩ | ⟨mid, front, back⟩
  · exact .inr ⟨mid, front, back⟩
  · cases mid with
    | nil => exact .inr ⟨[], by simpa using front.symm, by simpa using back.symm⟩
    | cons y mid =>
      obtain ⟨rfl, rfl⟩ := cons.inj back
      exact .inl ⟨mid, front, rfl⟩

section Total

variable {f g : α → Nat} {l : List α}

@[simp] lemma total_replicate (n k : Nat) : total (List.replicate n k) = n * k := by
  induction n with
  | zero => simp
  | succ n ih => rw [replicate_succ, total_cons, ih, Nat.succ_mul, Nat.add_comm]

lemma foldl_add_total (f : α → Nat) (l : List α) (n : Nat) :
    l.foldl (fun n x => n + f x) n = n + total (l.map f) := by
  induction l generalizing n with
  | nil => rfl
  | cons x l ih => rw [foldl_cons, ih, map_cons, total_cons, Nat.add_assoc]

lemma total_map_le (le : ∀ y ∈ l, g y ≤ f y) : total (l.map g) ≤ total (l.map f) := by
  induction l with
  | nil => exact Nat.le_refl _
  | cons y l ih =>
    have head := le y mem_cons_self
    have tail := ih fun z mem => le z (mem_cons_of_mem _ mem)
    simp only [map_cons, total_cons]
    omega

lemma total_map_add_le (le : ∀ y ∈ l, g y ≤ f y) {x} (mem : x ∈ l) {k}
    (less : g x + k ≤ f x) : total (l.map g) + k ≤ total (l.map f) := by
  induction l with
  | nil => cases mem
  | cons y l ih =>
    have head := le y mem_cons_self
    have rest := fun z mem => le z (mem_cons_of_mem y mem)
    simp only [map_cons, total_cons]
    rcases mem_cons.1 mem with rfl | later
    · have := total_map_le rest
      omega
    · have := ih rest later
      omega

end Total

end Restack.Lists
