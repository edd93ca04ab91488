/-
# Taking attempts apart

An attempt is an `Except Failure`. The lemmas turn the success of a compound attempt into the
successes of its parts. Where an attempt fails, one of its parts did: `FailsOnly` bounds the
causes.
-/
import Restack.Failure
import Restack.Proofs.Lists

namespace Restack.Outcome

open List

variable {ε α β γ : Type}

lemma bind_ok {x} {f : α → Except ε β} {b} : x >>= f = .ok b ↔ ∃ a, x = .ok a ∧ f a = .ok b := by
  cases x <;> simp [bind, Except.bind]

lemma mapError_ok {x : Except ε α} {f : ε → β} {a} : x.mapError f = .ok a ↔ x = .ok a := by
  cases x <;> simp [Except.mapError]

lemma map_ok {x : Except ε α} {f} {b : β} : x.map f = .ok b ↔ ∃ a, x = .ok a ∧ f a = b := by
  cases x <;> simp [Except.map]

lemma exists_of_isOk {x : Except ε α} (ok : x.isOk = true) : ∃ a, x = .ok a := by
  cases x with
  | error => cases ok
  | ok a => exact ⟨a, rfl⟩

lemma of_toOption {x : Except ε α} {a} (found : x.toOption = some a) : x = .ok a := by
  cases x with
  | error => cases found
  | ok b => exact congrArg _ (Option.some.inj found)

variable {cause : Cause} {p : Prop} {δ : Type}

@[simp] lemma fail_ne_ok {a : α} : ¬ fail cause = .ok a := by simp [fail]

@[simp] lemma fail_bind_ne_ok {f : α → Except Failure β} {b} : ¬ fail cause >>= f = .ok b := by
  simp [fail, bind, Except.bind]

lemma guard_ok [Decidable p] {f : α → Except Failure β} {x b} :
    (if p then fail cause >>= f else x) = .ok b ↔ ¬ p ∧ x = .ok b := by
  by_cases h : p <;> simp [h]

lemma guard_some [Decidable p] {f : β → Option α} {x a} :
    (if p then none >>= f else x) = some a ↔ ¬ p ∧ x = some a := by
  by_cases h : p <;> simp [h]

lemma mapM_ok {f : α → Except ε β} {xs ys} :
    xs.mapM f = .ok ys ↔ List.Forall₂ (fun x y => f x = .ok y) xs ys := by
  induction xs generalizing ys with
  | nil => cases ys <;> simp [pure, Except.pure]
  | cons x xs ih =>
    simp only [mapM_cons, bind_ok, forall₂_cons_left_iff, pure, Except.pure, Except.ok.injEq, ih]
    constructor
    · rintro ⟨y, hy, zs, rest, rfl⟩
      exact ⟨y, zs, hy, rest, rfl⟩
    · rintro ⟨y, zs, hy, rest, rfl⟩
      exact ⟨y, hy, zs, rest, rfl⟩

lemma mapM_mem {f : α → Except ε β} {xs : List α} {ys} (made : xs.mapM f = .ok ys)
    {x} (mem : x ∈ xs) : ∃ y ∈ ys, f x = .ok y :=
  Lists.forall₂_mem_left (mapM_ok.1 made) mem

lemma mapM_isOk {f : α → Except ε β} {xs : List α} :
    (∃ ys, xs.mapM f = .ok ys) ↔ ∀ x ∈ xs, ∃ y, f x = .ok y := by
  constructor
  · rintro ⟨ys, made⟩ x mem
    obtain ⟨y, -, made⟩ := mapM_mem made mem
    exact ⟨y, made⟩
  · intro each
    induction xs with
    | nil => exact ⟨[], rfl⟩
    | cons x xs ih =>
      obtain ⟨y, first⟩ := each x (by simp)
      obtain ⟨ys, rest⟩ := ih fun x mem => each x (by simp [mem])
      exact ⟨y :: ys, by rw [mapM_cons, first, rest]; rfl⟩

lemma foldlM_cons_ok {f : β → α → Except ε β} {x xs b c} :
    (x :: xs).foldlM f b = .ok c ↔ ∃ d, f b x = .ok d ∧ xs.foldlM f d = .ok c := by
  rw [foldlM_cons, bind_ok]

lemma foldlM_preserves {P : β → Prop} {f : β → α → Except ε β} {xs : List α} {b c}
    (keeps : ∀ b x d, x ∈ xs → P b → f b x = .ok d → P d) (start : P b)
    (done : xs.foldlM f b = .ok c) : P c := by
  induction xs generalizing b with
  | nil =>
    have : b = c := by simpa [pure, Except.pure] using done
    exact this ▸ start
  | cons x xs ih =>
    obtain ⟨d, first, rest⟩ := foldlM_cons_ok.1 done
    exact ih (fun b y d mem => keeps b y d (mem_cons_of_mem _ mem))
      (keeps b x d mem_cons_self start first) rest

/-- An attempt fails with causes of a kind only. -/
def FailsOnly (Q : Cause → Prop) (x : Except Failure α) : Prop := ∀ e, x = .error e → Q e.cause

namespace FailsOnly

variable {Q R : Cause → Prop} {x : Except Failure α}

lemma mono (fails : FailsOnly Q x) (weaker : ∀ cause, Q cause → R cause) : FailsOnly R x :=
  fun e failed => weaker e.cause (fails e failed)

lemma ok (a : α) : FailsOnly Q (.ok a) := by
  intro e failed
  cases failed

lemma fail (allowed : Q cause) : FailsOnly Q (fail cause : Except Failure α) := by
  intro e failed
  cases failed
  exact allowed

lemma bind {f : α → Except Failure β} (first : FailsOnly Q x)
    (next : ∀ a, x = .ok a → FailsOnly Q (f a)) : FailsOnly Q (x >>= f) := by
  intro e failed
  cases x with
  | error e' =>
    cases failed
    exact first e rfl
  | ok a => exact next a rfl e failed

lemma guard [Decidable p] {f : β → Except Failure α} (refused : p → Q cause)
    (passed : ¬ p → FailsOnly Q x) : FailsOnly Q (if p then Restack.fail cause >>= f else x) := by
  by_cases h : p
  · rw [if_pos h]
    intro e failed
    cases failed
    exact refused h
  · rw [if_neg h]
    exact passed h

lemma mapError {f} (same : ∀ e, (f e).cause = e.cause)
    (fails : FailsOnly Q x) : FailsOnly Q (x.mapError f) := by
  intro e failed
  cases x with
  | error e' =>
    cases failed
    rw [same]
    exact fails e' rfl
  | ok a => cases failed

lemma mapM {f : α → Except Failure β} {xs : List α} (each : ∀ x ∈ xs, FailsOnly Q (f x)) :
    FailsOnly Q (xs.mapM f) := by
  induction xs with
  | nil => exact ok _
  | cons x xs ih =>
    obtain ⟨first, rest⟩ := forall_mem_cons.1 each
    rw [mapM_cons]
    exact first.bind fun _ _ => (ih rest).bind fun _ _ => ok _

lemma foldlM {P : β → Prop} {f} {xs : List α} {b} (start : P b)
    (keeps : ∀ b x d, x ∈ xs → P b → f b x = .ok d → P d)
    (each : ∀ b x, x ∈ xs → P b → FailsOnly Q (f b x)) : FailsOnly Q (xs.foldlM f b) := by
  induction xs generalizing b with
  | nil => exact ok b
  | cons x xs ih =>
    refine (each b x mem_cons_self start).bind fun d made => ?_
    exact ih (keeps b x d mem_cons_self start made)
      (fun b y d mem => keeps b y d (mem_cons_of_mem _ mem))
      fun b y mem => each b y (mem_cons_of_mem _ mem)

end FailsOnly

/-- Two attempts that succeed with results so related or fail alike. -/
inductive Both (R : α → β → Prop) : Except ε α → Except ε β → Prop
  | ok {a b} (related : R a b) : Both R (.ok a) (.ok b)
  | error (e : ε) : Both R (.error e) (.error e)

namespace Both

lemma refl {R} (same : ∀ a, R a a) (x : Except ε α) : Both R x x := by
  cases x with
  | error e => exact .error e
  | ok a => exact .ok (same a)

lemma bind {R S x y} {f : α → Except ε γ} {g : β → Except ε δ} (first : Both R x y)
    (next : ∀ a b, R a b → Both S (f a) (g b)) : Both S (x >>= f) (y >>= g) := by
  cases first with
  | ok related => exact next _ _ related
  | error e => exact .error e

lemma mono {R S} {x : Except ε α} {y : Except ε β} (both : Both R x y)
    (weaker : ∀ a b, R a b → S a b) : Both S x y := by
  cases both with
  | ok related => exact .ok (weaker _ _ related)
  | error e => exact .error e

lemma bind_same {S} {f : α → Except ε γ} {g : α → Except ε δ} (x : Except ε α)
    (next : ∀ a, Both S (f a) (g a)) : Both S (x >>= f) (x >>= g) :=
  (refl (fun _ => rfl) x).bind fun a _ same => same ▸ next a

lemma mapError {R} {x : Except ε α} {y : Except ε β} (both : Both R x y)
    (f : ε → δ) : Both R (x.mapError f) (y.mapError f) := by
  cases both with
  | ok related => exact .ok related
  | error e => exact .error (f e)

end Both

end Restack.Outcome
