/-
# Array types that passes come across

Passes take an array type apart only where they turn a new array into a literal: what follows
its first byte has to be a string. The types they see are those of the method they started
from and types that begin with a bracket (`stable_allocates`), so a pipeline fails only where
one of the former cannot be taken apart (`run_divides`).
-/
import Restack.Proofs.Pass.Marks

namespace Restack.Ir

/-- The type of the array that a statement allocates. -/
def Stmt.arrayType? : Stmt → Option String
  | .assign _ (.newArray type _) => some type
  | _ => none

/-- A statement that allocates arrays with types of `S` only. -/
def Stmt.AllocatesIn (S : String → Prop) (s : Stmt) : Prop := ∀ type, s.arrayType? = some type → S type

lemma Stmt.AllocatesIn.of_none {S} {s : Stmt} (none_ : s.arrayType? = none) : s.AllocatesIn S := by
  intro type found
  rw [none_] at found
  cases found

@[simp] lemma Stmt.arrayType?_withValues (s : Stmt) (vs : List Value) :
    (s.withValues vs).arrayType? = s.arrayType? := by
  cases s with
  | assign dst e =>
    simp only [Stmt.withValues, Expr.withValues]
    split <;> rfl
  | _ =>
    unfold Stmt.withValues
    split <;> simp_all [Stmt.arrayType?]

end Restack.Ir

namespace Restack.Pass

open Ir
open Outcome

/-- An array type whose first byte is a character of its own. -/
def Divisible (type : String) : Prop := ∃ c rest, type.toList = c :: rest ∧ c.toNat < 128

lemma divisible_of_bracket {type} (bracket : type.toList.head? = some '[') : Divisible type := by
  cases chars : type.toList with
  | nil => simp [chars] at bracket
  | cons c rest =>
    rw [chars] at bracket
    cases bracket
    exact ⟨_, rest, chars, by decide⟩

lemma elementPart_fails (type : String) :
    FailsOnly (fun cause => cause = .indivisibleArrayType type ∧ ¬ Divisible type) (elementPart type) := by
  rw [elementPart]
  split
  · rename_i c rest chars
    split
    · exact .ok _
    · rename_i large
      refine .fail ⟨rfl, ?_⟩
      rintro ⟨d, rest', same, small⟩
      cases chars.symm.trans same
      exact large small
  · rename_i empty
    refine .fail ⟨rfl, ?_⟩
    rintro ⟨c, rest, same, -⟩
    cases empty.symm.trans same

variable {S : String → Prop}

/-- Passes allocate arrays of the types that are there and of types with a bracket. -/
lemma stable_allocates (brackets : ∀ type, type.toList.head? = some '[' → S type) :
    Stable (Stmt.AllocatesIn S) where
  withValues s vs allocates type found := allocates type (s.arrayType?_withValues vs ▸ found)
  effect _ _ _ _ := .of_none rfl
  copy _ _ := .of_none rfl
  object _ _ _ _ := .of_none rfl
  literal _ _ _ := .of_none rfl
  allocation dst element dims _ := by
    unfold allocation
    split
    · intro type found
      cases found
      refine brackets _ ?_
      simp
    · exact .of_none rfl

/-- The cause of a pipeline's failure: a type of `S` that cannot be taken apart. -/
def Indivisible (S : String → Prop) (cause : Cause) : Prop :=
  ∃ type, cause = .indivisibleArrayType type ∧ S type ∧ ¬ Divisible type

variable {m : Method}

lemma literal?_fails {b s rest} (allocates : s.AllocatesIn S) :
    FailsOnly (Indivisible S) (literal? m b s rest) := by
  rw [literal?]
  split
  · exact .ok _
  · rename_i a sized
    obtain ⟨c, rfl⟩ := sizedArray?_eq sized
    split
    · exact .ok _
    · refine .bind ((elementPart_fails a.type).mono ?_) fun _ _ => .ok _
      rintro cause ⟨rfl, indivisible⟩
      exact ⟨a.type, rfl, allocates a.type rfl, indivisible⟩

lemma fillFirst_fails {b stmts} (all : ∀ s ∈ stmts, s.AllocatesIn S) :
    FailsOnly (Indivisible S) (fillFirst m b stmts) := by
  induction stmts with
  | nil => exact .ok _
  | cons s stmts ih =>
    obtain ⟨first, rest⟩ := List.forall_mem_cons.1 all
    refine (literal?_fails first).bind fun made _ => ?_
    cases made with
    | some shorter => exact .ok _
    | none => exact (ih rest).bind fun _ _ => .ok _

section Runs

variable (brackets : ∀ type, type.toList.head? = some '[' → S type) {param : Local → Option Nat}

include brackets

lemma fillBlock_fails {b fuel state} (marked : state.1.Marked ⟨param, Stmt.AllocatesIn S⟩) :
    FailsOnly (Indivisible S) (fillBlock b fuel state) := by
  induction fuel generalizing state with
  | zero => exact .ok _
  | succ fuel ih =>
    rw [fillBlock]
    split
    · exact .ok _
    · rename_i block here
      have old := marked.blocks b block here
      refine (fillFirst_fails (marked.each b block here)).bind fun made filled => ?_
      cases made with
      | some stmts =>
        have filled := fillFirst_marked (stable_allocates brackets) old.stmts filled
        exact ih (marked.setBlock ⟨old.phis, filled, old.terminator⟩)
      | none => exact .ok _

lemma transform_fails (p : Pass) (marked : m.Marked ⟨param, Stmt.AllocatesIn S⟩) :
    FailsOnly (Indivisible S) (p.transform m) := by
  cases p with
  | fillArray =>
    refine .foldlM (P := fun state => state.1.Marked ⟨param, Stmt.AllocatesIn S⟩) marked ?_ ?_
    · intro state b state' _ marked made
      refine fillBlock_preserves (fun n block stmts marked here filled => ?_) marked made
      have old := marked.blocks b block here
      exact marked.setBlock ⟨old.phis, fillFirst_marked (stable_allocates brackets) old.stmts filled,
        old.terminator⟩
    · intro state b _ marked
      exact fillBlock_fails brackets marked
  | _ => exact .ok _

/-- A pipeline fails only at an array type of the method it runs on that cannot be taken apart. -/
lemma run_divides {p : Pipeline} (marked : m.Marked ⟨param, Stmt.AllocatesIn S⟩) :
    FailsOnly (Indivisible S) (p.run m) :=
  Pipeline.run_fails (P := fun m => m.Marked ⟨param, Stmt.AllocatesIn S⟩)
    (fun _ _ _ _ => keeps_marked (stable_allocates brackets))
    (fun q _ => transform_fails brackets q) marked

end Runs

end Restack.Pass
