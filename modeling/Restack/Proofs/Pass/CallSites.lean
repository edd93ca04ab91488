/-
# Call sites through the passes

A call through a call site names the site, and the site brings arguments of its own that
no pass looks at. Passes drop such calls, move them and replace their operands, but
make none: every call site of the result is one of the method's (`stable_callsIn`).
-/
import Restack.Proofs.Pass.Marks

namespace Restack.Ir

open Register (CallSite)

/-- A statement that calls through sites of `S` only. -/
def Stmt.CallsIn (S : CallSite → Prop) (s : Stmt) : Prop := ∀ site, s.site? = some site → S site

/-- A method that calls through sites of `S` only. -/
abbrev Method.CallsIn (S : CallSite → Prop) (m : Method) : Prop := m.Each (Stmt.CallsIn S)

variable {S : CallSite → Prop}

lemma Stmt.CallsIn.of_none {s : Stmt} (none_ : s.site? = none) : s.CallsIn S := by
  intro site found
  rw [none_] at found
  cases found

@[simp] lemma Expr.site?_withValues (e : Expr) (vs : List Value) : (e.withValues vs).site? = e.site? := by
  unfold Expr.withValues
  split <;> rfl

@[simp] lemma Stmt.site?_withValues (s : Stmt) (vs : List Value) : (s.withValues vs).site? = s.site? := by
  cases s with
  | assign dst e | effect e => exact e.site?_withValues vs
  | _ =>
    unfold Stmt.withValues
    split <;> simp_all [Stmt.site?]

lemma Stmt.CallsIn.withValues {s : Stmt} (calls : s.CallsIn S) (vs : List Value) :
    (s.withValues vs).CallsIn S := by
  intro site found
  exact calls site (s.site?_withValues vs ▸ found)

end Restack.Ir

namespace Restack.Pass

open Ir

/-- Passes call through the sites that are there. -/
lemma stable_callsIn {S : Register.CallSite → Prop} : Stable (Stmt.CallsIn S) where
  withValues _ vs calls := calls.withValues vs
  effect _ _ _ calls := calls
  copy _ _ := .of_none rfl
  object _ _ _ _ := .of_none rfl
  literal _ _ _ := .of_none rfl
  allocation dst element dims _ := by
    refine .of_none ?_
    unfold allocation
    split <;> rfl

end Restack.Pass
