/-
# Calls without fuel

The mutual recursion of reading, completing, simplifying and closing as rules: `Runs` relates
a call to the states it goes through, what it returns and the state it ends in. A call has a
finite derivation just if it comes to an end, and then in one way (`Runs.unique`). A lift is a
sequence of steps (`Lifts`): reading a register, handing out a local, writing a register of a
block that is not filled yet, marking a block as filled, and closing, in any order, blocks whose
predecessors are all filled.
-/
import Restack.Lifting.Registers

namespace Restack.Lifting.Registers

open Register (Reg)
open Ir (BlockId Local Value)

/-- The state after a phi was replaced. -/
def replace (s : Registers) (φ : Local) (v : Value) : Registers :=
  { s with merges := s.merges.filter (·.1 != φ), replaced := (φ, v) :: s.replaced }

inductive Call
  /-- Reads a register in a block, some blocks passed on the way to it. -/
  | read (r : Reg) (passed : List BlockId) (b : BlockId)
  /-- Reads the operands of a phi that come from some sources. -/
  | operands (r : Reg) (φ : Local) (sources : List BlockId)
  | complete (r : Reg) (φ : Local)
  | simplify (φ : Local)
  | close (b : BlockId)
  /-- One call after the other. -/
  | all (calls : List Call)

inductive Runs (o : Outline) : Call → Registers → List Registers → Option Value → Registers → Prop
  | known {s : Registers} {r passed b v} (found : (s.table b).value? r = some v) :
      Runs o (.read r passed b) s [] (some (s.resolve v)) (s.enterAll r (s.resolve v) passed)
  | await {s t : Registers} {r passed b φ} (unknown : (s.table b).value? r = none)
      (isOpen : (s.table b).closed = false) (new : s.newPhi r b = (φ, t)) :
      Runs o (.read r passed b) s [t, t.await r φ b] (some (.var φ))
        ((t.await r φ b).enterAll r (.var φ) passed)
  | unset {s : Registers} {r passed b} (unknown : (s.table b).value? r = none)
      (closed : (s.table b).closed = true) (few : (o.sourcesOf b).length ≤ 1)
      (stuck : ∀ p ∈ o.sourcesOf b, p = b ∨ p ∈ passed) :
      Runs o (.read r passed b) s [] (some .zero) (s.enterAll r .zero (b :: passed))
  | back {s f : Registers} {r passed b p ts v} (unknown : (s.table b).value? r = none)
      (closed : (s.table b).closed = true) (single : o.sourcesOf b = [p])
      (other : ¬ (p = b ∨ p ∈ passed)) (rest : Runs o (.read r (b :: passed) p) s ts v f) :
      Runs o (.read r passed b) s ts v f
  | join {s t f : Registers} {r passed b φ ts v} (unknown : (s.table b).value? r = none)
      (closed : (s.table b).closed = true) (several : 1 < (o.sourcesOf b).length)
      (new : s.newPhi r b = (φ, t)) (rest : Runs o (.complete r φ) t ts (some v) f) :
      Runs o (.read r passed b) s (t :: ts ++ [f]) (some v) (f.enterAll r v (b :: passed))
  | last {s r φ} : Runs o (.operands r φ []) s [] none s
  | operand {s t f r φ p sources ts ts' v} (first : Runs o (.read r [] p) s ts (some v) t)
      (rest : Runs o (.operands r φ sources) (t.addOperand φ p v) ts' none f) :
      Runs o (.operands r φ (p :: sources)) s (ts ++ t :: t.addOperand φ p v :: ts') none f
  | complete {s t t' u f : Registers} {r φ m ts ts' v} (made : s.merge? φ = some m)
      (grows : t = { s with growing := φ :: s.growing })
      (first : Runs o (.operands r φ (o.sourcesOf m.block)) t ts none t')
      (grown : u = { t' with growing := t'.growing.filter (· != φ) })
      (rest : Runs o (.simplify φ) u ts' v f) :
      Runs o (.complete r φ) s (t :: ts ++ t' :: u :: ts') v f
  | gone {s φ} (gone : s.merge? φ = none) :
      Runs o (.simplify φ) s [] (some (s.resolve (.var φ))) s
  | keep {s φ m} (made : s.merge? φ = some m) (several : 1 < (s.incoming φ m).length) :
      Runs o (.simplify φ) s [] (some (.var φ)) s
  | replace {s t f φ m v ts} (made : s.merge? φ = some m)
      (one : (s.incoming φ m).length ≤ 1) (value : (s.incoming φ m).headD .zero = v)
      (replaced : t = s.replace φ v)
      (rest : Runs o (.all ((t.readers φ).map .simplify)) t ts none f) :
      Runs o (.simplify φ) s (t :: ts) (some v) f
  | closed {s b} (closed : (s.table b).closed = true) : Runs o (.close b) s [] none s
  | close {s t f b ts} (isOpen : (s.table b).closed = false)
      (marked : t = s.modifyTable b fun t => { t with closed := true, waiting := [] })
      (rest : Runs o (.all ((s.table b).waiting.map fun w => .complete w.1 w.2)) t ts none f) :
      Runs o (.close b) s (t :: ts) none f
  | nil {s} : Runs o (.all []) s [] none s
  | cons {s t f c cs ts ts' v} (first : Runs o c s ts v t)
      (rest : Runs o (.all cs) t ts' none f) : Runs o (.all (c :: cs)) s (ts ++ t :: ts') none f

/-- A local that was handed out and is no phi. -/
structure Plain (s : Registers) (l : Local) : Prop where
  bound : l.index < s.locals
  unmerged : s.merge? l = none
  unreplaced : s.replaced.lookup l = none

/-- What a lift does to the tables between two instructions. -/
inductive Step (o : Outline) (s : Registers) : List Registers → Registers → Prop
  | fresh : Step o s [] s.freshLocal.2
  | write {b r l} (unfilled : (s.table b).filled = false) (plain : s.Plain l) :
      Step o s [] (s.write r l b)
  | fill {b} (inside : b.index < o.size) :
      Step o s [] (s.modifyTable b fun t => { t with filled := true })
  | read {b r ts v f} (inside : b.index < o.size) (run : Runs o (.read r [] b) s ts v f) : Step o s ts f
  | close {b ts v f} (inside : b.index < o.size)
      (ready : ∀ p ∈ o.sourcesOf b, (s.table p).filled = true) (run : Runs o (.close b) s ts v f) :
      Step o s ts f

/-- The states before the present one, those that its steps went through included. -/
inductive Lifts (o : Outline) : List Registers → Registers → Prop
  | start : Lifts o [] ((initial o.size).close o entry)
  | step {ts ts' s f} (lifts : Lifts o ts s) (step : Step o s ts' f) : Lifts o (ts ++ s :: ts') f

theorem Runs.unique {o c s f f' ts ts' v v'} (one : Runs o c s ts v f) (other : Runs o c s ts' v' f') :
    ts = ts' ∧ v = v' ∧ f = f' := by
  -- the rules for a call exclude each other
  induction one generalizing ts' v' f' <;> cases other <;> grind

end Restack.Lifting.Registers
