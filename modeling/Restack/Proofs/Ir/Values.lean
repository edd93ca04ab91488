/-
# Replacing operands

`withValues` puts operands where `values` found them (`Stmt.values_withValues`),
and replacing operands changes nothing else: what a statement defines, whether
it can throw and where a terminator leads stay the same.
-/
import Mathlib.Data.List.Basic
import Restack.Ir.Basic

namespace Restack.Ir

open List

lemma mem_localsOf {vs l} : l ∈ localsOf vs ↔ .var l ∈ vs := by
  rw [localsOf, mem_filterMap]
  constructor
  · rintro ⟨v, mem, found⟩
    cases v with
    | var k =>
      cases found
      exact mem
    | const c => cases found
  · exact fun mem => ⟨_, mem, rfl⟩

namespace Expr

lemma withValues_values (e : Expr) : e.withValues e.values = e := by cases e <;> rfl

lemma values_withValues (e : Expr) {vs} (length : vs.length = e.values.length) :
    (e.withValues vs).values = vs := by
  cases e <;> simp only [values] at length
  case filledArray | newMultiArray | invoke | invokePolymorphic | invokeCustom | newObject => rfl
  case param | caught | newInstance | getStatic =>
    rw [eq_nil_of_length_eq_zero length]
    rfl
  case value | unary | arrayLength | instanceOf | checkCast | newArray | getField =>
    obtain ⟨a, rfl⟩ := length_eq_one_iff.1 length
    rfl
  case binary | compare | arrayLoad =>
    obtain ⟨a, b, rfl⟩ := length_eq_two.1 length
    rfl

/-- The two tables leave no expression between them. -/
lemma canThrow_eq (e : Expr) : e.canThrow = !e.isPure := by
  cases e <;> simp [canThrow, isPure]

@[simp] lemma isPure_withValues (e : Expr) (vs : List Value) : (e.withValues vs).isPure = e.isPure := by
  unfold withValues
  split <;> rfl

@[simp] lemma canThrow_withValues (e : Expr) (vs : List Value) : (e.withValues vs).canThrow = e.canThrow := by
  rw [canThrow_eq, canThrow_eq, isPure_withValues]

end Expr

namespace Stmt

lemma withValues_values (s : Stmt) : s.withValues s.values = s := by
  cases s <;> simp [withValues, values, Expr.withValues_values]

lemma values_withValues (s : Stmt) {vs} (length : vs.length = s.values.length) :
    (s.withValues vs).values = vs := by
  cases s <;> simp only [values] at length
  case assign | effect => exact Expr.values_withValues _ length
  case putStatic | fillArrayData | monitorEnter | monitorExit =>
    obtain ⟨a, rfl⟩ := length_eq_one_iff.1 length
    rfl
  case putField =>
    obtain ⟨a, b, rfl⟩ := length_eq_two.1 length
    rfl
  case arrayStore =>
    obtain ⟨a, b, c, rfl⟩ := length_eq_three.1 length
    rfl

@[simp] lemma def?_withValues (s : Stmt) (vs : List Value) : (s.withValues vs).def? = s.def? := by
  unfold withValues
  split <;> rfl

@[simp] lemma canThrow_withValues (s : Stmt) (vs : List Value) : (s.withValues vs).canThrow = s.canThrow := by
  unfold withValues
  split <;> simp [canThrow]

@[simp] lemma def?_mapValues (f : Value → Value) (s : Stmt) : (s.mapValues f).def? = s.def? :=
  def?_withValues s _

@[simp] lemma canThrow_mapValues (f : Value → Value) (s : Stmt) : (s.mapValues f).canThrow = s.canThrow :=
  canThrow_withValues s _

@[simp] lemma values_mapValues (f : Value → Value) (s : Stmt) : (s.mapValues f).values = s.values.map f :=
  values_withValues s (by simp)

lemma mapValues_id {f} (same : ∀ v, f v = v) (s : Stmt) : s.mapValues f = s := by
  rw [mapValues, map_id'' same, withValues_values]

end Stmt

namespace Terminator

lemma withValues_values (t : Terminator) : t.withValues t.values = t := by
  cases t with
  | goto => rfl
  | branch test first second yes no => cases second <;> rfl
  | switch => rfl
  | ret v => cases v <;> rfl
  | throw => rfl

lemma values_withValues (t : Terminator) {vs} (length : vs.length = t.values.length) :
    (t.withValues vs).values = vs := by
  cases t with
  | goto =>
    rw [eq_nil_of_length_eq_zero length]
    rfl
  | branch test first second yes no =>
    cases second with
    | none =>
      obtain ⟨a, rfl⟩ := length_eq_one_iff.1 length
      rfl
    | some =>
      obtain ⟨a, b, rfl⟩ := length_eq_two.1 length
      rfl
  | switch | throw =>
    obtain ⟨a, rfl⟩ := length_eq_one_iff.1 length
    rfl
  | ret v =>
    cases v with
    | none =>
      rw [eq_nil_of_length_eq_zero length]
      rfl
    | some =>
      obtain ⟨a, rfl⟩ := length_eq_one_iff.1 length
      rfl

@[simp] lemma successors_withValues (t : Terminator) (vs : List Value) :
    (t.withValues vs).successors = t.successors := by
  unfold withValues
  split <;> rfl

@[simp] lemma isThrow_withValues (t : Terminator) (vs : List Value) :
    (t.withValues vs).isThrow = t.isThrow := by
  unfold withValues
  split <;> rfl

@[simp] lemma successors_mapValues (f : Value → Value) (t : Terminator) :
    (t.mapValues f).successors = t.successors :=
  successors_withValues t _

@[simp] lemma isThrow_mapValues (f : Value → Value) (t : Terminator) : (t.mapValues f).isThrow = t.isThrow :=
  isThrow_withValues t _

@[simp] lemma values_mapValues (f : Value → Value) (t : Terminator) :
    (t.mapValues f).values = t.values.map f :=
  values_withValues t (by simp)

lemma mapValues_id {f} (same : ∀ v, f v = v) (t : Terminator) : t.mapValues f = t := by
  rw [mapValues, map_id'' same, withValues_values]

end Terminator

/-- The locals that statements define. -/
def defined (stmts : List Stmt) : List Local := stmts.filterMap Stmt.def?

@[simp] lemma defined_nil : defined [] = [] := rfl

@[simp] lemma defined_append (stmts stmts' : List Stmt) :
    defined (stmts ++ stmts') = defined stmts ++ defined stmts' :=
  filterMap_append

lemma mem_defined_cons {s stmts l} : l ∈ defined (s :: stmts) ↔ s.def? = some l ∨ l ∈ defined stmts := by
  rw [defined, defined, filterMap_cons]
  cases s.def? <;> simp [eq_comm]

lemma defined_mapValues (f : Value → Value) (stmts : List Stmt) :
    defined (stmts.map (Stmt.mapValues f)) = defined stmts := by
  simp only [defined, filterMap_map]
  exact filterMap_congr fun s _ => Stmt.def?_mapValues f s

def Expr.site? : Expr → Option Register.CallSite
  | .invokeCustom site _ => some site
  | _ => none

/-- The call site that a statement calls through. -/
def Stmt.site? : Stmt → Option Register.CallSite
  | .assign _ e | .effect e => e.site?
  | _ => none

namespace Block

lemma mapValues_id {f} (same : ∀ v, f v = v) (b : Block) : b.mapValues f = b := by
  have phi (p : Phi) : p.mapValues f = p := by
    have : (p.operands.map fun o => (o.1, f o.2)) = p.operands :=
      map_id'' (fun o => by rw [same]) _
    rw [Phi.mapValues, this]
  rw [mapValues, map_id'' phi, map_id'' (Stmt.mapValues_id same), Terminator.mapValues_id same]

end Block

end Restack.Ir
