/-
# Locals of parameters

A parameter is read into a local of its own: nothing else defines that local. A mark
gives each local the parameter that is read into it, if there is one, and says what every
statement has. Unlike single assignment this survives every pass.
-/
import Restack.Proofs.Ir.Graph

namespace Restack.Ir

open List

/-- Which parameter is read into a local, and a property of statements. -/
structure Mark where
  param : Local → Option Nat
  has : Stmt → Prop := fun _ => True

/-- The parameter that a statement reads. -/
def Stmt.param? : Stmt → Option Nat
  | .assign _ (.param i) => some i
  | _ => none

def Value.Below (count : Nat) (v : Value) : Prop := ∀ l, v = .var l → l.index < count

structure Stmt.Marked (count : Nat) (mark : Mark) (s : Stmt) : Prop where
  defines : ∀ dst, s.def? = some dst → dst.index < count ∧ mark.param dst = s.param?
  reads : ∀ v ∈ s.values, v.Below count
  has : mark.has s

structure Phi.Marked (count : Nat) (mark : Mark) (p : Phi) : Prop where
  dst : p.dst.index < count
  free : mark.param p.dst = none
  reads : ∀ o ∈ p.operands, o.2.Below count

structure Block.Marked (count : Nat) (mark : Mark) (block : Block) : Prop where
  phis : ∀ p ∈ block.phis, p.Marked count mark
  stmts : ∀ s ∈ block.stmts, s.Marked count mark
  terminator : ∀ v ∈ block.terminator.values, v.Below count

/-- Every local is numbered below the count and defined as the mark says. -/
structure Method.Marked (mark : Mark) (m : Method) : Prop where
  bound : ∀ l, (mark.param l).isSome = true → l.index < m.locals.size
  blocks : ∀ b block, m.block? b = some block → block.Marked m.locals.size mark

/-- Every statement of a method has a property. -/
def Method.Each (P : Stmt → Prop) (m : Method) : Prop :=
  ∀ b block, m.block? b = some block → ∀ s ∈ block.stmts, P s

variable {count count' : Nat} {mark : Mark}

lemma Value.Below.const (c : Constant) : (Value.const c).Below count := by
  intro l same
  cases same

lemma Value.Below.mono {v : Value} (below : v.Below count) (le : count ≤ count') : v.Below count' :=
  fun l same => Nat.lt_of_lt_of_le (below l same) le

lemma Stmt.Marked.mono {s : Stmt} (marked : s.Marked count mark) (le : count ≤ count') :
    s.Marked count' mark where
  defines dst found := ⟨Nat.lt_of_lt_of_le (marked.defines dst found).1 le, (marked.defines dst found).2⟩
  reads v mem := (marked.reads v mem).mono le
  has := marked.has

lemma Phi.Marked.mono {p : Phi} (marked : p.Marked count mark) (le : count ≤ count') :
    p.Marked count' mark where
  dst := Nat.lt_of_lt_of_le marked.dst le
  free := marked.free
  reads o mem := (marked.reads o mem).mono le

lemma Block.Marked.mono {block : Block} (marked : block.Marked count mark) (le : count ≤ count') :
    block.Marked count' mark where
  phis p mem := (marked.phis p mem).mono le
  stmts s mem := (marked.stmts s mem).mono le
  terminator v mem := (marked.terminator v mem).mono le

@[simp] lemma Stmt.param?_withValues (s : Stmt) (vs : List Value) : (s.withValues vs).param? = s.param? := by
  cases s with
  | assign dst e =>
    simp only [Stmt.withValues]
    unfold Expr.withValues
    split <;> rfl
  | effect => rfl
  | _ =>
    unfold Stmt.withValues
    split <;> simp_all [Stmt.param?]

lemma Stmt.Marked.withValues {s : Stmt} (marked : s.Marked count mark) {vs : List Value}
    (length : vs.length = s.values.length) (below : ∀ v ∈ vs, v.Below count)
    (has : mark.has (s.withValues vs)) : (s.withValues vs).Marked count mark where
  defines dst found := by
    rw [Stmt.def?_withValues] at found
    rw [Stmt.param?_withValues]
    exact marked.defines dst found
  reads v mem := by
    rw [Stmt.values_withValues s length] at mem
    exact below v mem
  has := has

lemma Stmt.Marked.assign {dst : Local} {e : Expr} (bound : dst.index < count)
    (marked : mark.param dst = (Stmt.assign dst e).param?) (below : ∀ v ∈ e.values, v.Below count)
    (has : mark.has (.assign dst e)) : (Stmt.assign dst e).Marked count mark where
  defines l found := by
    cases found
    exact ⟨bound, marked⟩
  reads := below
  has := has

lemma Stmt.Marked.effect {e : Expr} (below : ∀ v ∈ e.values, v.Below count)
    (has : mark.has (.effect e)) : (Stmt.effect e).Marked count mark where
  defines l found := by cases found
  reads := below
  has := has

section Map

variable {g : Value → Value} (keeps : ∀ v, v.Below count → (g v).Below count)

include keeps

lemma Phi.Marked.mapValues {p : Phi} (marked : p.Marked count mark) :
    (p.mapValues g).Marked count mark where
  dst := marked.dst
  free := marked.free
  reads o mem := by
    obtain ⟨o', among, rfl⟩ := mem_map.1 mem
    exact keeps _ (marked.reads o' among)

lemma Block.Marked.mapValues {block : Block} (marked : block.Marked count mark)
    (stays : ∀ s vs, mark.has s → mark.has (s.withValues vs)) :
    (block.mapValues g).Marked count mark where
  phis p mem := by
    obtain ⟨p', among, rfl⟩ := mem_map.1 mem
    exact (marked.phis p' among).mapValues keeps
  stmts s mem := by
    obtain ⟨s', among, rfl⟩ := mem_map.1 mem
    refine (marked.stmts s' among).withValues (by simp) (fun v mem => ?_)
      (stays _ _ (marked.stmts s' among).has)
    obtain ⟨v', read, rfl⟩ := mem_map.1 mem
    exact keeps v' ((marked.stmts s' among).reads v' read)
  terminator v mem := by
    rw [Block.mapValues, Terminator.values_mapValues] at mem
    obtain ⟨v', read, rfl⟩ := mem_map.1 mem
    exact keeps v' (marked.terminator v' read)

end Map

lemma Substitution.resolve_below {σ : Substitution} (below : ∀ e ∈ σ, e.2.Below count) {v}
    (start : v.Below count) : (σ.resolve v).Below count := by
  have walk : ∀ (fuel : Nat) (v : Value), v.Below count → (σ.follow fuel v).Below count := by
    intro fuel
    induction fuel with
    | zero => exact fun v start => start
    | succ fuel ih =>
      intro v start
      unfold follow
      split
      · split
        · rename_i found
          exact ih _ (below _ (Lookup.mem_of_lookup found))
        · exact start
      · exact start
  exact walk _ v start

namespace Method.Marked

variable {m m' : Method} {b : BlockId} {block : Block} (marked : m.Marked mark)

include marked

lemma each : m.Each mark.has :=
  fun b block here s mem => ((marked.blocks b block here).stmts s mem).has

lemma having {P : Stmt → Prop} (each : m.Each P) :
    m.Marked { mark with has := P } where
  bound := marked.bound
  blocks b block here := by
    have old := marked.blocks b block here
    refine ⟨fun p mem => ?_, fun s mem => ?_, old.terminator⟩
    · exact ⟨(old.phis p mem).dst, (old.phis p mem).free, (old.phis p mem).reads⟩
    · exact ⟨(old.stmts s mem).defines, (old.stmts s mem).reads, each b block here s mem⟩

lemma of_blocks (grows : m.locals.size ≤ m'.locals.size)
    (blocks : ∀ b block, m'.block? b = some block → block.Marked m'.locals.size mark) : m'.Marked mark :=
  ⟨fun l some_ => Nat.lt_of_lt_of_le (marked.bound l some_) grows, blocks⟩

lemma setBlock (new : block.Marked m.locals.size mark) : (m.setBlock b block).Marked mark := by
  refine marked.of_blocks (Nat.le_refl _) fun c found here => ?_
  exact (setBlock_cases here).elim (fun same => same ▸ new) (marked.blocks c found)

lemma mapBlocks {g}
    (new : ∀ b block, block.Marked m.locals.size mark → (g b block).Marked m.locals.size mark) :
    (m.mapBlocks g).Marked mark := by
  refine marked.of_blocks (Nat.le_refl _) fun c found here => ?_
  rw [block?_mapBlocks] at here
  obtain ⟨block, at_, rfl⟩ := Option.map_eq_some_iff.1 here
  exact new c block (marked.blocks c block at_)

lemma modifyBlock {g} (new : ∀ block, block.Marked m.locals.size mark → (g block).Marked m.locals.size mark) :
    (m.modifyBlock b g).Marked mark := by
  refine marked.of_blocks (Nat.le_refl _) fun c found here => ?_
  rw [block?_modifyBlock] at here
  split at here
  · rename_i same
    obtain ⟨block, at_, rfl⟩ := Option.map_eq_some_iff.1 here
    exact new block (marked.blocks c block at_)
  · exact marked.blocks c found here

lemma modifyStmts {g : List Stmt → List Stmt}
    (new : ∀ stmts, (∀ s ∈ stmts, s.Marked m.locals.size mark) → ∀ s ∈ g stmts, s.Marked m.locals.size mark) :
    (m.modifyBlock b fun block => { block with stmts := g block.stmts }).Marked mark :=
  marked.modifyBlock fun _ old => ⟨old.phis, new _ old.stmts, old.terminator⟩

lemma eraseBlock : (m.eraseBlock b).Marked mark := by
  refine marked.of_blocks (Nat.le_refl _) fun c found here => ?_
  rw [block?_eraseBlock] at here
  split at here
  · cases here
  · exact marked.blocks c found here

lemma freshLocal : m.freshLocal.2.Marked mark ∧ mark.param m.freshLocal.1 = none ∧
      m.freshLocal.1.index < m.freshLocal.2.locals.size := by
  have grows : m.freshLocal.2.locals.size = m.locals.size + 1 := by simp [Method.freshLocal]
  refine ⟨marked.of_blocks (by omega) fun c found here => ?_, ?_, by rw [grows]; exact Nat.lt_succ_self _⟩
  · exact (marked.blocks c found here).mono (by omega)
  · by_contra some_
    exact Nat.lt_irrefl _ (marked.bound _ (Option.isSome_iff_ne_none.2 some_))

lemma pruneEdges : m.pruneEdges.Marked mark := by
  refine marked.of_blocks (Nat.le_refl _) fun c found here => ?_
  rw [block?_pruneEdges] at here
  obtain ⟨block, at_, rfl⟩ := Option.map_eq_some_iff.1 here
  have old := marked.blocks c block at_
  refine ⟨fun p mem => ?_, old.stmts, old.terminator⟩
  obtain ⟨p', among, rfl⟩ := mem_map.1 mem
  exact ⟨(old.phis p' among).dst, (old.phis p' among).free,
    fun o mem => (old.phis p' among).reads o (mem_filter.1 mem).1⟩

lemma removeUnreachable : m.removeUnreachable.1.Marked mark := by
  rw [removeUnreachable_eq]
  split
  · exact marked
  · refine pruneEdges (marked.of_blocks (Nat.le_refl _) fun c found here => ?_)
    rw [block?_restrict] at here
    split at here
    · exact marked.blocks c found here
    · cases here

lemma substitute {σ} (below : ∀ e ∈ σ, e.2.Below m.locals.size)
    (stays : ∀ s vs, mark.has s → mark.has (s.withValues vs)) : (m.substitute σ).Marked mark := by
  refine marked.of_blocks ?_ fun c found here => ?_
  · exact Nat.le_of_eq (by rw [substitute_locals])
  · rw [block?_substitute] at here
    obtain ⟨block, at_, rfl⟩ := Option.map_eq_some_iff.1 here
    rw [substitute_locals]
    exact (marked.blocks c block at_).mapValues (fun v => Substitution.resolve_below below) stays

end Method.Marked

end Restack.Ir
