/-
# Runs block by block

`stop` tells where a run is behind a number of blocks: at the beginning of a block,
with all locals, the exception caught last and the events so far, or at its end. What
`run` shows is what can be seen there (`run_eq_stop`).

A method hastens another if each of its blocks does what one or more blocks of the
other do, one behind the other (`Hastens`). Its runs then stop where those of the other
method do and pass by the blocks that it does not have (`Hastens.stops`).
-/
import Mathlib.Logic.Function.Iterate
import Mathlib.Order.WellFounded
import Restack.Proofs.Ir.Run

namespace Restack.Ir

open List

variable {V : Type}

/-- What can be seen of a run where it is. -/
def Arrival.observed : Arrival V → Observed V
  | .moves _ st => ⟨st.trace, none⟩
  | .ends e trace => ⟨trace, some e⟩

/-- A run is at a block that a method does not have. -/
def Arrival.Outside (m : Method) : Arrival V → Prop
  | .moves b _ => m.block? b = none
  | .ends _ _ => False

lemma World.assignPhis_map {w : World V} {st source source' phis f} (same : ∀ p ∈ phis, (f p).dst = p.dst ∧
      (f p).operands.lookup source' = p.operands.lookup source) :
    w.assignPhis source' (phis.map f) st = w.assignPhis source phis st := by
  have taken (l : Local) : ((phis.map f).find? (·.dst = l)).bind (·.operands.lookup source') =
      (phis.find? (·.dst = l)).bind (·.operands.lookup source) := by
    induction phis with
    | nil => rfl
    | cons p phis ih =>
      obtain ⟨dst, operand⟩ := same p mem_cons_self
      rw [map_cons, find?_cons, find?_cons, dst]
      split
      · exact operand
      · exact ih fun q later => same q (mem_cons_of_mem _ later)
  simp only [assignPhis, taken]

/-- Two runs at one place, with states that agree on some locals. -/
inductive Arrival.Alike (G : Local → Prop) : Arrival V → Arrival V → Prop
  | moves {b st st'} (agree : Agree G st st') :
      Alike G (.moves b st) (.moves b st')
  | ends {e trace} : Alike G (.ends e trace) (.ends e trace)

variable {G : Local → Prop} {a : Arrival V}

lemma Arrival.Alike.observed {a'} (alike : Alike G a a') : a'.observed = a.observed := by
  cases alike with
  | moves agree => rw [Arrival.observed, Arrival.observed, agree.trace]
  | ends => rfl

lemma Arrival.Alike.mono {H a'} (alike : Alike G a a') (sub : ∀ l, H l → G l) : Alike H a a' := by
  cases alike with
  | moves agree => exact .moves (agree.mono sub)
  | ends => exact .ends

namespace Method

variable (m : Method) (w : World V)

/-- Assigns the phis of the block that control comes to from another. -/
def arrive (b : BlockId) : Arrival V → Arrival V
  | .moves t st => .moves t (w.assignPhis b (m.phisOf t) st)
  | .ends e trace => .ends e trace

/-- Runs the block that a run is at. -/
def advance : Arrival V → Arrival V
  | .moves b st => match m.block? b with
    | some block => m.arrive w b (m.leave w b block st)
    | none => .moves b st
  | .ends e trace => .ends e trace

/-- Where a run is behind a number of blocks. -/
def stop (n : Nat) (st : State V) : Arrival V := (m.advance w)^[n] (.moves m.entry st)

variable {m w} {b : BlockId} {block : Block} {st : State V}

lemma advance_moves (here : m.block? b = some block) :
    m.advance w (.moves b st) = m.arrive w b (m.leave w b block st) := by
  simp only [advance, here]

lemma advance_ends (n : Nat) (e : Ending V) (trace : List (Event V)) :
    (m.advance w)^[n] (.ends e trace) = .ends e trace :=
  Function.iterate_fixed rfl n

lemma stop_succ (n : Nat) : m.stop w (n + 1) st = m.advance w (m.stop w n st) :=
  Function.iterate_succ_apply' _ n _

lemma runFrom_eq (n : Nat) : m.runFrom w n b st = ((m.advance w)^[n] (.moves b st)).observed := by
  induction n generalizing b st with
  | zero => rfl
  | succ n ih =>
    rw [Function.iterate_succ_apply, runFrom]
    cases here : m.block? b with
    | none =>
      have stays : m.advance w (.moves b st) = .moves b st := by simp only [advance, here]
      rw [stays, Function.iterate_fixed stays]
      rfl
    | some block =>
      rw [advance_moves here]
      cases left : m.leave w b block st with
      | moves t st' => simp only [left, arrive, ih]
      | ends e trace =>
        simp only [left, arrive, advance_ends]
        rfl

lemma run_eq_stop (n : Nat) : m.run w n st = (m.stop w n st).observed := runFrom_eq n

lemma advance_inside (edges : m.EdgesLand) (inside : ¬ a.Outside m) : ¬ (m.advance w a).Outside m := by
  cases a with
  | ends e trace => exact inside
  | moves b st =>
    obtain ⟨block, here⟩ := Option.ne_none_iff_exists'.1 inside
    rw [advance_moves here]
    cases left : m.leave w b block st with
    | ends e trace => exact id
    | moves t st' =>
      obtain ⟨before, goes⟩ := goes_of_leave left
      have exists_ := edges b t ((goes.leaves here).edge here)
      exact Option.ne_none_iff_isSome.2 exists_

lemma iterate_inside (edges : m.EdgesLand)
    (inside : ¬ a.Outside m) (n : Nat) : ¬ ((m.advance w)^[n] a).Outside m := by
  induction n with
  | zero => exact inside
  | succ n ih =>
    rw [Function.iterate_succ_apply']
    exact advance_inside edges ih

lemma stop_congr {m'} (start : m'.entry = m.entry) (entry : (m'.block? m'.entry).isSome = true)
    (edges : m'.EdgesLand)
    (same : ∀ a : Arrival V, ¬ a.Outside m' → m'.advance w a = m.advance w a) (n : Nat) :
    m'.stop w n st = m.stop w n st := by
  induction n with
  | zero => exact congrArg (Arrival.moves · st) start
  | succ n ih =>
    have inside : ¬ (m'.stop w n st).Outside m' :=
      iterate_inside edges (a := .moves m'.entry st) (Option.ne_none_iff_isSome.2 entry) n
    rw [stop_succ, stop_succ, same _ inside, ih]

lemma stop_alike {m' : Method} (start : m'.entry = m.entry)
    (step : ∀ a a' : Arrival V, a.Alike G a' → (m.advance w a).Alike G (m'.advance w a'))
    (n : Nat) : (m.stop w n st).Alike G (m'.stop w n st) := by
  induction n with
  | zero =>
    rw [stop, stop, start]
    exact .moves ⟨rfl, rfl, fun _ _ => rfl⟩
  | succ n ih =>
    rw [stop_succ, stop_succ]
    exact step _ _ ih

/-! ## Pruned edges -/

section Leaving

variable {u : State V}

lemma leave_raised {x} (ran : w.stmts st block.stmts = (u, some x)) :
    m.leave w b block st = m.raise w b u x := by
  simp only [leave, ran]

lemma leave_exit (ran : w.stmts st block.stmts = (u, none)) :
    m.leave w b block st = match w.exit u block.terminator with
      | .goto t => .moves t u
      | .raise x => m.raise w b u x
      | .ret v => .ends (.returned v) u.trace := by
  cases exit : w.exit u block.terminator <;> simp only [leave, ran, exit]

end Leaving

lemma leave_congr {m' : Method} {block'} (stmts : block'.stmts = block.stmts)
    (terminator : block'.terminator = block.terminator)
    (handlers : block.canThrow = true → m'.handlersOf b = m.handlersOf b) :
    m'.leave w b block' st = m.leave w b block st := by
  have raise (throws : block.canThrow = true) (st : State V) (x : V) :
      m'.raise w b st x = m.raise w b st x := by
    rw [Method.raise, Method.raise, handlers throws]
  cases ran : w.stmts st block.stmts with
  | mk u raised =>
    have ran' := ran
    rw [← stmts] at ran'
    cases raised with
    | some x =>
      obtain ⟨before, s, rest, u₁, split, -, raised⟩ := World.stmts_raise ran
      rw [leave_raised ran, leave_raised ran']
      refine raise ?_ u x
      rw [Block.canThrow, Bool.or_eq_true, any_eq_true]
      exact .inl ⟨s, by rw [split]; simp, (World.stmt_raise raised).1⟩
    | none =>
      rw [leave_exit ran, leave_exit ran', terminator]
      cases exits : w.exit u block.terminator with
      | goto t => rfl
      | ret v => rfl
      | raise x =>
        refine raise ?_ u x
        rw [Block.canThrow, World.exit_raise exits, Bool.or_true]

lemma handlersOf_pruneEdges (exists_ : (m.block? b).isSome = true) :
    m.pruneEdges.handlersOf b = (m.handlersOf b).filter fun h => (m.block? h.target).isSome := by
  have kept : m.pruneEdges.traps = (m.traps.map m.trimTrap).filter fun t =>
      !t.covered.isEmpty && !t.handlers.isEmpty := rfl
  rw [handlersOf, handlersOf, kept]
  induction m.traps with
  | nil => rfl
  | cons trap traps ih =>
    have covers : (m.trimTrap trap).covered.contains b = trap.covered.contains b := by
      simp [trimTrap, exists_]
    have handlers : (m.trimTrap trap).handlers =
        trap.handlers.filter fun h => (m.block? h.target).isSome := rfl
    rw [map_cons, filter_cons, filter_cons]
    by_cases covered : trap.covered.contains b = true
    · have some_ : (m.trimTrap trap).covered.isEmpty = false :=
        isEmpty_eq_false_iff_exists_mem.2 ⟨b, contains_iff_mem.1 (covers.trans covered)⟩
      rw [if_pos covered, flatMap_cons, filter_append, ← ih]
      by_cases empty : (m.trimTrap trap).handlers = []
      · rw [if_neg (by simp [empty]), ← handlers, empty, nil_append]
      · rw [if_pos (by simp [some_, empty]), filter_cons, if_pos (covers.trans covered),
          flatMap_cons, handlers]
    · rw [if_neg covered, ← ih]
      split
      · rw [filter_cons, if_neg (by rwa [covers])]
      · rfl

/-- Pruning leaves every block its run, where edges lead to blocks. -/
lemma advance_pruneEdges (listed : ∀ b, (m.block? b).isSome = true → b ∈ m.layout)
    (edges : m.EdgesLand) (a : Arrival V) : m.pruneEdges.advance w a = m.advance w a := by
  cases a with
  | ends e trace => rfl
  | moves b st =>
    cases here : m.block? b with
    | none =>
      have gone : m.pruneEdges.block? b = none := by rw [block?_pruneEdges, here, Option.map_none]
      simp only [advance, here, gone]
    | some block =>
      have exists_ : (m.block? b).isSome = true := by rw [here]; rfl
      have here' := block?_pruneEdges (m := m) (b := b)
      rw [here] at here'
      have handlers (throws : block.canThrow = true) :
          m.pruneEdges.handlersOf b = m.handlersOf b := by
        rw [handlersOf_pruneEdges exists_, filter_eq_self]
        intro h among
        rw [handlersOf, mem_flatMap] at among
        obtain ⟨trap, mem, handler⟩ := among
        rw [mem_filter, contains_iff_mem] at mem
        exact edges b h.target ⟨block, here, .inr ⟨throws, trap, mem.1, mem.2, h, handler, rfl⟩⟩
      have same : m.pruneEdges.leave w b
          { block with phis := block.phis.map (Phi.trim (m.predecessors b)) } st =
          m.leave w b block st := leave_congr rfl rfl handlers
      rw [advance_moves here, advance_moves here', same]
      cases left : m.leave w b block st with
      | ends e trace => rfl
      | moves t st' =>
        obtain ⟨before, goes⟩ := goes_of_leave left
        have source : b ∈ m.predecessors t :=
          mem_predecessors.2 ⟨listed b exists_, (goes.leaves here).edge here⟩
        have phis : m.pruneEdges.phisOf t = (m.phisOf t).map (Phi.trim (m.predecessors t)) := by
          rw [phisOf, phisOf, block?_pruneEdges]
          cases m.block? t <;> rfl
        rw [arrive, phis]
        exact congrArg (Arrival.moves t) (World.assignPhis_map fun p _ =>
          ⟨rfl, Lookup.lookup_filter_key (contains_iff_mem.2 source)⟩)

lemma stop_pruneEdges (listed : ∀ b, (m.block? b).isSome = true → b ∈ m.layout)
    (edges : m.EdgesLand) (n : Nat) : m.pruneEdges.stop w n st = m.stop w n st := by
  have same : m.pruneEdges.advance w = m.advance w := funext (advance_pruneEdges listed edges)
  rw [stop, stop, same, pruneEdges_entry]

/-! ## Fewer blocks that do the same -/

/-- Each block of a method does what some blocks of another do, where the run of the
other passes by blocks that the method does not have. -/
structure Hastens (m' m : Method) : Prop where
  entry : m'.entry = m.entry
  blocks : ∀ b, m.block? b = none → m'.block? b = none
  advance : ∀ {V : Type} (w : World V) (a : Arrival V), ¬ a.Outside m' →
    ∃ k, m'.advance w a = (m.advance w)^[k + 1] a ∧
      ∀ j < k, ((m.advance w)^[j + 1] a).Outside m'

namespace Hastens

variable {m' m'' : Method}

lemma refl (m : Method) : Hastens m m :=
  ⟨rfl, fun _ => id, fun _ _ _ => ⟨0, rfl, fun _ small => absurd small (Nat.not_lt_zero _)⟩⟩

lemma outside (hastens : Hastens m' m) (out : a.Outside m) : a.Outside m' := by
  cases a with
  | moves b st => exact hastens.blocks b out
  | ends e trace => exact out

lemma iterate (second : Hastens m'' m') (first : Hastens m' m)
    (edges : m'.EdgesLand) (inside : ¬ a.Outside m') (n : Nat)
    (passed : ∀ j < n, ((m'.advance w)^[j + 1] a).Outside m'') :
    ∃ k, (m'.advance w)^[n + 1] a = (m.advance w)^[k + 1] a ∧
      ∀ j < k, ((m.advance w)^[j + 1] a).Outside m'' := by
  induction n with
  | zero =>
    obtain ⟨k, same, gone⟩ := first.advance w a inside
    exact ⟨k, same, fun j small => second.outside (gone j small)⟩
  | succ n ih =>
    obtain ⟨k, same, gone⟩ := ih fun j small => passed j (Nat.lt_succ_of_lt small)
    obtain ⟨k', same', gone'⟩ := first.advance w _ (iterate_inside (w := w) edges inside (n + 1))
    have shift (j : Nat) : (m.advance w)^[j + 1] ((m.advance w)^[k + 1] a) =
        (m.advance w)^[k + 1 + j + 1] a := by
      rw [← Function.iterate_add_apply, show j + 1 + (k + 1) = k + 1 + j + 1 by omega]
    refine ⟨k + 1 + k', ?_, fun j small => ?_⟩
    · rw [Function.iterate_succ_apply', same', same, shift]
    · rcases Nat.lt_trichotomy j k with early | rfl | late
      · exact gone j early
      · exact same ▸ passed n (Nat.lt_succ_self n)
      · obtain ⟨i, rfl⟩ := Nat.exists_eq_add_of_le late
        rw [← shift, ← same]
        exact second.outside (gone' i (by omega))

lemma trans (second : Hastens m'' m') (first : Hastens m' m) (edges : m'.EdgesLand) : Hastens m'' m := by
  refine ⟨second.entry.trans first.entry, fun b gone => second.blocks b (first.blocks b gone),
    fun w a inside => ?_⟩
  obtain ⟨n, same, passed⟩ := second.advance w a inside
  rw [same]
  exact second.iterate first edges (fun out => inside (second.outside out)) n passed

/-- A run stops where the run of the other method does, and nothing is passed by but
blocks that are gone. -/
lemma stops (hastens : Hastens m' m) (entry : (m'.block? m'.entry).isSome = true)
    (edges : m'.EdgesLand) (w : World V) (st : State V) :
    ∃ g : Nat → Nat, g 0 = 0 ∧ StrictMono g ∧ (∀ k, m'.stop w k st = m.stop w (g k) st) ∧
      ∀ n, n ∉ Set.range g → (m.stop w n st).Outside m' := by
  have start : ¬ (Arrival.moves m'.entry st).Outside m' := Option.ne_none_iff_isSome.2 entry
  have inside (k : Nat) : ¬ (m'.stop w k st).Outside m' := iterate_inside edges start k
  choose more same passed using fun k => hastens.advance w (m'.stop w k st) (inside k)
  let g : Nat → Nat := Nat.rec 0 fun k before => more k + 1 + before
  have later (k : Nat) : g (k + 1) = more k + 1 + g k := rfl
  have rising : StrictMono g := strictMono_nat_of_lt_succ fun k => by
    rw [later]
    omega
  have stops (k : Nat) : m'.stop w k st = m.stop w (g k) st := by
    induction k with
    | zero => exact congrArg (Arrival.moves · st) hastens.entry
    | succ k ih => rw [stop_succ, same, ih, stop, stop, ← Function.iterate_add_apply]
  refine ⟨g, rfl, rising, stops, fun n missed => ?_⟩
  have upTo (k : Nat) : n ≤ g k → (m.stop w n st).Outside m' := by
    induction k with
    | zero => exact fun least => absurd ⟨0, (Nat.le_zero.1 least).symm⟩ missed
    | succ k ih =>
      intro below
      rcases Nat.lt_or_ge (g k) n with above | early
      · obtain ⟨j, rfl⟩ := Nat.exists_eq_add_of_lt above
        have small : j ≠ more k := by
          rintro rfl
          exact missed ⟨k + 1, by rw [later]; omega⟩
        have gone := passed k j (by rw [later] at below; omega)
        rw [stops, stop, ← Function.iterate_add_apply] at gone
        rwa [show g k + j + 1 = j + 1 + g k by omega]
      · exact ih early
  exact upTo n rising.le_apply

end Hastens

end Method

end Restack.Ir
