/-
# Running methods

What a method does to the world around it and how it ends. The world is all that
the intermediate form leaves open: the values of constants and arguments, what
operators compute, how tests come out, and how calls and the heap answer, which
may depend on everything that happened before. An operation that can throw is an
event of the trace, whether the world answers with a value or an exception.

A handler sees the locals as they were before the statement that threw. Phis are
assigned all at once on the way into a block.
-/
import Restack.Proofs.Ir.Paths

namespace Restack.Ir

open List

open Register (Test)

/-! ## The world -/

/-- What is done to the world, operands apart: they are blank in the shape. -/
inductive Operation where
  | expr (shape : Expr)
  | stmt (shape : Stmt)

/-- An operation that was carried out, with the values of its operands. -/
structure Event (V : Type) where
  operation : Operation
  operands : List V

inductive Response (V : Type) where
  | value (v : V)
  | exception (x : V)

/-- All that a method does not decide itself. -/
structure World (V : Type) where
  constant : Constant → V
  argument : Nat → V
  /-- What a pure operator gives, its operands blank in the shape. -/
  compute : Expr → List V → V
  /-- How an event is answered behind those that happened before. -/
  respond : List (Event V) → Event V → Response V
  /-- How a test comes out; an absent operand is zero or null. -/
  holds : Test → V → Option V → Bool
  /-- The number that a switch looks for. -/
  key : V → Int32
  /-- The exception that throwing a value raises. -/
  thrown : V → V
  /-- Whether an exception is of a class. -/
  isA : String → V → Bool

structure State (V : Type) where
  env : Local → V
  /-- The exception that the last handler received. -/
  caught : V
  trace : List (Event V)

/-! ## Statements -/

def Expr.shape (e : Expr) : Expr := e.withValues (e.values.map fun _ => .zero)

def Stmt.shape (s : Stmt) : Stmt := s.mapValues fun _ => .zero

/-- Kinds of expressions that the world answers; the others are computed. -/
def Expr.asks : Expr → Bool
  | .newInstance _ | .newArray .. | .filledArray .. | .newMultiArray .. | .newObject .. => true
  | .arrayLength _ | .arrayLoad .. | .getField .. | .getStatic _ => true
  | .invoke .. | .invokePolymorphic .. | .invokeCustom .. => true
  | .checkCast .. => true
  | .binary .divInt .. | .binary .remInt .. | .binary .divLong .. | .binary .remLong .. => true
  | .binary .. | .unary .. | .compare .. | .instanceOf .. => false
  | .value _ | .param _ | .caught => false

/-- What a statement does to the world, if anything. -/
def Stmt.operation? : Stmt → Option Operation
  | .assign _ e | .effect e => if e.asks then some (.expr e.shape) else none
  | s => some (.stmt s.shape)

variable {V : Type}

def State.set (st : State V) (l : Local) (v : V) : State V :=
  { st with env := fun k => if k = l then v else st.env k }

/-- Assigns a value to a local, if there is one. -/
def State.define (st : State V) : Option Local → V → State V
  | some l, v => st.set l v
  | none, _ => st

def State.record (st : State V) (e : Event V) : State V := { st with trace := st.trace ++ [e] }

namespace World

variable (w : World V)

def value (env : Local → V) : Value → V
  | .var l => env l
  | .const c => w.constant c

/-- The value of an expression that does nothing to the world. -/
def pureValue (st : State V) : Expr → V
  | .value v => w.value st.env v
  | .param n => w.argument n
  | .caught => st.caught
  | e => w.compute e.shape (e.values.map (w.value st.env))

/-- Runs a statement; gives the exception if it throws one. -/
def stmt (st : State V) (s : Stmt) : State V × Option V :=
  match s.operation? with
  | none => match s with
    | .assign l e => (st.set l (w.pureValue st e), none)
    | _ => (st, none)
  | some op =>
    let event : Event V := ⟨op, s.values.map (w.value st.env)⟩
    match w.respond st.trace event with
    | .exception x => (st.record event, some x)
    | .value v => ((st.record event).define s.def? v, none)

/-- Runs statements up to the first one that throws. -/
def stmts (st : State V) : List Stmt → State V × Option V
  | [] => (st, none)
  | s :: rest => match w.stmt st s with
    | (st, none) => stmts st rest
    | (st, some x) => (st, some x)

end World

/-! ## Blocks and methods -/

inductive Ending (V : Type) where
  | returned (v : Option V)
  | escaped (x : V)

/-- How control leaves a block. -/
inductive Exit (V : Type) where
  | goto (t : BlockId)
  | raise (x : V)
  | ret (v : Option V)

def World.exit (w : World V) (st : State V) : Terminator → Exit V
  | .goto t => .goto t
  | .branch test first second yes no =>
    .goto (if w.holds test (w.value st.env first) (second.map (w.value st.env)) then yes else no)
  | .switch v cases default => .goto ((cases.lookup (w.key (w.value st.env v))).getD default)
  | .ret v => .ret (v.map (w.value st.env))
  | .throw v => .raise (w.thrown (w.value st.env v))

/-- Where control is after a block, or how the method ended there. -/
inductive Arrival (V : Type) where
  | moves (t : BlockId) (st : State V)
  | ends (e : Ending V) (trace : List (Event V))

/-- What is seen of a run: the events so far and, once it is over, how it ended. -/
structure Observed (V : Type) where
  trace : List (Event V)
  ending : Option (Ending V)

/-- Assigns phis at once on the way from a block. -/
def World.assignPhis (w : World V) (source : BlockId) (phis : List Phi) (st : State V) : State V :=
  { st with env := fun l =>
      match (phis.find? (·.dst = l)).bind (·.operands.lookup source) with
      | some v => w.value st.env v
      | none => st.env l }

namespace Method

variable (m : Method) (w : World V)

/-- Sends an exception that a block raised to the first handler that catches it. -/
def raise (b : BlockId) (st : State V) (x : V) : Arrival V :=
  match (m.handlersOf b).find? fun h => h.catches.all (w.isA · x) with
  | some h => .moves h.target { st with caught := x }
  | none => .ends (.escaped x) st.trace

/-- Runs a block. -/
def leave (b : BlockId) (block : Block) (st : State V) : Arrival V :=
  match w.stmts st block.stmts with
  | (st, some x) => m.raise w b st x
  | (st, none) => match w.exit st block.terminator with
    | .goto t => .moves t st
    | .raise x => m.raise w b st x
    | .ret v => .ends (.returned v) st.trace

/-- Runs at most a number of blocks from one on. -/
def runFrom : Nat → BlockId → State V → Observed V
  | 0, _, st => ⟨st.trace, none⟩
  | n + 1, b, st => match m.block? b with
    | none => ⟨st.trace, none⟩
    | some block => match m.leave w b block st with
      | .moves t st => runFrom n t (w.assignPhis b (m.phisOf t) st)
      | .ends e trace => ⟨trace, some e⟩

/-- Runs at most a number of blocks from the entry on. -/
def run (n : Nat) (st : State V) : Observed V := m.runFrom w n m.entry st

end Method

/-! ## What statements change -/

variable {w : World V} {st st' : State V} {s : Stmt} {l : Local} {x : V}

@[simp] lemma State.set_env (v : V) (k : Local) :
    (st.set l v).env k = if k = l then v else st.env k := rfl

@[simp] lemma State.define_trace (d : Option Local) (v : V) : (st.define d v).trace = st.trace := by
  cases d <;> rfl

lemma State.define_env (d : Option Local) (v : V) (k : Local) :
    (st.define d v).env k = if d = some k then v else st.env k := by
  cases d with
  | none => rfl
  | some l => simp [define, eq_comm]

/-- Just what can throw is asked of the world. -/
@[simp] lemma Expr.asks_eq (e : Expr) : e.asks = e.canThrow := by
  cases e with
  | binary op a b => cases op <;> rfl
  | _ => rfl

lemma Stmt.operation?_isSome (s : Stmt) : s.operation?.isSome = s.canThrow := by
  cases s with
  | assign l e | effect e => cases throws : e.canThrow <;> simp [operation?, canThrow, throws]
  | _ => rfl

/-- What a statement that cannot throw assigns. -/
def World.pureResult (w : World V) (st : State V) : Stmt → V
  | .assign _ e | .effect e => w.pureValue st e
  | _ => st.caught

namespace World

lemma stmt_calm (st : State V) (calm : s.canThrow = false) :
    w.stmt st s = (st.define s.def? (w.pureResult st s), none) := by
  cases s with
  | assign l e =>
    have quiet : e.canThrow = false := calm
    simp [stmt, Stmt.operation?, quiet, Stmt.def?, State.define, pureResult]
  | effect e =>
    have quiet : e.canThrow = false := calm
    simp [stmt, Stmt.operation?, quiet, Stmt.def?, State.define]
  | _ => cases calm

lemma stmt_throwing (st : State V) (throws : s.canThrow = true) : ∃ op, s.operation? = some op ∧
    ((∃ x, w.respond st.trace ⟨op, s.values.map (w.value st.env)⟩ = .exception x ∧
        w.stmt st s = (st.record ⟨op, s.values.map (w.value st.env)⟩, some x)) ∨
      ∃ v, w.respond st.trace ⟨op, s.values.map (w.value st.env)⟩ = .value v ∧
        w.stmt st s = ((st.record ⟨op, s.values.map (w.value st.env)⟩).define s.def? v, none)) := by
  rw [← Stmt.operation?_isSome] at throws
  obtain ⟨op, found⟩ := Option.isSome_iff_exists.1 throws
  refine ⟨op, found, ?_⟩
  cases answer : w.respond st.trace ⟨op, s.values.map (w.value st.env)⟩ with
  | exception x =>
    refine .inl ⟨x, rfl, ?_⟩
    unfold stmt
    simp only [found, answer]
  | value v =>
    refine .inr ⟨v, rfl, ?_⟩
    unfold stmt
    simp only [found, answer]

lemma stmt_raise (raises : w.stmt st s = (st', some x)) :
    s.canThrow = true ∧ st'.env = st.env ∧ st'.caught = st.caught := by
  cases throws : s.canThrow with
  | false =>
    rw [stmt_calm st throws] at raises
    cases raises
  | true =>
    obtain ⟨op, -, ⟨y, -, same⟩ | ⟨v, -, same⟩⟩ := stmt_throwing (w := w) st throws
    · rw [same] at raises
      cases raises
      exact ⟨rfl, rfl, rfl⟩
    · rw [same] at raises
      cases raises

lemma stmt_env (st : State V) (other : s.def? ≠ some l) : (w.stmt st s).1.env l = st.env l := by
  cases throws : s.canThrow with
  | false => simp [stmt_calm st throws, State.define_env, other]
  | true =>
    obtain ⟨op, -, ⟨y, -, same⟩ | ⟨v, -, same⟩⟩ := stmt_throwing (w := w) st throws
    · rw [same]
      rfl
    · rw [same, State.define_env, if_neg other]
      rfl

lemma stmts_env {stmts} (st : State V) (other : l ∉ defined stmts) :
    (w.stmts st stmts).1.env l = st.env l := by
  induction stmts generalizing st with
  | nil => rfl
  | cons s rest ih =>
    rw [mem_defined_cons, not_or] at other
    have here := stmt_env (w := w) st other.1
    rw [stmts]
    cases ran : w.stmt st s with
    | mk st' raised =>
      rw [ran] at here
      cases raised with
      | none => exact (ih st' other.2).trans here
      | some x => exact here

lemma stmts_append (st : State V) (first second : List Stmt) :
    w.stmts st (first ++ second) = match w.stmts st first with
      | (st, none) => w.stmts st second
      | (st, some x) => (st, some x) := by
  induction first generalizing st with
  | nil => rfl
  | cons s first ih =>
    rw [cons_append, stmts, stmts]
    obtain ⟨st', _ | x⟩ := w.stmt st s
    · exact ih st'
    · rfl

lemma stmts_append_none {first} (second : List Stmt) (ran : w.stmts st first = (st', none)) :
    w.stmts st (first ++ second) = w.stmts st' second := by
  rw [stmts_append, ran]

lemma stmts_append_some {first} (second : List Stmt)
    (ran : w.stmts st first = (st', some x)) : w.stmts st (first ++ second) = (st', some x) := by
  rw [stmts_append, ran]

lemma stmts_raise {stmts} (ran : w.stmts st stmts = (st', some x)) :
    ∃ before s rest st₁, stmts = before ++ s :: rest ∧ w.stmts st before = (st₁, none) ∧
      w.stmt st₁ s = (st', some x) := by
  induction stmts generalizing st with
  | nil => cases ran
  | cons s stmts ih =>
    rw [World.stmts] at ran
    cases here : w.stmt st s with
    | mk st₁ raised =>
      rw [here] at ran
      cases raised with
      | none =>
        obtain ⟨before, s', rest, st₂, rfl, passed, raised⟩ := ih ran
        refine ⟨s :: before, s', rest, st₂, rfl, ?_, raised⟩
        rw [World.stmts, here]
        exact passed
      | some y =>
        cases ran
        exact ⟨[], s, stmts, st, rfl, rfl, here⟩

lemma stmts_calm {stmts} (st : State V) (calm : ∀ s ∈ stmts, s.canThrow = false) :
    ∃ st', w.stmts st stmts = (st', none) := by
  cases ran : w.stmts st stmts with
  | mk st' raised =>
    cases raised with
    | none => exact ⟨st', rfl⟩
    | some x =>
      obtain ⟨before, s, rest, st₁, split, -, raised⟩ := stmts_raise ran
      have throws := (stmt_raise raised).1
      rw [calm s (by rw [split]; simp)] at throws
      cases throws

lemma stmts_raise_first {rest} (calm : ∀ s ∈ rest, s.canThrow = false)
    (ran : w.stmts st (s :: rest) = (st', some x)) : w.stmt st s = (st', some x) := by
  obtain ⟨before, s', rest', st₁, split, front, raised⟩ := stmts_raise ran
  cases before with
  | nil =>
    cases split
    cases front
    exact raised
  | cons =>
    cases split
    have throws := (stmt_raise raised).1
    rw [calm s' (by simp)] at throws
    cases throws

end World

/-! ## States that agree on some locals -/

/-- Two states that differ in other locals than the given ones only. -/
structure Agree (G : Local → Prop) (st st' : State V) : Prop where
  caught : st'.caught = st.caught
  trace : st'.trace = st.trace
  env : ∀ l, G l → st'.env l = st.env l

namespace Agree

variable {G H : Local → Prop} (agree : Agree G st st')

include agree

lemma mono (sub : ∀ l, H l → G l) : Agree H st st' :=
  ⟨agree.caught, agree.trace, fun l h => agree.env l (sub l h)⟩

lemma value {v} (reads : ∀ l, v = .var l → G l) : w.value st'.env v = w.value st.env v := by
  cases v with
  | var l => exact agree.env l (reads l rfl)
  | const c => rfl

lemma values {vs : List Value} (reads : ∀ l, .var l ∈ vs → G l) :
    vs.map (w.value st'.env) = vs.map (w.value st.env) :=
  map_congr_left fun _ mem => agree.value fun l same => reads l (same ▸ mem)

lemma set (l : Local) (v : V) : Agree (fun k => G k ∨ k = l) (st.set l v) (st'.set l v) := by
  refine ⟨agree.caught, agree.trace, fun k mem => ?_⟩
  by_cases same : k = l
  · simp [same]
  · simpa [same] using agree.env k (mem.resolve_right same)

lemma define (d : Option Local) (v : V) :
    Agree (fun k => G k ∨ d = some k) (st.define d v) (st'.define d v) := by
  cases d with
  | none => exact agree.mono fun k mem => mem.resolve_right (by simp)
  | some l => exact (agree.set l v).mono fun k mem => mem.imp id fun same => (Option.some.inj same).symm

lemma pureValue {e} (reads : ∀ l, .var l ∈ e.values → G l) : w.pureValue st' e = w.pureValue st e := by
  cases e with
  | value => exact agree.value fun l same => reads l (by simp [Expr.values, same])
  | param n => rfl
  | caught => exact agree.caught
  | _ => exact congrArg _ (agree.values reads)

lemma pureResult (reads : ∀ l, .var l ∈ s.values → G l) : w.pureResult st' s = w.pureResult st s := by
  cases s with
  | assign l e | effect e => exact agree.pureValue reads
  | _ => exact agree.caught

lemma stmt (reads : ∀ l, .var l ∈ s.values → G l) : ∃ t t' r, w.stmt st s = (t, r) ∧ w.stmt st' s = (t', r) ∧
      Agree (fun l => G l ∨ r = none ∧ s.def? = some l) t t' := by
  cases throws : s.canThrow with
  | false =>
    refine ⟨_, _, none, World.stmt_calm st throws, World.stmt_calm st' throws, ?_⟩
    rw [agree.pureResult reads]
    exact (agree.define s.def? _).mono fun l mem => mem.imp id And.right
  | true =>
    have operands := agree.values (w := w) reads
    have recorded (e : Event V) : Agree G (st.record e) (st'.record e) :=
      ⟨agree.caught, congrArg (· ++ [e]) agree.trace, agree.env⟩
    obtain ⟨op, found, ran⟩ := World.stmt_throwing (w := w) st throws
    obtain ⟨op', found', ran'⟩ := World.stmt_throwing (w := w) st' throws
    rw [found] at found'
    cases found'
    rw [operands, agree.trace] at ran'
    rcases ran with ⟨x, answer, ran⟩ | ⟨v, answer, ran⟩ <;>
      rcases ran' with ⟨x', answer', ran'⟩ | ⟨v', answer', ran'⟩ <;> rw [answer] at answer' <;>
      cases answer'
    · exact ⟨_, _, _, ran, ran', (recorded _).mono fun l mem => mem.resolve_right (by simp)⟩
    · exact ⟨_, _, _, ran, ran', ((recorded _).define s.def? v).mono fun l mem =>
        mem.imp id And.right⟩

lemma stmts (stmts : List Stmt)
    (reads : ∀ before s rest, stmts = before ++ s :: rest → ∀ l, .var l ∈ s.values →
      G l ∨ l ∈ defined before) :
    ∃ t t' r, w.stmts st stmts = (t, r) ∧ w.stmts st' stmts = (t', r) ∧ t'.trace = t.trace ∧
      (r = none → Agree (fun l => G l ∨ l ∈ defined stmts) t t') := by
  induction stmts generalizing st st' G with
  | nil => exact ⟨_, _, none, rfl, rfl, agree.trace, fun _ => agree.mono fun l mem => by simpa using mem⟩
  | cons s stmts ih =>
    obtain ⟨t, t', r, ran, ran', agree'⟩ := agree.stmt (w := w) (s := s) fun l read =>
      (reads [] s stmts rfl l read).resolve_right (by simp)
    rw [World.stmts, World.stmts, ran, ran']
    cases r with
    | some x => exact ⟨t, t', some x, rfl, rfl, agree'.trace, by simp⟩
    | none =>
      obtain ⟨u, u', r, ran, ran', trace, agree''⟩ := ih agree' fun before s' rest split l read => by
        have earlier := reads (s :: before) s' rest (by rw [split]; rfl) l read
        rw [mem_defined_cons, ← or_assoc] at earlier
        simpa using earlier
      refine ⟨u, u', r, ran, ran', trace, fun calm => (agree'' calm).mono fun l mem => ?_⟩
      rw [mem_defined_cons, ← or_assoc] at mem
      simpa using mem

lemma exit {t} (reads : ∀ l, .var l ∈ t.values → G l) : w.exit st' t = w.exit st t := by
  have same {v : Value} (mem : v ∈ t.values) : w.value st'.env v = w.value st.env v :=
    agree.value fun l same => reads l (same ▸ mem)
  cases t with
  | goto t => rfl
  | branch test first second yes no =>
    have one := same (v := first) (by simp [Terminator.values])
    cases second with
    | none => simp only [World.exit, one, Option.map_none]
    | some v =>
      have other := same (v := v) (by simp [Terminator.values])
      simp only [World.exit, one, Option.map_some, other]
  | switch v cases default | throw v =>
    have one := same (v := v) (by simp [Terminator.values])
    simp only [World.exit, one]
  | ret v =>
    cases v with
    | none => rfl
    | some v =>
      have one := same (v := v) (by simp [Terminator.values])
      simp only [World.exit, Option.map_some, one]

lemma catching (x : V) :
    Agree G { st with caught := x } { st' with caught := x } :=
  ⟨rfl, agree.trace, agree.env⟩

end Agree

/-! ## Assigning phis -/

section Phis

variable {source : BlockId} {phis : List Phi}

@[simp] lemma World.assignPhis_nil : w.assignPhis source [] st = st := rfl

lemma World.assignPhis_other (other : l ∉ phis.map (·.dst)) :
    (w.assignPhis source phis st).env l = st.env l := by
  have none_ : phis.find? (·.dst = l) = none := by
    rw [find?_eq_none]
    intro p mem same
    exact other (mem_map.2 ⟨p, mem, of_decide_eq_true same⟩)
  simp only [assignPhis, none_, Option.bind_none]

lemma World.assignPhis_dst {p v} (distinct : (phis.map (·.dst)).Nodup)
    (phi : p ∈ phis) (once : (p.operands.map (·.1)).Nodup) (operand : (source, v) ∈ p.operands) :
    (w.assignPhis source phis st).env p.dst = w.value st.env v := by
  have some_ : (phis.find? (·.dst = p.dst)).isSome := find?_isSome.2 ⟨p, phi, by simp⟩
  obtain ⟨q, found⟩ := Option.isSome_iff_exists.1 some_
  have same : q.dst = p.dst := by simpa using find?_some found
  obtain rfl := inj_on_of_nodup_map distinct (mem_of_find?_eq_some found) phi same
  simp only [assignPhis, found, Option.bind_some, (Lookup.lookup_eq_some_iff_mem once).2 operand]

end Phis

/-! ## Runs and paths -/

lemma World.exit_mem {t b} (leads : w.exit st t = .goto b) : b ∈ t.successors := by
  cases t with
  | goto t =>
    cases leads
    exact mem_cons_self
  | branch test first second yes no =>
    cases leads
    rw [Terminator.successors]
    split <;> simp
  | switch v cases default =>
    cases leads
    rw [Terminator.successors, mem_eraseDups, mem_append, mem_singleton]
    cases found : cases.lookup (w.key (w.value st.env v)) with
    | none => exact .inr rfl
    | some b =>
      obtain ⟨before, after, same, -⟩ := lookup_eq_some_iff.1 found
      exact .inl (mem_map.2 ⟨_, same ▸ mem_append_right _ mem_cons_self, rfl⟩)
  | ret v => cases leads
  | throw v => cases leads

lemma World.exit_raise {t} (raises : w.exit st t = .raise x) : t.isThrow = true := by
  cases t <;> first | rfl | cases raises

namespace Method

variable {m : Method} {b t : BlockId} {block : Block}

lemma raise_cases (m : Method) (w : World V) (b : BlockId) (x : V) :
    (∃ t, (∃ trap ∈ m.traps, b ∈ trap.covered ∧ ∃ h ∈ trap.handlers, h.target = t) ∧
        ∀ st, m.raise w b st x = .moves t { st with caught := x }) ∨
      ∀ st, m.raise w b st x = .ends (.escaped x) st.trace := by
  cases found : (m.handlersOf b).find? fun h => h.catches.all (w.isA · x) with
  | none => exact .inr fun st => by simp only [raise, found]
  | some h =>
    have mem := mem_of_find?_eq_some found
    rw [handlersOf, mem_flatMap] at mem
    obtain ⟨trap, among, handler⟩ := mem
    rw [mem_filter, contains_iff_mem] at among
    exact .inl ⟨h.target, ⟨trap, among.1, among.2, h, handler, rfl⟩, fun st => by
      simp only [raise, found]⟩

lemma raise_moves (caught : m.raise w b st x = .moves t st') :
    st' = { st with caught := x } ∧
      ∃ trap ∈ m.traps, b ∈ trap.covered ∧ ∃ h ∈ trap.handlers, h.target = t := by
  rcases raise_cases m w b x with ⟨t', leads, same⟩ | same
  · rw [same] at caught
    cases caught
    exact ⟨rfl, leads⟩
  · rw [same] at caught
    cases caught

/-- How a run of a block goes on to another: behind all statements, or in front
of the one that throws. -/
inductive Goes (m : Method) (w : World V) (b : BlockId) (block : Block) (st : State V) :
    List Stmt → BlockId → State V → Prop
  | jump {u t} (ran : w.stmts st block.stmts = (u, none))
      (leads : w.exit u block.terminator = .goto t) : Goes m w b block st block.stmts t u
  | throw {u t x} (ran : w.stmts st block.stmts = (u, none))
      (throws : w.exit u block.terminator = .raise x)
      (caught : m.raise w b u x = .moves t { u with caught := x }) :
      Goes m w b block st block.stmts t { u with caught := x }
  | raise {before rest s u u' t x}
      (split : block.stmts = before ++ s :: rest) (ran : w.stmts st before = (u, none))
      (throws : w.stmt u s = (u', some x))
      (caught : m.raise w b u' x = .moves t { u' with caught := x }) :
      Goes m w b block st before t { u' with caught := x }

lemma goes_of_leave (left : m.leave w b block st = .moves t st') :
    ∃ before, m.Goes w b block st before t st' := by
  rw [leave] at left
  split at left
  · rename_i u x ran
    obtain ⟨before, s, rest, u₁, split, passed, throws⟩ := World.stmts_raise ran
    obtain ⟨rfl, -⟩ := raise_moves left
    exact ⟨before, .raise split passed throws left⟩
  · rename_i u ran
    split at left
    · rename_i t' leads
      cases left
      exact ⟨_, .jump ran leads⟩
    · rename_i x throws
      obtain ⟨rfl, -⟩ := raise_moves left
      exact ⟨_, .throw ran throws left⟩
    · cases left

lemma Goes.leaves {before} (here : m.block? b = some block)
    (goes : m.Goes w b block st before t st') : m.Leaves b block before t := by
  cases goes with
  | jump ran leads => exact .jump (World.exit_mem leads)
  | throw ran throws caught =>
    have ends := World.exit_raise throws
    refine .throw ends ((mem_exceptionalSuccessors here).2 ⟨?_, (raise_moves caught).2⟩)
    rw [Block.canThrow, ends, Bool.or_true]
  | raise split ran throws caught =>
    have raises := (World.stmt_raise throws).1
    refine .raise split raises ((mem_exceptionalSuccessors here).2 ⟨?_, (raise_moves caught).2⟩)
    rw [Block.canThrow, Bool.or_eq_true, any_eq_true]
    exact .inl ⟨_, by rw [split]; simp, raises⟩

end Method

end Restack.Ir
