/-
# What the instructions of a span become

`Lines` relates the instructions of a span to statements, terminator and
register writes, given what is known of the registers at the entry of the span's
block. `fillFrom_spec` says that filling a block produces such lines, read with
the values that registers turn out to have in any later state of the tables.
-/
import Restack.Proofs.Ir.Values
import Restack.Proofs.Lifting.Action
import Restack.Proofs.Lifting.Registers.Closing

namespace Restack.Lifting

open Register (Instruction Reg)
open Ir (BlockId Local Value Stmt Terminator defined)
open List Lookup
open Outcome
open Registers (Good Later Settles Reached)

/-- The value of a register after some writes to what is known at the entry of a block. -/
def after (known : Reg → Option Value) (writes : List (Reg × Local)) (r : Reg) : Option Value :=
  match writes.lookup r with
  | some l => some (.var l)
  | none => known r

/-- Values of registers, in order. -/
def Holds (values : Reg → Option Value) (regs : List Reg) (vs : List Value) : Prop :=
  List.Forall₂ (fun r v => values r = some v) regs vs

/-- What one instruction becomes. The indices are the local that holds the
result of the call in front of it, what it becomes, the writes after it and the
local that holds its own result. -/
inductive Line (o : Outline) (span : Span) (known : Reg → Option Value) (pos : Nat) (last : Bool)
    (i : Instruction) (writes : List (Reg × Local)) :
    Option Local → Filling → List (Reg × Local) → Option Local → Prop
  | define {result regs vs dest e l} (read : operands i = .ok regs)
      (values : Holds (after known writes) regs vs) (does : Does o span.stop i vs (.define dest e))
      (here : (span.landing.isSome && last) = false) :
      Line o span known pos last i writes result ⟨[.assign l e], none, none⟩ ((dest, l) :: writes) none
  | defer {result regs vs dest e l} (read : operands i = .ok regs)
      (values : Holds (after known writes) regs vs) (does : Does o span.stop i vs (.define dest e))
      (lands : (span.landing.isSome && last) = true) :
      Line o span known pos last i writes result ⟨[.assign l e], none, some (dest, l)⟩ writes none
  | keep {result regs vs e l} (read : operands i = .ok regs)
      (values : Holds (after known writes) regs vs) (does : Does o span.stop i vs (.call e))
      (taken : takesResult o (pos + 1) = true) :
      Line o span known pos last i writes result ⟨[.assign l e], none, none⟩ writes (some l)
  | drop {result regs vs e} (read : operands i = .ok regs)
      (values : Holds (after known writes) regs vs) (does : Does o span.stop i vs (.call e))
      (left : takesResult o (pos + 1) = false) :
      Line o span known pos last i writes result ⟨[.effect e], none, none⟩ writes none
  | take {regs vs dest l} (read : operands i = .ok regs)
      (values : Holds (after known writes) regs vs)
      (does : Does o span.stop i vs (.takeResult dest)) :
      Line o span known pos last i writes (some l) .empty ((dest, l) :: writes) none
  | perform {result regs vs s} (read : operands i = .ok regs)
      (values : Holds (after known writes) regs vs) (does : Does o span.stop i vs (.perform s)) :
      Line o span known pos last i writes result ⟨[s], none, none⟩ writes none
  | finish {result regs vs t} (read : operands i = .ok regs)
      (values : Holds (after known writes) regs vs) (does : Does o span.stop i vs (.finish t)) :
      Line o span known pos last i writes result ⟨[], some t, none⟩ writes none

/-- What instructions from a position on become. -/
inductive Lines (o : Outline) (span : Span) (known : Reg → Option Value) :
    Nat → List Instruction → List (Reg × Local) → Option Local → Filling → List (Reg × Local) →
      Option Local → Prop
  | nil {pos writes result} : Lines o span known pos [] writes result .empty writes result
  | cons {pos i rest writes result head writes' result' tail writes'' result''}
      (first : Line o span known pos rest.isEmpty i writes result head writes' result')
      (later : Lines o span known (pos + 1) rest writes' result' tail writes'' result'') :
      Lines o span known pos (i :: rest) writes result (head.append tail) writes'' result''

/-! ## Values in a later state -/

/-- What the finished tables say of the registers at the entry of a block. -/
def Registers.known (f : Registers) (b : BlockId) (r : Reg) : Option Value :=
  (f.start? b r).map f.resolve

variable {o : Outline}

lemma after_of_agrees {s f b r v} (good : Good o [] s) (later : Later s f) (agrees : s.Agrees b r v) :
    after (f.known b) (s.table b).written r = some (f.resolve v) := by
  obtain ⟨w, found, same⟩ := agrees
  have same' := later.same _ _ same
  rw [after]
  cases written : (s.table b).written.lookup r with
  | some l =>
    rw [Registers.exit?_of_written written] at found
    cases found
    have plain := later.plain l (good.plain b r l (mem_of_lookup written))
    rw [← same', Registers.resolve, Ir.Substitution.resolve_of_lookup_none plain.unreplaced]
  | none =>
    rw [Registers.exit?_of_unwritten written] at found
    obtain ⟨x, found', same''⟩ := later.entered b r w found
    simp only [Registers.known, found', Option.map_some, same'', same']

/-- Applies a function to the operands of what instructions became. -/
def Filling.mapValues (f : Value → Value) (filling : Filling) : Filling where
  stmts := filling.stmts.map (Stmt.mapValues f)
  terminator := filling.terminator.map (Terminator.mapValues f)
  deferred := filling.deferred

lemma Filling.mapValues_append (f : Value → Value) (a b : Filling) :
    (a.append b).mapValues f = (a.mapValues f).append (b.mapValues f) := by
  cases a with
  | mk stmts terminator deferred =>
    cases b with
    | mk stmts' terminator' deferred' =>
      cases terminator <;> cases terminator' <;> simp [append, mapValues]

/-! ## New locals -/

/-- Locals in ascending order between two bounds. -/
structure Ascending (low high : Nat) (ls : List Local) : Prop where
  ordered : (ls.map (·.index)).Pairwise (· < ·)
  above : ∀ l ∈ ls, low ≤ l.index
  below : ∀ l ∈ ls, l.index < high

lemma Ascending.nil (low high : Nat) : Ascending low high [] :=
  ⟨.nil, by simp, by simp⟩

lemma Ascending.single (n : Nat) : Ascending n (n + 1) [⟨n⟩] :=
  ⟨by simp, by simp, by simp⟩

lemma Ascending.append {low mid high ls ks} (first : Ascending low mid ls)
    (second : Ascending mid high ks) (up : low ≤ mid) (up' : mid ≤ high) : Ascending low high (ls ++ ks) := by
  refine ⟨?_, fun l mem => ?_, fun l mem => ?_⟩
  · rw [map_append, pairwise_append]
    refine ⟨first.ordered, second.ordered, fun i mem j mem' => ?_⟩
    obtain ⟨l, among, rfl⟩ := mem_map.1 mem
    obtain ⟨k, among', rfl⟩ := mem_map.1 mem'
    exact Nat.lt_of_lt_of_le (first.below l among) (second.above k among')
  · rcases mem_append.1 mem with h | h
    · exact first.above l h
    · exact Nat.le_trans up (second.above l h)
  · rcases mem_append.1 mem with h | h
    · exact Nat.lt_of_lt_of_le (first.below l h) up'
    · exact second.below l h

lemma Ascending.mono {low high high' ls} (ascending : Ascending low high ls)
    (up : high ≤ high') : Ascending low high' ls :=
  ⟨ascending.ordered, ascending.above, fun l mem => Nat.lt_of_lt_of_le (ascending.below l mem) up⟩

/-! ## One instruction -/

/-- What filling has done to a block under way. -/
structure Fills (o : Outline) (b : BlockId) (p p' : Progress) (filling : Filling) : Prop where
  reached : Reached o p'.registers
  later : Later p.registers p'.registers
  blocks : p'.blocks = p.blocks
  others : ∀ c, c ≠ b → (p'.registers.table c).written = (p.registers.table c).written
  fills : ∀ c, (p'.registers.table c).filled = (p.registers.table c).filled
  result : ∀ l, p'.result = some l → p'.registers.Plain l
  fresh : Ascending p.registers.locals p'.registers.locals (defined filling.stmts)
  plain : ∀ l ∈ defined filling.stmts, p'.registers.Plain l
  deferred : ∀ r l, filling.deferred = some (r, l) → p'.registers.Plain l

section Act

variable {b : BlockId} {p p' : Progress} {pos : Nat} {deferred kept : Bool} {a : Action}
  {head : Filling}

lemma Fills.of_settles {s : Registers} {result : Option Local} {filling : Filling}
    (reached : Reached o s) (settles : Settles p.registers s) (holds : ∀ l, result = some l → s.Plain l)
    (bare : defined filling.stmts = []) (immediate : filling.deferred = none) :
    Fills o b p { p with registers := s, result } filling where
  reached := reached
  later := settles.toLater
  blocks := rfl
  others c _ := settles.writes c
  fills := settles.fills
  result := holds
  fresh := bare ▸ .nil _ _
  plain l mem := by rw [bare] at mem; cases mem
  deferred r l found := by rw [immediate] at found; cases found

lemma Fills.of_fresh {stmt deferred result}
    (reached : Reached o p.registers) (defines : stmt.def? = some p.registers.freshLocal.1)
    (left : ∀ r l, deferred = some (r, l) → l = p.registers.freshLocal.1)
    (holds : ∀ l, result = some l → l = p.registers.freshLocal.1) :
    Fills o b p { p with registers := p.registers.freshLocal.2, result }
      ⟨[stmt], none, deferred⟩ := by
  obtain ⟨reached', settles, plain⟩ := reached.freshLocal
  have dst : defined [stmt] = [p.registers.freshLocal.1] := by simp [defined, defines]
  refine ⟨reached', settles.toLater, rfl, fun c _ => settles.writes c, settles.fills,
    fun l found => holds l found ▸ plain, ?_, ?_, fun r l found => left r l found ▸ plain⟩
  · rw [dst]
    exact .single _
  · intro l mem
    rw [dst] at mem
    exact mem_singleton.1 mem ▸ plain

lemma Fills.write {filling r l result}
    (fills : Fills o b p p' filling) (unfilled : (p.registers.table b).filled = false)
    (plain : p'.registers.Plain l) (holds : ∀ k, result = some k → p'.registers.Plain k) :
    Fills o b p { p' with registers := p'.registers.write r l b, result } filling := by
  have unfilled' : (p'.registers.table b).filled = false := (fills.fills b).trans unfilled
  obtain ⟨reached, later⟩ := fills.reached.write (r := r) unfilled' plain
  exact {
    reached := reached
    later := fills.later.trans later
    blocks := fills.blocks
    others := fun c ne => (Registers.written_write_ne ne).trans (fills.others c ne)
    fills := fun c => (Registers.filled_write c).trans (fills.fills c)
    result := fun k found => later.plain k (holds k found)
    fresh := fills.fresh
    plain := fun k mem => later.plain k (fills.plain k mem)
    deferred := fun r' k found => later.plain k (fills.deferred r' k found) }

/-- What an instruction does, and the line it becomes with the values of a later state. -/
lemma act_spec {span i regs vs last}
    (proper : span.id.index < o.size) (read : operands i = .ok regs) (does : Does o span.stop i vs a)
    (made : p.act span.id pos (span.landing.isSome && last) (takesResult o (pos + 1)) a = .ok (head, p'))
    (reached : Reached o p.registers) (unfilled : (p.registers.table span.id).filled = false)
    (result : ∀ l, p.result = some l → p.registers.Plain l)
    (values : List.Forall₂ (fun r v => p.registers.Agrees span.id r v) regs vs) :
    Fills o span.id p p' head ∧ ∀ f, Later p.registers f →
      Line o span (f.known span.id) pos last i (p.registers.table span.id).written p.result
        (head.mapValues f.resolve) (p'.registers.table span.id).written p'.result := by
  have inside : span.id.index < p.registers.tables.size := reached.good.size ▸ proper
  have held (f : Registers) (later : Later p.registers f) :
      Holds (after (f.known span.id) (p.registers.table span.id).written) regs (vs.map f.resolve) := by
    rw [Holds, forall₂_map_right_iff]
    exact values.imp fun r v agrees => after_of_agrees reached.good later agrees
  have does' (f : Registers) := does.map (f := f.resolve) fun c => rfl
  cases a with
  | skip => cases does
  | define dest e =>
    simp only [Progress.act] at made
    split at made
    · rename_i lands
      cases made
      exact ⟨.of_fresh reached rfl (by simp) (by simp),
        fun f later => .defer read (held f later) (does' f) lands⟩
    · rename_i here
      cases made
      have fills : Fills o span.id p { p with registers := p.registers.freshLocal.2, result := none }
          ⟨[.assign p.registers.freshLocal.1 e], none, none⟩ :=
        .of_fresh reached rfl (by simp) (by simp)
      refine ⟨fills.write unfilled reached.freshLocal.2.2 (by simp), fun f later => ?_⟩
      have written := Registers.written_write (s := p.registers.freshLocal.2) (r := dest)
        (l := p.registers.freshLocal.1) inside
      simp only [written]
      exact .define read (held f later) (does' f) (by simpa using here)
  | call e =>
    simp only [Progress.act] at made
    split at made
    · rename_i taken
      cases made
      exact ⟨.of_fresh reached rfl (by simp) (by simp),
        fun f later => .keep read (held f later) (does' f) taken⟩
    · rename_i left
      cases made
      exact ⟨.of_settles reached (.refl _) (by simp) rfl rfl,
        fun f later => .drop read (held f later) (does' f) (by simpa using left)⟩
  | takeResult dest =>
    simp only [Progress.act] at made
    split at made
    · rename_i l found
      cases made
      have fills : Fills o span.id p { p with result := none } .empty :=
        .of_settles reached (.refl _) (by simp) rfl rfl
      refine ⟨fills.write unfilled (result l found) (by simp), fun f later => ?_⟩
      have written := Registers.written_write (s := p.registers) (r := dest) (l := l) inside
      simp only [written, found]
      exact .take read (held f later) (does' f)
    · simp at made
  | perform stmt =>
    cases made
    have bare : defined [stmt] = [] := by cases does <;> rfl
    exact ⟨.of_settles reached (.refl _) (by simp) bare rfl,
      fun f later => .perform read (held f later) (does' f)⟩
  | finish t =>
    cases made
    exact ⟨.of_settles reached (.refl _) (by simp) rfl rfl,
      fun f later => .finish read (held f later) (does' f)⟩

end Act

/-! ## All instructions of a span -/

lemma Fills.append {b : BlockId} {p q p' : Progress} {head tail : Filling}
    (first : Fills o b p q head) (second : Fills o b q p' tail) :
    Fills o b p p' (head.append tail) where
  reached := second.reached
  later := first.later.trans second.later
  blocks := second.blocks.trans first.blocks
  others c ne := (second.others c ne).trans (first.others c ne)
  fills c := (second.fills c).trans (first.fills c)
  result := second.result
  fresh := by
    rw [Filling.append, Ir.defined_append]
    exact first.fresh.append second.fresh first.later.locals second.later.locals
  plain l mem := by
    rw [Filling.append, Ir.defined_append, mem_append] at mem
    rcases mem with h | h
    · exact second.later.plain l (first.plain l h)
    · exact second.plain l h
  deferred r l found := by
    simp only [Filling.append] at found
    cases later : tail.deferred with
    | some d =>
      simp only [later, Option.orElse_eq_orElse, Option.orElse_some, Option.some.injEq] at found
      exact second.deferred r l (later.trans (congrArg some found))
    | none =>
      simp only [later] at found
      exact second.later.plain l (first.deferred r l found)

lemma Fills.after_reads {b : BlockId} {p p' : Progress} {s : Registers} {filling : Filling}
    (settles : Settles p.registers s) (fills : Fills o b { p with registers := s } p' filling) :
    Fills o b p p' filling where
  reached := fills.reached
  later := settles.toLater.trans fills.later
  blocks := fills.blocks
  others c ne := (fills.others c ne).trans (settles.writes c)
  fills c := (fills.fills c).trans (settles.fills c)
  result := fills.result
  fresh := ⟨fills.fresh.ordered, fun l mem =>
    Nat.le_trans settles.locals (fills.fresh.above l mem), fills.fresh.below⟩
  plain := fills.plain
  deferred := fills.deferred

lemma fillFrom_spec {span} (inside : span.id.index < o.size) {pos instructions p p' filling}
    (made : fillFrom o span pos instructions p = .ok (filling, p'))
    (proper : ∀ i ∈ instructions, isProper i = true) (reached : Reached o p.registers)
    (unfilled : (p.registers.table span.id).filled = false)
    (result : ∀ l, p.result = some l → p.registers.Plain l) :
    Fills o span.id p p' filling ∧ ∀ f, Later p'.registers f →
      Lines o span (f.known span.id) pos instructions (p.registers.table span.id).written p.result
        (filling.mapValues f.resolve) (p'.registers.table span.id).written p'.result := by
  induction instructions generalizing pos p filling with
  | nil =>
    cases made
    exact ⟨.of_settles reached (.refl _) result rfl rfl, fun f _ => .nil⟩
  | cons i rest ih =>
    obtain ⟨regs, read, made⟩ := bind_ok.1 made
    obtain ⟨a, done, made⟩ := bind_ok.1 made
    obtain ⟨⟨head, q⟩, acted, made⟩ := bind_ok.1 made
    obtain ⟨⟨tail, q'⟩, filled, made⟩ := bind_ok.1 made
    cases made
    obtain ⟨reached', settles, values⟩ := reached.readAll inside regs
    have unfilled' := (settles.fills span.id).trans unfilled
    have does := action_does (proper i mem_cons_self) read values.length_eq done
    obtain ⟨first, line⟩ := act_spec inside read does acted reached' unfilled'
      (fun l found => settles.plain l (result l found)) values
    have unfilled'' : (q.registers.table span.id).filled = false :=
      (first.fills span.id).trans unfilled'
    obtain ⟨rest', lines⟩ := ih filled (fun j h => proper j (mem_cons_of_mem _ h)) first.reached
      unfilled'' first.result
    refine ⟨(first.append rest').after_reads settles, fun f later => ?_⟩
    rw [Filling.mapValues_append]
    have line := line f (first.later.trans (rest'.later.trans later))
    rw [settles.writes] at line
    exact .cons line (lines f later)

end Restack.Lifting
