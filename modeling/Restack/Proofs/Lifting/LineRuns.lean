/-
# Running the lines of a span

While the instructions of a span run, the locals of its block follow the
registers (`Tracks`). `Line.run` says what one instruction does on both sides, and
`Lines.run` what the instructions of a span do together: all of them pass, or the
last one jumps, or one of them throws and has written nothing.
-/
import Restack.Proofs.Lifting.Commands
import Restack.Proofs.Lifting.Form

namespace Restack.Lifting

open Register (Instruction Reg Code Operand Target Jump Command Fault)
open Ir (Local Value Expr Stmt Terminator Operation Event World defined)
open List Outcome

variable {V : Type} {w : World V} {ist ist' : Ir.State V} {st st' : Register.State V}

/-! ## Locals that follow registers -/

/-- What comes behind a read gets the value, unless a half was read. -/
lemma bind_of_sound {α β : Type} {x a} {g : α → Except Fault β}
    (read : x = .error .half ∨ x = .ok a) (sound : x >>= g ≠ .error .half) : x >>= g = g a := by
  rcases read with rfl | rfl
  · exact absurd rfl sound
  · rfl

/-- Locals hold what registers hold, as far as the values of registers are known
and registers hold values of their own. -/
structure Tracks (w : World V) (values : Reg → Option Value) (result : Option Local)
    (ist : Ir.State V) (st : Register.State V) : Prop where
  regs : ∀ r v x, values r = some v → st.regs r = .value x → w.value ist.env v = x
  result : ∀ l, result = some l → st.result = some (ist.env l)
  caught : st.caught = ist.caught
  trace : st.trace = ist.trace

namespace Tracks

variable {values : Reg → Option Value} {result : Option Local} (tracks : Tracks w values result ist st)

include tracks

lemma read {a v} (stands : Stands values a v) :
    st.read w a = .error .half ∨ st.read w a = .ok (w.value ist.env v) := by
  cases stands with
  | constant => exact .inr rfl
  | @reg r _ held =>
    rw [Register.State.read]
    cases here : st.regs r with
    | half => exact .inl rfl
    | value x => exact .inr (congrArg _ (tracks.regs r v x held here).symm)

lemma readAll {args vs}
    (stands : List.Forall₂ (Stands values) args vs) : args.mapM (st.read w) = .error .half ∨
      args.mapM (st.read w) = .ok (vs.map (w.value ist.env)) := by
  induction stands with
  | nil => exact .inr rfl
  | cons first _ ih =>
    rw [mapM_cons]
    rcases tracks.read first with fault | read
    · rw [fault]
      exact .inl rfl
    · rw [read]
      rcases ih with fault | rest
      · rw [fault]
        exact .inl rfl
      · rw [rest]
        exact .inr rfl

lemma readIf {r v} (held : Option.Rel (fun r v => values r = some v) r v) :
    st.readIf w r = .error .half ∨ st.readIf w r = .ok (v.map (w.value ist.env)) := by
  cases held with
  | none => exact .inr rfl
  | some held =>
    rw [Register.State.readIf]
    rcases tracks.read (.reg held) with fault | read
    · rw [fault]
      exact .inl rfl
    · rw [read]
      exact .inr rfl

lemma settle : Tracks w values none ist st.settle :=
  ⟨tracks.regs, by simp, tracks.caught, tracks.trace⟩

lemma forget : Tracks w values none ist st :=
  ⟨tracks.regs, by simp, tracks.caught, tracks.trace⟩

lemma record (e : Event V) : Tracks w values result (ist.record e) (st.record e) :=
  ⟨tracks.regs, tracks.result, tracks.caught, congrArg (· ++ [e]) tracks.trace⟩

lemma catching (x : V) :
    Tracks w values result { ist with caught := x } { st with caught := x } :=
  ⟨tracks.regs, tracks.result, rfl, tracks.trace⟩

lemma set {l} (x : V) (fresh : ∀ r, values r ≠ some (.var l)) : Tracks w values none (ist.set l x) st := by
  refine ⟨fun r v y held here => ?_, by simp, tracks.caught, tracks.trace⟩
  rw [← tracks.regs r v y held here]
  cases v with
  | const c => rfl
  | var k =>
    have other : k ≠ l := by
      rintro rfl
      exact fresh r held
    simp [World.value, other]

end Tracks

lemma after_cons (known : Reg → Option Value) (writes : List (Reg × Local)) (dest : Reg) (l : Local)
    (r : Reg) :
    after known ((dest, l) :: writes) r = if r = dest then some (.var l) else after known writes r := by
  by_cases same : r = dest
  · rw [if_pos same, same, after, lookup_cons_self]
  · rw [if_neg same, after, after, Lookup.lookup_cons_ne same]

section Writes

variable {known : Reg → Option Value} {writes : List (Reg × Local)} {result : Option Local}

lemma Tracks.write (tracks : Tracks w (after known writes) result ist st) {l x}
    (dest : Reg) (wide : Bool) (holds : ist.env l = x) :
    Tracks w (after known ((dest, l) :: writes)) none ist (st.write dest wide x) := by
  refine ⟨fun r v y held here => ?_, by simp, tracks.caught, tracks.trace⟩
  simp only [Register.State.write] at here
  rw [after_cons] at held
  split at held
  · rename_i same
    rw [if_pos same] at here
    cases held
    cases here
    exact holds
  · rename_i other
    rw [if_neg other] at here
    split at here
    · cases here
    · exact tracks.regs r v y held here

lemma Tracks.define (tracks : Tracks w (after known writes) result ist st) {l} (x : V)
    (dest : Reg) (wide : Bool) (fresh : ∀ r, after known writes r ≠ some (.var l)) :
    Tracks w (after known ((dest, l) :: writes)) none (ist.set l x) (st.store x (.reg dest wide)) :=
  ((tracks.set x fresh).write dest wide (by simp)).settle

end Writes

/-! ## Statements -/

lemma stmts_single (s : Stmt) : w.stmts ist [s] = w.stmt ist s := by
  rw [World.stmts]
  split <;> rename_i ran <;> rw [ran]
  rfl

lemma stmt_operation (w : World V) (ist : Ir.State V) {s op} (found : s.operation? = some op) :
    (∃ x, w.respond ist.trace ⟨op, s.values.map (w.value ist.env)⟩ = .exception x ∧
        w.stmt ist s = (ist.record ⟨op, s.values.map (w.value ist.env)⟩, some x)) ∨
      ∃ v, w.respond ist.trace ⟨op, s.values.map (w.value ist.env)⟩ = .value v ∧
        w.stmt ist s = ((ist.record ⟨op, s.values.map (w.value ist.env)⟩).define s.def? v, none) := by
  have throws : s.canThrow = true := by rw [← Stmt.operation?_isSome, found]; rfl
  obtain ⟨op', found', ran⟩ := World.stmt_throwing (w := w) ist throws
  rw [found] at found'
  cases found'
  exact ran

lemma Among.held {A known writes result} (among : Among A known writes result) {r l}
    (held : after known writes r = some (.var l)) : l ∈ A := by
  have values : Holds (after known writes) [r] [.var l] := .cons held .nil
  exact among.read values mem_cons_self

/-! ## One instruction -/

variable {code : Code} {o : Outline} {span : Span} {known : Reg → Option Value} {pos : Nat}
  {writes writes' : List (Reg × Local)} {result result' : Option Local}

section Line

variable {last : Bool} {i : Instruction} {head : Filling}

/-- How one instruction runs on both sides: it passes, it throws and has written
nothing, or it jumps. -/
inductive LineRun (code : Code) (w : World V) (o : Outline) (span : Span)
    (known : Reg → Option Value) (pos : Nat) (i : Instruction) (writes : List (Reg × Local))
    (head : Filling) (writes' : List (Reg × Local)) (result' : Option Local) (ist : Ir.State V)
    (st : Register.State V) : Prop
  | passes {ist' : Ir.State V} {st'} (ran : w.stmts ist head.stmts = (ist', none))
      (moves : code.step w pos st = .ok (.moves (pos + 1) st')) (goesOn : head.terminator = none)
      (tracks : Tracks w (after known (head.deferred.toList ++ writes')) result' ist' st')
  | raises {ist' : Ir.State V} {st' x}
      (ran : w.stmts ist head.stmts = (ist', some x)) (throwing : throws i = true)
      (raises : code.step w pos st = code.raise w pos st' x)
      (tracks : Tracks w (after known writes) none ist' st')
  | jumps {t j} (bare : head.stmts = []) (ends : head.terminator = some t)
      (throwing : throws i = t.isThrow) (leaps : code.step w pos st = code.leap w pos st j)
      (leads : Leads o span.stop (after known writes) j t) (same : writes' = writes)
      (idle : result' = none)

lemma operate_run {s op args target deferred}
    (step : code.step w pos st = code.exec w pos st (.operate op args target))
    (sound : code.step w pos st ≠ .error .half) (throwing : throws i = true)
    (tracks : Tracks w (after known writes) result ist st) (found : s.operation? = some op)
    (stands : List.Forall₂ (Stands (after known writes)) args s.values)
    (answered : ∀ ist' st' v, Tracks w (after known writes) result ist' st' →
      Tracks w (after known (deferred.toList ++ writes')) result' (ist'.define s.def? v)
        (st'.store v target)) :
    LineRun code w o span known pos i writes ⟨[s], none, deferred⟩ writes' result' ist st := by
  rw [step] at sound
  have step := step.trans (bind_of_sound (tracks.readAll stands) sound)
  simp only [tracks.trace] at step
  rcases stmt_operation w ist found with ⟨x, answer, ran⟩ | ⟨v, answer, ran⟩
  · rw [answer] at step
    exact .raises ((stmts_single s).trans ran) throwing step (tracks.record _).forget
  · rw [answer] at step
    exact .passes ((stmts_single s).trans ran) step rfl (answered _ _ v (tracks.record _))

lemma define_run {c dest e l deferred} (step : code.step w pos st = code.exec w pos st c)
    (sound : code.step w pos st ≠ .error .half) (throwing : throws i = e.canThrow)
    (tracks : Tracks w (after known writes) result ist st)
    (means : Means o span.stop (after known writes) c (.define dest e))
    (fresh : ∀ r, after known writes r ≠ some (.var l))
    (kept : deferred.toList ++ writes' = (dest, l) :: writes) :
    LineRun code w o span known pos i writes ⟨[.assign l e], none, deferred⟩ writes' none ist st := by
  have calm (quiet : e.canThrow = false) :
      w.stmts ist [.assign l e] = (ist.set l (w.pureValue ist e), none) := by
    rw [stmts_single]
    exact World.stmt_calm ist quiet
  cases means with
  | @copy _ wide src v stands =>
    rw [step] at sound
    exact .passes (calm rfl) (step.trans (bind_of_sound (tracks.read stands) sound)) rfl
      (kept ▸ tracks.define _ dest wide fresh)
  | takeCaught =>
    rw [Code.exec, tracks.caught] at step
    exact .passes (calm rfl) step rfl (kept ▸ tracks.define _ dest false fresh)
  | @compute _ args _ wide quiet operator stands =>
    rw [step] at sound
    refine .passes (calm quiet) (step.trans (bind_of_sound (tracks.readAll stands) sound)) rfl ?_
    rw [kept, pureValue_operator operator]
    exact tracks.define _ dest wide fresh
  | @operate _ args _ wide throws stands =>
    refine operate_run step sound (throwing.trans throws) tracks ?_ stands fun ist' st' v tracks' => ?_
    · rw [Stmt.operation?, Expr.asks_eq, if_pos throws]
    · exact kept ▸ tracks'.define v dest wide fresh

lemma Line.run (line : Line o span known pos last i writes result head writes' result')
    (here : code.steps[pos]? = some i) (tracks : Tracks w (after known writes) result ist st)
    (fresh : ∀ l ∈ defined head.stmts, ∀ r, after known writes r ≠ some (.var l))
    (sound : code.step w pos st ≠ .error .half) :
    LineRun code w o span known pos i writes head writes' result' ist st := by
  have commanded {c : Command} (command : i.command? = some c) :
      code.step w pos st = code.exec w pos st c := by
    rw [Code.step, here, Option.bind_some, command]
  cases line with
  | define read values does | defer read values does =>
    obtain ⟨c, command, means⟩ := does.means read values
    exact define_run (commanded command) sound does.throws_eq tracks means
      (fresh _ (by simp [defined, Stmt.def?])) rfl
  | @keep _ regs vs e l read values does =>
    obtain ⟨c, command, means⟩ := does.means read values
    cases means with
    | call throws stands =>
      refine operate_run (commanded command) sound (does.throws_eq.trans throws) tracks
        (by rw [Stmt.operation?, Expr.asks_eq, if_pos throws]) stands fun ist' st' v tracks' => ?_
      have moved := tracks'.set v (fresh l (by simp [defined, Stmt.def?]))
      refine ⟨moved.regs, fun k same => ?_, moved.caught, moved.trace⟩
      cases same
      simp [Register.State.store, Stmt.def?, Ir.State.define]
  | @drop _ regs vs e read values does =>
    obtain ⟨c, command, means⟩ := does.means read values
    cases means with
    | call throws stands =>
      refine operate_run (commanded command) sound (does.throws_eq.trans throws) tracks
        (by rw [Stmt.operation?, Expr.asks_eq, if_pos throws]) stands fun ist' st' v tracks' => ?_
      exact ⟨tracks'.regs, by simp, tracks'.caught, tracks'.trace⟩
  | @take regs vs dest l read values does =>
    obtain ⟨c, command, means⟩ := does.means read values
    cases means with
    | @takeResult _ wide =>
      have step := commanded command
      rw [Code.exec, tracks.result l rfl] at step
      exact .passes rfl step rfl (tracks.write dest wide rfl).settle
  | @perform _ regs vs s read values does =>
    obtain ⟨c, command, means⟩ := does.means read values
    cases means with
    | perform plain bare stands =>
      have throwing : s.canThrow = true := by rw [← Stmt.operation?_isSome, plain]; rfl
      refine operate_run (commanded command) sound (does.throws_eq.trans throwing) tracks plain
        stands fun ist' st' v tracks' => ?_
      rw [bare]
      exact ⟨tracks'.regs, by simp, tracks'.caught, tracks'.trace⟩
  | finish read values does =>
    obtain ⟨c, command, means⟩ := does.means read values
    cases means with
    | jump leads => exact .jumps rfl rfl does.throws_eq (commanded command) leads rfl rfl

end Line

/-! ## All instructions of a span -/

section Lines

variable {is : List Instruction} {filling : Filling}

/-- How the instructions of a span run on both sides. -/
inductive LinesRun (code : Code) (w : World V) (o : Outline) (span : Span)
    (known : Reg → Option Value) (pos : Nat) (is : List Instruction) (filling : Filling)
    (writes' : List (Reg × Local)) (result' : Option Local) (ist : Ir.State V)
    (st : Register.State V) : Prop
  | passes {ist' : Ir.State V} {st'} (ran : w.stmts ist filling.stmts = (ist', none))
      (reaches : code.Reaches w is.length pos st (pos + is.length) st')
      (goesOn : filling.terminator = none)
      (tracks : Tracks w (after known (filling.deferred.toList ++ writes')) result' ist' st')
  | raises {ist' : Ir.State V} {st₁ st' x k i before} (ran : w.stmts ist filling.stmts = (ist', some x))
      (reaches : code.Reaches w k pos st (pos + k) st₁) (here : is[k]? = some i)
      (throwing : throws i = true) (raises : code.step w (pos + k) st₁ = code.raise w (pos + k) st' x)
      (tracks : Tracks w (after known before) none ist' st') (last : k + 1 = is.length →
        (∀ dest, throwingDest? i = some dest → span.landing.isSome = true) → before = writes')
  | jumps {ist' : Ir.State V} {st' t j k i} (ran : w.stmts ist filling.stmts = (ist', none))
      (reaches : code.Reaches w k pos st (pos + k) st') (here : is[k]? = some i)
      (last : k + 1 = is.length) (ends : filling.terminator = some t)
      (throwing : throws i = t.isThrow)
      (leaps : code.step w (pos + k) st' = code.leap w (pos + k) st' j)
      (tracks : Tracks w (after known writes') none ist' st')
      (leads : Leads o span.stop (after known writes') j t) (idle : result' = none)

lemma Filling.append_empty (filling : Filling) : filling.append .empty = filling := by
  simp [append, empty]

lemma Lines.deferred_landing (lines : Lines o span known pos is writes result filling writes' result')
    {d} (deferred : filling.deferred = some d) : span.landing.isSome = true := by
  induction lines with
  | nil => cases deferred
  | @cons _ _ _ _ _ head _ _ tail _ _ first later ih =>
    cases behind : tail.deferred with
    | some d' => exact ih (by simpa [Filling.append, behind] using deferred)
    | none =>
      have own : head.deferred = some d := by simpa [Filling.append, behind] using deferred
      cases first with
      | defer _ _ _ lands => exact (Bool.and_eq_true_iff.1 lands).1
      | _ => cases own

lemma LinesRun.cons {i} {head tail : Filling}
    (run : LinesRun code w o span known (pos + 1) is tail writes' result' ist' st')
    (ran : w.stmts ist head.stmts = (ist', none))
    (moves : code.step w pos st = .ok (.moves (pos + 1) st')) (goesOn : head.terminator = none)
    (immediate : head.deferred = none) :
    LinesRun code w o span known pos (i :: is) (head.append tail) writes' result' ist st := by
  have place (k : Nat) : pos + 1 + k = pos + (k + 1) := by omega
  cases run with
  | passes ran' reaches goesOn' tracks =>
    rw [place] at reaches
    refine .passes ((World.stmts_append_none _ ran).trans ran') (.step moves reaches) ?_ ?_
    · simp [Filling.append, goesOn, goesOn']
    · simpa [Filling.append, immediate] using tracks
  | raises ran' reaches here throwing raises tracks last =>
    rw [place] at reaches raises
    exact .raises ((World.stmts_append_none _ ran).trans ran') (.step moves reaches) here throwing
      raises tracks fun alone => last (Nat.succ.inj alone)
  | jumps ran' reaches here last ends throwing leaps tracks leads idle =>
    rw [place] at reaches leaps
    refine .jumps ((World.stmts_append_none _ ran).trans ran') (.step moves reaches) here
      (congrArg Nat.succ last) ?_ throwing leaps tracks leads idle
    simp [Filling.append, ends]

lemma Lines.run (lines : Lines o span known pos is writes result filling writes' result')
    (here : ∀ k i, is[k]? = some i → code.steps[pos + k]? = some i)
    (straight : ∀ k i, is[k]? = some i → k + 1 < is.length → i.isBranch = false) {A}
    (among : Among A known writes result) (apart : ∀ l ∈ A, l ∉ defined filling.stmts)
    (distinct : (defined filling.stmts).Nodup)
    (tracks : Tracks w (after known writes) result ist st) (whole : code.Whole w pos st) :
    LinesRun code w o span known pos is filling writes' result' ist st := by
  -- the induction carries the locals that registers hold, so that no definition meets one of them
  induction lines generalizing A ist st with
  | nil => exact .passes rfl .here rfl tracks
  | @cons pos i rest writes result head writes' result' tail writes'' result'' first later ih =>
    simp only [Filling.append, Ir.defined_append, nodup_append] at distinct
    simp only [Filling.append, Ir.defined_append, mem_append, not_or] at apart
    have fresh (l : Local) (mem : l ∈ defined head.stmts) (r : Reg) :
        after known writes r ≠ some (.var l) :=
      fun held => (apart l (among.held held)).1 mem
    -- what is not the last instruction goes on, and leaves no write to a landing
    have inner {j : Instruction} {js : List Instruction} (same : rest = j :: js) :
        head.terminator = none ∧ head.deferred = none := by
      subst same
      have inside := Line.inner first (straight 0 i rfl (by simp))
      exact ⟨inside.1, inside.2.1⟩
    have run := first.run (here 0 i rfl) tracks fresh whole.step
    cases run with
    | raises ran throwing raises tracks' =>
      refine .raises (World.stmts_append_some _ ran) .here rfl throwing raises tracks' ?_
      intro alone lands
      cases rest with
      | cons j rest => simp at alone
      | nil =>
        cases later
        obtain ⟨before, s, after_, _, split, -, raised⟩ := World.stmts_raise ran
        exact (first.written_before lands (by rw [split]; simp) (World.stmt_raise raised).1).symm
    | jumps bare ends throwing leaps leads same idle =>
      cases rest with
      | cons j rest =>
        rw [(inner rfl).1] at ends
        cases ends
      | nil =>
        cases later
        subst same
        rw [Filling.append_empty]
        exact .jumps (by rw [bare]; rfl) .here rfl rfl ends throwing leaps tracks.forget leads idle
    | passes ran moves goesOn tracks' =>
      have first_ : code.Reaches w 1 pos st (pos + 1) _ := .step moves .here
      cases rest with
      | nil =>
        cases later
        rw [Filling.append_empty]
        exact .passes ran first_ goesOn tracks'
      | cons j rest =>
        have immediate := (inner rfl).2
        rw [immediate] at tracks'
        have behind := ih
          (fun k i' at_ => by
            rw [Nat.add_assoc, Nat.add_comm 1]
            exact here (k + 1) i' at_)
          (fun k i' at_ inside => straight (k + 1) i' at_ (Nat.succ_lt_succ inside))
          (first.among among).2.2
          (fun l mem => by
            rcases mem_append.1 mem with new | old
            · exact fun again => distinct.2.2 l new l again rfl
            · exact (apart l old).2)
          distinct.2.1 tracks' (whole.reaches first_)
        exact behind.cons ran moves goesOn immediate

end Lines

end Restack.Lifting
