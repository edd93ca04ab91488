/-
# What the register tables mean

`Good` is the invariant of the tables while a body is read. What a table says of
a register at the entry of a block is one of three things (`Entered`): a phi of
that block for that register, a value that every predecessor ends with, or zero
at the very start. Values are compared after the removed phis are replaced, so a
value found early stays right. `Later` says how the tables grow, and `Reads` how
they grow by reading.
-/
import Mathlib.Data.List.Chain
import Restack.Proofs.Ir.Substitution
import Restack.Proofs.Lifting.Registers.Calls

namespace Restack.Lifting

open Register (Reg)
open Ir (BlockId Local Value Substitution)
open Lookup

/-- What the reading of values needs to know of an outline. -/
structure Outline.Closed (o : Outline) : Prop where
  sources_inside : ∀ b, ∀ p ∈ o.sourcesOf b, p.index < o.size
  targets_inside : ∀ b, ∀ t ∈ o.targetsOf b, t.index < o.size
  entry_inside : entry.index < o.size
  entry_sources : o.sourcesOf entry = []

namespace Registers

/-- What is known of a register at the end of a block. -/
def exit? (s : Registers) (b : BlockId) (r : Reg) : Option Value := (s.table b).value? r

/-- What is known of a register at the entry of a block. -/
def start? (s : Registers) (b : BlockId) (r : Reg) : Option Value := (s.table b).entered.lookup r

/-- A block ends with a value in a register. -/
def Agrees (s : Registers) (b : BlockId) (r : Reg) (v : Value) : Prop :=
  ∃ w, s.exit? b r = some w ∧ s.resolve w = s.resolve v

/-- What a value stands for was handed out. -/
def Bound (s : Registers) (v : Value) : Prop := ∀ l, s.resolve v = .var l → l.index < s.locals

variable {b : BlockId} {r : Reg} {v : Value}

lemma exit?_of_written {s : Registers} {l}
    (written : (s.table b).written.lookup r = some l) : s.exit? b r = some (.var l) := by
  simp [exit?, Table.value?, written]

lemma exit?_of_unwritten {s : Registers} (unwritten : (s.table b).written.lookup r = none) :
    s.exit? b r = s.start? b r := by
  simp [exit?, start?, Table.value?, unwritten]

lemma exit?_eq_none {s : Registers} :
    s.exit? b r = none ↔ (s.table b).written.lookup r = none ∧ s.start? b r = none := by
  cases written : (s.table b).written.lookup r with
  | some l => simp [exit?_of_written written]
  | none => simp [exit?_of_unwritten written]

lemma Agrees.congr {s : Registers} {w} (agrees : s.Agrees b r v)
    (same : s.resolve v = s.resolve w) : s.Agrees b r w := by
  obtain ⟨x, found, resolved⟩ := agrees
  exact ⟨x, found, resolved.trans same⟩

section Invariant

variable (o : Outline)

/-- What an entry of a table means. -/
inductive Entered (s : Registers) (b : BlockId) (r : Reg) (v : Value) : Prop
  | phi {φ m} (made : s.merge? φ = some m) (here : m.block = b)
      (merges : m.register = r) (resolved : s.resolve v = .var φ)
  | passed (inner : b ≠ entry) (closed : (s.table b).closed = true)
      (agree : ∀ p ∈ o.sourcesOf b, s.Agrees p r v)
  | unset (start : b = entry) (resolved : s.resolve v = .zero)

/-- What is known of a phi. -/
structure Merged (s : Registers) (φ : Local) (m : Merge) : Prop where
  inside : m.block.index < o.size
  inner : m.block ≠ entry
  recorded : ∃ v, s.start? m.block m.register = some v ∧ s.resolve v = .var φ
  operands : ∀ p w, (p, w) ∈ m.operands →
    p ∈ o.sourcesOf m.block ∧ (s.table p).filled = true ∧ s.Agrees p m.register w

/-- A phi with an operand for each predecessor of its block. -/
structure Complete (s : Registers) (m : Merge) : Prop where
  sources : m.operands.map (·.1) = o.sourcesOf m.block
  closed : (s.table m.block).closed = true

/-- How far a phi has come; `pending` names those that are about to be completed. -/
inductive Stage (pending : List Local) (s : Registers) (φ : Local) (m : Merge) : Prop
  | growing (member : φ ∈ s.growing)
  | pending (bare : m.operands = []) (member : φ ∈ pending)
  | waiting (bare : m.operands = []) (member : (m.register, φ) ∈ (s.table m.block).waiting)
  | complete (complete : Complete o s m)

structure Good (pending : List Local) (s : Registers) : Prop where
  size : s.tables.size = o.size
  grounded : s.replaced.Grounded
  distinct : (s.merges.map (·.1)).Nodup
  unreplaced : ∀ φ m, s.merge? φ = some m → s.replaced.lookup φ = none
  bound : ∀ φ m, s.merge? φ = some m → φ.index < s.locals
  replaced_bound : ∀ φ v, s.replaced.lookup φ = some v → φ.index < s.locals
  entry_closed : (s.table entry).closed = true
  closed : ∀ b, (s.table b).closed = true → ∀ p ∈ o.sourcesOf b, (s.table p).filled = true
  plain : ∀ b r l, (r, l) ∈ (s.table b).written → s.Plain l
  entered : ∀ b r v, s.start? b r = some v → Entered o s b r v
  entered_bound : ∀ b r v, s.start? b r = some v → s.Bound v
  merged : ∀ φ m, s.merge? φ = some m → Merged o s φ m
  stage : ∀ φ m, s.merge? φ = some m → Stage o pending s φ m
  waiting : ∀ b r φ, (r, φ) ∈ (s.table b).waiting →
    s.merge? φ = some ⟨b, r, []⟩ ∧ φ ∉ s.growing ∧ φ ∉ pending ∧ (s.table b).closed = false
  waiting_distinct : ∀ b, ((s.table b).waiting.map (·.2)).Nodup
  growing : ∀ φ ∈ s.growing, ∃ m, s.merge? φ = some m
  pending : ∀ φ ∈ pending, φ ∉ s.growing ∧ ∃ m, s.merge? φ = some m ∧ m.operands = []

end Invariant

lemma bound_zero {s : Registers} : s.Bound .zero := by
  intro l held
  cases held

lemma Good.agrees_bound {o pending s} (good : Good o pending s) (agrees : s.Agrees b r v) : s.Bound v := by
  obtain ⟨w, found, same⟩ := agrees
  intro l held
  rw [← same] at held
  cases lookup : (s.table b).written.lookup r with
  | some k =>
    rw [exit?_of_written lookup] at found
    cases found
    have plain := good.plain b r k (mem_of_lookup lookup)
    rw [resolve, Substitution.resolve_of_lookup_none plain.unreplaced] at held
    cases held
    exact plain.bound
  | none =>
    rw [exit?_of_unwritten lookup] at found
    exact good.entered_bound b r w found l held

/-- Phis of `f` are phis of `s`, in their places, or were made where nothing was known. -/
def Makes (s f : Registers) : Prop := ∀ φ m, f.merge? φ = some m → s.start? m.block m.register = none ∨
  ∃ m', s.merge? φ = some m' ∧ m'.block = m.block ∧ m'.register = m.register

structure Later (s f : Registers) : Prop where
  locals : s.locals ≤ f.locals
  same : ∀ v w, s.resolve v = s.resolve w → f.resolve v = f.resolve w
  plain : ∀ l, s.Plain l → f.Plain l
  entered : ∀ b r v, s.start? b r = some v →
    ∃ w, f.start? b r = some w ∧ f.resolve w = f.resolve v
  filled : ∀ b, (s.table b).filled = true → (f.table b).filled = true
  closed : ∀ b, (s.table b).closed = true → (f.table b).closed = true
  written : ∀ b, (s.table b).filled = true → (f.table b).written = (s.table b).written
  makes : Makes s f

/-- A closed block with a single source learns only what its source ends with. -/
def Passes (o : Outline) (s f : Registers) : Prop :=
  ∀ b p r v, (s.table b).closed = true → o.sourcesOf b = [p] → s.start? b r = none →
    f.start? b r = some v → f.Agrees p r v

/-- Growth by reading; the phis in `kept` and those that grow stay as they are. -/
structure Reads (o : Outline) (kept : List Local) (s f : Registers) : Prop extends Later s f where
  writes : ∀ b, (f.table b).written = (s.table b).written
  fills : ∀ b, (f.table b).filled = (s.table b).filled
  growing : f.growing = s.growing
  frame : ∀ φ, φ ∈ kept ∨ φ ∈ s.growing → f.merge? φ = s.merge? φ
  passes : Passes o s f

variable {o : Outline} {s f g : Registers} {kept : List Local}

lemma Makes.of_merge?_eq (same : ∀ φ, f.merge? φ = s.merge? φ) : Makes s f :=
  fun φ m made => .inr ⟨m, same φ ▸ made, rfl, rfl⟩

lemma Later.refl (s : Registers) : Later s s :=
  ⟨Nat.le_refl _, fun _ _ h => h, fun _ h => h, fun _ _ v h => ⟨v, h, rfl⟩, fun _ h => h, fun _ h => h,
    fun _ _ => rfl, .of_merge?_eq fun _ => rfl⟩

lemma Later.trans (first : Later s f) (second : Later f g) : Later s g where
  locals := Nat.le_trans first.locals second.locals
  same v w h := second.same v w (first.same v w h)
  plain l h := second.plain l (first.plain l h)
  entered b r v h := by
    obtain ⟨w, found, resolved⟩ := first.entered b r v h
    obtain ⟨x, found', resolved'⟩ := second.entered b r w found
    exact ⟨x, found', resolved'.trans (second.same _ _ resolved)⟩
  filled b h := second.filled b (first.filled b h)
  closed b h := second.closed b (first.closed b h)
  written b h := (second.written b (first.filled b h)).trans (first.written b h)
  makes φ m made := by
    rcases second.makes φ m made with absent | ⟨m', made', block, register⟩
    · refine .inl ?_
      by_contra known
      obtain ⟨v, found⟩ := Option.ne_none_iff_exists'.1 known
      obtain ⟨w, found', -⟩ := first.entered _ _ v found
      rw [absent] at found'
      cases found'
    · rw [← block, ← register]
      exact first.makes φ m' made'

lemma Later.agrees (later : Later s f) (written : (f.table b).written = (s.table b).written)
    (agrees : s.Agrees b r v) : f.Agrees b r v := by
  obtain ⟨w, found, resolved⟩ := agrees
  have resolved' := later.same _ _ resolved
  cases lookup : (s.table b).written.lookup r with
  | some l =>
    rw [exit?_of_written lookup] at found
    cases found
    exact ⟨_, exit?_of_written (written ▸ lookup), resolved'⟩
  | none =>
    rw [exit?_of_unwritten lookup] at found
    obtain ⟨x, found', same⟩ := later.entered b r w found
    exact ⟨x, (exit?_of_unwritten (written ▸ lookup)).trans found', same.trans resolved'⟩

lemma Later.agrees_filled (later : Later s f) (filled : (s.table b).filled = true)
    (agrees : s.Agrees b r v) : f.Agrees b r v :=
  later.agrees (later.written b filled) agrees

lemma Reads.agrees (reads : Reads o kept s f) (agrees : s.Agrees b r v) : f.Agrees b r v :=
  reads.toLater.agrees (reads.writes b) agrees

lemma Passes.of_start?_eq (same : ∀ b r, f.start? b r = s.start? b r) : Passes o s f := by
  intro b p r v _ _ absent found
  rw [same, absent] at found
  cases found

lemma Passes.trans (first : Passes o s f) (later : Later s f) (second : Passes o f g)
    (later' : Later f g) (writes : ∀ b, (g.table b).written = (f.table b).written) : Passes o s g := by
  intro b p r v closed single absent found
  cases between : f.start? b r with
  | none => exact second b p r v (later.closed b closed) single between found
  | some w =>
    obtain ⟨x, found', same⟩ := later'.entered b r w between
    rw [found] at found'
    cases found'
    exact (later'.agrees (writes p) (first b p r w closed single absent between)).congr same.symm

lemma Reads.refl (kept : List Local) (s : Registers) : Reads o kept s s :=
  ⟨.refl s, fun _ => rfl, fun _ => rfl, rfl, fun _ _ => rfl, .of_start?_eq fun _ _ => rfl⟩

lemma Reads.trans (first : Reads o kept s f) (second : Reads o kept f g) : Reads o kept s g where
  toLater := first.toLater.trans second.toLater
  writes b := (second.writes b).trans (first.writes b)
  fills b := (second.fills b).trans (first.fills b)
  growing := second.growing.trans first.growing
  frame φ h := (second.frame φ (first.growing ▸ h)).trans (first.frame φ h)
  passes := first.passes.trans first.toLater second.passes second.toLater second.writes

/-- Good states, each grown out of the one before it. -/
structure Tracked (o : Outline) (s : Registers) (ts : List Registers) (f : Registers) : Prop where
  good : ∀ t ∈ ts, ∃ pending, Good o pending t
  grows : (s :: ts ++ [f]).IsChain Later

lemma Later.tracked (later : Later s f) : Tracked o s [] f := ⟨by simp, by simpa using later⟩

lemma Tracked.append {ts ts' pending} (first : Tracked o s ts f)
    (good : Good o pending f) (second : Tracked o f ts' g) : Tracked o s (ts ++ f :: ts') g := by
  refine ⟨fun t mem => ?_, ?_⟩
  · rcases List.mem_append.1 mem with before | after
    · exact first.good t before
    · rcases List.mem_cons.1 after with rfl | after
      · exact ⟨pending, good⟩
      · exact second.good t after
  · rw [← List.cons_append, List.append_assoc]
    exact List.isChain_split.2 ⟨first.grows, second.grows⟩

/-- A call that runs through good states. -/
def Traced (o : Outline) (c : Call) (s : Registers) (v : Option Value) (f : Registers) : Prop :=
  ∃ ts, Runs o c s ts v f ∧ Tracked o s ts f

lemma Entered.congr {w} (entered : Entered o s b r v) (same : s.resolve v = s.resolve w) :
    Entered o s b r w := by
  cases entered with
  | phi made here merges resolved => exact .phi made here merges (same ▸ resolved)
  | passed inner closed agree => exact .passed inner closed fun p h => (agree p h).congr same
  | unset start resolved => exact .unset start (same ▸ resolved)

lemma Stage.later {pending pending' φ m}
    (stage : Stage o pending s φ m) (grows : φ ∈ s.growing → Stage o pending' f φ m)
    (pends : m.operands = [] → φ ∈ pending → Stage o pending' f φ m)
    (waits : m.operands = [] → (m.register, φ) ∈ (s.table m.block).waiting → Stage o pending' f φ m)
    (closed : (s.table m.block).closed = true → (f.table m.block).closed = true) :
    Stage o pending' f φ m := by
  cases stage with
  | growing mem => exact grows mem
  | pending bare mem => exact pends bare mem
  | waiting bare mem => exact waits bare mem
  | complete complete => exact .complete ⟨complete.sources, closed complete.closed⟩

end Registers

end Restack.Lifting
