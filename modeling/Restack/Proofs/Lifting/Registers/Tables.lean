/-
# Changing the tables

The single changes that the reading of registers makes, and why each keeps the
tables good: recording a value at the entry of blocks (`Good.record`), making a
phi (`Created.good`), leaving a phi to the closing of its block (`Good.await`).
Changes that leave entries and phis alone have their common part in
`Advanced.good`.
-/
import Restack.Proofs.Lifting.Registers.Invariant

namespace Restack.Lifting.Registers

open Register (Reg)
open Ir (BlockId Local Value Substitution)
open List Lookup

variable {o : Outline} {s f : Registers} {pending : List Local}

/-! ## Changing one table -/

lemma table_modifyTable (s : Registers) (b c : BlockId) (change : Table → Table) :
    (s.modifyTable b change).table c =
      if c = b ∧ b.index < s.tables.size then change (s.table b) else s.table c := by
  simp only [table, modifyTable, Array.getD_eq_getD_getElem?, Array.getElem?_modify]
  by_cases same : c = b
  · subst same
    by_cases inside : c.index < s.tables.size <;> simp [inside]
  · have ne : b.index ≠ c.index := by
      intro h
      exact same (by cases b; cases c; simp_all)
    simp [same, ne]

/-- What a change leaves alone in every table it leaves alone in the changed one. -/
lemma field_modifyTable {α : Type} (field : Table → α) {change b}
    (same : ∀ t, field (change t) = field t) (c : BlockId) :
    field ((s.modifyTable b change).table c) = field (s.table c) := by
  rw [table_modifyTable]
  split
  · rename_i here
    rw [here.1, same]
  · rfl

/-- `f` is `s` with a value recorded for a register at the entry of some blocks. -/
structure Recorded (r : Reg) (v : Value) (bs : List BlockId) (s f : Registers) : Prop where
  locals : f.locals = s.locals
  merges : f.merges = s.merges
  growing : f.growing = s.growing
  replaced : f.replaced = s.replaced
  size : f.tables.size = s.tables.size
  written : ∀ c, (f.table c).written = (s.table c).written
  closed : ∀ c, (f.table c).closed = (s.table c).closed
  filled : ∀ c, (f.table c).filled = (s.table c).filled
  waiting : ∀ c, (f.table c).waiting = (s.table c).waiting
  start? : ∀ c r', f.start? c r' =
    if r' = r ∧ c ∈ bs ∧ c.index < s.tables.size then some v else s.start? c r'

lemma enter_recorded (s : Registers) (r : Reg) (v : Value) (b : BlockId) :
    Recorded r v [b] s (s.enter r v b) := by
  have table (c : BlockId) := table_modifyTable s b c fun t => { t with entered := (r, v) :: t.entered }
  refine ⟨rfl, rfl, rfl, rfl, by simp [enter, modifyTable], field_modifyTable (·.written) fun _ => rfl,
    field_modifyTable (·.closed) fun _ => rfl, field_modifyTable (·.filled) fun _ => rfl,
    field_modifyTable (·.waiting) fun _ => rfl, fun c r' => ?_⟩
  simp only [Registers.start?, enter, table]
  by_cases here : c = b ∧ b.index < s.tables.size
  · obtain ⟨rfl, inside⟩ := here
    by_cases same : r' = r
    · subst same
      simp [inside]
    · simp [inside, same, lookup_cons_ne same]
  · rw [if_neg here, if_neg]
    rintro ⟨-, mem, inside⟩
    have : c = b := by simpa using mem
    exact here ⟨this, this ▸ inside⟩

lemma Recorded.append {r : Reg} {v : Value} {bs cs : List BlockId} {g : Registers}
    (first : Recorded r v bs s f) (second : Recorded r v cs f g) : Recorded r v (bs ++ cs) s g where
  locals := second.locals.trans first.locals
  merges := second.merges.trans first.merges
  growing := second.growing.trans first.growing
  replaced := second.replaced.trans first.replaced
  size := second.size.trans first.size
  written c := (second.written c).trans (first.written c)
  closed c := (second.closed c).trans (first.closed c)
  filled c := (second.filled c).trans (first.filled c)
  waiting c := (second.waiting c).trans (first.waiting c)
  start? c r' := by
    simp only [second.start?, first.start?, first.size, mem_append]
    by_cases one : r' = r ∧ c ∈ bs ∧ c.index < s.tables.size
    · simp [one]
    · by_cases two : r' = r ∧ c ∈ cs ∧ c.index < s.tables.size
      · simp [two]
      · rw [if_neg two, if_neg one, if_neg]
        rintro ⟨same, mem | mem, inside⟩
        · exact one ⟨same, mem, inside⟩
        · exact two ⟨same, mem, inside⟩

lemma enterAll_recorded (s : Registers) (r : Reg) (v : Value) (bs : List BlockId) :
    Recorded r v bs s (s.enterAll r v bs) := by
  induction bs generalizing s with
  | nil => exact ⟨rfl, rfl, rfl, rfl, rfl, fun _ => rfl, fun _ => rfl, fun _ => rfl, fun _ => rfl,
      fun c r' => by simp [enterAll]⟩
  | cons b bs ih => exact (enter_recorded s r v b).append (ih (s.enter r v b))

section Keeping

/-- Phis keep their place. -/
def KeepsPlaces (s f : Registers) : Prop :=
  ∀ φ m, s.merge? φ = some m →
    ∃ m', f.merge? φ = some m' ∧ m'.block = m.block ∧ m'.register = m.register

lemma Good.entered_later (good : Good o pending s) (later : Later s f)
    (places : KeepsPlaces s f) (replaced : f.replaced = s.replaced) {b r v}
    (entered : Entered o s b r v) : Entered o f b r v := by
  have resolve : ∀ v, f.resolve v = s.resolve v := fun v => by rw [resolve, resolve, replaced]
  cases entered with
  | phi made here merges resolved =>
    obtain ⟨m', made', here', merges'⟩ := places _ _ made
    exact .phi made' (here'.trans here) (merges'.trans merges) ((resolve v).trans resolved)
  | passed inner closed agree =>
    refine .passed inner (later.closed b closed) fun p mem => ?_
    exact later.agrees_filled (good.closed b closed p mem) (agree p mem)
  | unset start resolved => exact .unset start ((resolve v).trans resolved)

lemma Good.merged_later (good : Good o pending s) (later : Later s f)
    (replaced : f.replaced = s.replaced) {φ m} (made : s.merge? φ = some m) : Merged o f φ m := by
  have resolve : ∀ v, f.resolve v = s.resolve v := fun v => by rw [resolve, resolve, replaced]
  have merged := good.merged φ m made
  obtain ⟨v, found, resolved⟩ := merged.recorded
  obtain ⟨w, found', same⟩ := later.entered _ _ _ found
  refine ⟨merged.inside, merged.inner, ⟨w, found', ?_⟩, ?_⟩
  · rw [same, resolve, resolved]
  · intro p w mem
    obtain ⟨source, filled, agrees⟩ := merged.operands p w mem
    exact ⟨source, later.filled p filled, later.agrees_filled filled agrees⟩

/-- What a change has to account for: entries and phis that were there before keep their reasons. -/
lemma Good.advance {pending' : List Local} (good : Good o pending s) (later : Later s f)
    (places : KeepsPlaces s f) (replaced : f.replaced = s.replaced)
    (size : f.tables.size = s.tables.size) (distinct : (f.merges.map (·.1)).Nodup)
    (closed : ∀ b, (f.table b).closed = true → ∀ p ∈ o.sourcesOf b, (f.table p).filled = true)
    (plain : ∀ b r l, (r, l) ∈ (f.table b).written → s.Plain l)
    (entered : ∀ b r v, f.start? b r = some v → s.start? b r = some v ∨ Entered o f b r v ∧ f.Bound v)
    (merged : ∀ φ m, f.merge? φ = some m → s.merge? φ = some m ∨
      φ.index < f.locals ∧ s.replaced.lookup φ = none ∧ Merged o f φ m)
    (stage : ∀ φ m, f.merge? φ = some m → Stage o pending' f φ m)
    (waiting : ∀ b r φ, (r, φ) ∈ (f.table b).waiting →
      f.merge? φ = some ⟨b, r, []⟩ ∧ φ ∉ f.growing ∧ φ ∉ pending' ∧ (f.table b).closed = false)
    (waiting_distinct : ∀ b, ((f.table b).waiting.map (·.2)).Nodup)
    (growing : ∀ φ ∈ f.growing, ∃ m, f.merge? φ = some m)
    (pending : ∀ φ ∈ pending', φ ∉ f.growing ∧ ∃ m, f.merge? φ = some m ∧ m.operands = []) :
    Good o pending' f where
  size := size.trans good.size
  grounded := replaced ▸ good.grounded
  distinct := distinct
  unreplaced φ m made := by
    rw [replaced]
    exact (merged φ m made).elim (good.unreplaced φ m) fun new => new.2.1
  bound φ m made := (merged φ m made).elim
    (fun known => Nat.lt_of_lt_of_le (good.bound φ m known) later.locals) And.left
  replaced_bound φ v found :=
    Nat.lt_of_lt_of_le (good.replaced_bound φ v (replaced ▸ found)) later.locals
  entry_closed := later.closed _ good.entry_closed
  closed := closed
  plain b r l written := later.plain l (plain b r l written)
  entered b r v found := (entered b r v found).elim
    (fun known => good.entered_later later places replaced (good.entered b r v known)) And.left
  entered_bound b r v found := by
    rcases entered b r v found with known | ⟨-, bound⟩
    · intro l held
      rw [resolve, replaced] at held
      exact Nat.lt_of_lt_of_le (good.entered_bound b r v known l held) later.locals
    · exact bound
  merged φ m made := (merged φ m made).elim (good.merged_later later replaced) fun new => new.2.2
  stage := stage
  waiting := waiting
  waiting_distinct := waiting_distinct
  growing := growing
  pending := pending

end Keeping

/-- Recording a value where nothing else was known. -/
lemma Good.record {r v bs} (isClosed : o.Closed) (good : Good o pending s) (recorded : Recorded r v bs s f)
    (fresh : ∀ c ∈ bs, c.index < o.size ∧ (s.table c).written.lookup r = none ∧
      ∀ w, s.start? c r = some w → s.resolve w = s.resolve v) (reason : ∀ c ∈ bs, Entered o s c r v ∨
      c ≠ entry ∧ (s.table c).closed = true ∧
        ∀ p ∈ o.sourcesOf c, p ∈ bs ∨ s.Agrees p r v) (bound : s.Bound v) :
    Good o pending f ∧ Reads o pending s f ∧ ∀ c ∈ bs, f.Agrees c r v := by
  have merge (φ : Local) : f.merge? φ = s.merge? φ := by rw [merge?, merge?, recorded.merges]
  have resolve (v : Value) : f.resolve v = s.resolve v := by
    rw [Registers.resolve, Registers.resolve, recorded.replaced]
  have later : Later s f := {
    locals := recorded.locals.symm ▸ Nat.le_refl _
    same := fun v w h => by rw [resolve, resolve, h]
    plain := fun l plain => ⟨recorded.locals ▸ plain.bound, (merge l).trans plain.unmerged,
      recorded.replaced ▸ plain.unreplaced⟩
    entered := fun b r' w found => by
      rw [recorded.start?]
      split
      · rename_i here
        obtain ⟨rfl, mem, -⟩ := here
        exact ⟨v, rfl, by rw [resolve, resolve, (fresh b mem).2.2 w found]⟩
      · exact ⟨w, found, rfl⟩
    filled := fun b h => (recorded.filled b).trans h
    closed := fun b h => (recorded.closed b).trans h
    written := fun b _ => recorded.written b
    makes := .of_merge?_eq merge }
  have places : KeepsPlaces s f := fun φ m made => ⟨m, (merge φ).trans made, rfl, rfl⟩
  have agrees : ∀ c ∈ bs, f.Agrees c r v := by
    intro c mem
    obtain ⟨inside, unwritten, -⟩ := fresh c mem
    refine ⟨v, ?_, rfl⟩
    rw [exit?_of_unwritten (by rw [recorded.written]; exact unwritten), recorded.start?, if_pos]
    exact ⟨rfl, mem, good.size ▸ inside⟩
  have passes : Passes o s f := by
    intro b p r' w _ single absent found
    rw [recorded.start?, absent] at found
    split at found
    · rename_i here
      obtain ⟨rfl, mem, -⟩ := here
      cases found
      have source : p ∈ o.sourcesOf b := by simp [single]
      rcases reason b mem with (⟨made, rfl, rfl, _⟩ | ⟨_, _, agree⟩ | ⟨rfl, _⟩) | ⟨_, _, sources⟩
      · obtain ⟨x, known, -⟩ := (good.merged _ _ made).recorded
        rw [absent] at known
        cases known
      · exact later.agrees (recorded.written p) (agree p source)
      · rw [isClosed.entry_sources] at single
        cases single
      · rcases sources p source with among | known
        · exact agrees p among
        · exact later.agrees (recorded.written p) known
    · cases found
  refine ⟨?_, ⟨later, recorded.written, recorded.filled, recorded.growing, fun φ _ => merge φ, passes⟩,
    agrees⟩
  refine good.advance later places recorded.replaced recorded.size (recorded.merges ▸ good.distinct)
    (fun b closed p mem => ?_) (fun b r l written => good.plain b r l (recorded.written b ▸ written))
    (fun b r' w found => ?_) (fun φ m made => .inl (merge φ ▸ made)) (fun φ m made => ?_)
    (fun b r φ mem => ?_) (fun b => ?_) (fun φ mem => ?_) fun φ mem => ?_
  · rw [recorded.filled]
    exact good.closed b (recorded.closed b ▸ closed) p mem
  · rw [recorded.start?] at found
    split at found
    · rename_i here
      obtain ⟨rfl, mem, -⟩ := here
      cases found
      refine .inr ⟨?_, fun l held => recorded.locals.symm ▸ bound l (resolve v ▸ held)⟩
      rcases reason b mem with entered | ⟨inner, closed, sources⟩
      · exact good.entered_later later places recorded.replaced entered
      · refine .passed inner ((recorded.closed b).trans closed) fun p source => ?_
        rcases sources p source with among | known
        · exact agrees p among
        · exact later.agrees_filled (good.closed b closed p source) known
    · exact .inl found
  · exact (good.stage φ m (merge φ ▸ made)).later (fun mem => .growing (recorded.growing ▸ mem))
      .pending (fun bare mem => .waiting bare (by rw [recorded.waiting]; exact mem))
      (recorded.closed _).trans
  · rw [merge, recorded.growing, recorded.closed]
    exact good.waiting b r φ (recorded.waiting b ▸ mem)
  · rw [recorded.waiting]
    exact good.waiting_distinct b
  · rw [merge]
    exact good.growing φ (recorded.growing ▸ mem)
  · rw [recorded.growing, merge]
    exact good.pending φ mem

/-! ## New phis -/

lemma merge?_append (s : Registers) (φ ψ : Local) (m : Merge) :
    (s.merges ++ [(φ, m)]).lookup ψ = (s.merge? ψ).or (if ψ = φ then some m else none) := by
  rw [lookup_append, merge?]
  by_cases same : ψ = φ
  · subst same
    simp
  · rw [lookup_cons_ne same, if_neg same]
    rfl

lemma Good.fresh (good : Good o pending s) :
    s.merge? ⟨s.locals⟩ = none ∧ s.replaced.lookup ⟨s.locals⟩ = none := by
  constructor
  · cases made : s.merge? ⟨s.locals⟩ with
    | none => rfl
    | some m => exact absurd (good.bound _ m made) (Nat.lt_irrefl _)
  · cases found : s.replaced.lookup ⟨s.locals⟩ with
    | none => rfl
    | some v => exact absurd (good.replaced_bound _ v found) (Nat.lt_irrefl _)

/-- What a new phi changes. -/
structure Created (r : Reg) (b : BlockId) (φ : Local) (s f : Registers) : Prop where
  index : φ.index = s.locals
  locals : f.locals = s.locals + 1
  merges : f.merges = s.merges ++ [(φ, ⟨b, r, []⟩)]
  recorded : Recorded r (.var φ) [b] { s with locals := f.locals, merges := f.merges } f

lemma newPhi_created (s : Registers) (r : Reg) (b : BlockId) :
    Created r b (s.newPhi r b).1 s (s.newPhi r b).2 :=
  ⟨rfl, rfl, rfl, enter_recorded _ r _ b⟩

namespace Created

variable {r : Reg} {b : BlockId} {φ : Local} (created : Created r b φ s f)

include created

lemma resolve (v : Value) : f.resolve v = s.resolve v := by
  rw [Registers.resolve, Registers.resolve, created.recorded.replaced]

lemma merge? (ψ : Local) : f.merge? ψ = (s.merge? ψ).or (if ψ = φ then some ⟨b, r, []⟩ else none) := by
  rw [Registers.merge?, created.merges, merge?_append]

lemma kept {ψ m} (made : s.merge? ψ = some m) : f.merge? ψ = some m := by
  rw [created.merge?, made]
  rfl

lemma made (good : Good o pending s) : f.merge? φ = some ⟨b, r, []⟩ := by
  have phi : φ = ⟨s.locals⟩ := by rw [← created.index]
  rw [created.merge?, phi, good.fresh.1]
  simp

lemma old {ψ m} (made : f.merge? ψ = some m) : s.merge? ψ = some m ∨ ψ = φ ∧ m = ⟨b, r, []⟩ := by
  rw [created.merge?] at made
  cases known : s.merge? ψ with
  | some m' => rw [known] at made; exact .inl made
  | none =>
    rw [known] at made
    by_cases same : ψ = φ
    · simp only [same, if_true, Option.none_or, Option.some.injEq] at made
      exact .inr ⟨same, made.symm⟩
    · simp [same] at made

lemma start?_of_ne {c r'} (ne : ¬ (r' = r ∧ c = b)) : f.start? c r' = s.start? c r' := by
  rw [created.recorded.start?, if_neg]
  · rfl
  · rintro ⟨same, mem, -⟩
    exact ne ⟨same, mem_singleton.1 mem⟩

lemma start?_self (inside : b.index < s.tables.size) : f.start? b r = some (.var φ) := by
  rw [created.recorded.start?, if_pos]
  exact ⟨rfl, mem_singleton.2 rfl, inside⟩

lemma exit?_self (inside : b.index < s.tables.size) (unknown : s.exit? b r = none) :
    f.exit? b r = some (.var φ) := by
  rw [exit?_of_unwritten, created.start?_self inside]
  rw [created.recorded.written]
  exact (exit?_eq_none.1 unknown).1

lemma not_mem (good : Good o pending s) : φ ∉ pending ∧ φ ∉ s.growing := by
  have phi : φ = ⟨s.locals⟩ := by rw [← created.index]
  have unmerged := phi ▸ good.fresh.1
  constructor
  · intro mem
    obtain ⟨-, m, made, -⟩ := good.pending φ mem
    rw [unmerged] at made
    cases made
  · intro mem
    obtain ⟨m, made⟩ := good.growing φ mem
    rw [unmerged] at made
    cases made

lemma reads (good : Good o pending s) (unknown : s.exit? b r = none)
    (several : (s.table b).closed = true → ∀ p, o.sourcesOf b ≠ [p]) : Reads o pending s f := by
  have later : Later s f := {
    locals := created.locals ▸ Nat.le_succ _
    same := fun v w h => by rw [created.resolve, created.resolve, h]
    plain := fun l plain => by
      have ne : l ≠ φ := by
        rintro rfl
        exact absurd plain.bound (by rw [created.index]; exact Nat.lt_irrefl _)
      refine ⟨created.locals ▸ Nat.lt_succ_of_lt plain.bound, ?_,
        created.recorded.replaced ▸ plain.unreplaced⟩
      rw [created.merge?, plain.unmerged, if_neg ne]
      rfl
    entered := fun c r' w found => by
      refine ⟨w, ?_, rfl⟩
      rw [created.start?_of_ne, found]
      rintro ⟨rfl, rfl⟩
      rw [(exit?_eq_none.1 unknown).2] at found
      cases found
    filled := fun c h => (created.recorded.filled c).trans h
    closed := fun c h => (created.recorded.closed c).trans h
    written := fun c _ => created.recorded.written c
    makes := fun ψ m made => by
      rcases created.old made with known | ⟨-, rfl⟩
      · exact .inr ⟨m, known, rfl, rfl⟩
      · exact .inl (exit?_eq_none.1 unknown).2 }
  refine ⟨later, created.recorded.written, created.recorded.filled, created.recorded.growing, ?_, ?_⟩
  swap
  · intro c p r' v closed single absent found
    by_cases here : r' = r ∧ c = b
    · obtain ⟨rfl, rfl⟩ := here
      exact absurd single (several closed p)
    · rw [created.start?_of_ne here, absent] at found
      cases found
  intro ψ kept
  have exists_merge : ∃ m, s.merge? ψ = some m := by
    rcases kept with mem | mem
    · obtain ⟨-, m, made, -⟩ := good.pending ψ mem
      exact ⟨m, made⟩
    · exact good.growing ψ mem
  obtain ⟨m, known⟩ := exists_merge
  rw [created.kept known, known]

lemma good (good : Good o pending s) (inside : b.index < o.size) (inner : b ≠ entry)
    (unknown : s.exit? b r = none)
    (several : (s.table b).closed = true → ∀ p, o.sourcesOf b ≠ [p]) : Good o (φ :: pending) f := by
  have later := (created.reads good unknown several).toLater
  have table := created.recorded
  have places : KeepsPlaces s f := fun ψ m made => ⟨m, created.kept made, rfl, rfl⟩
  have inside' : b.index < s.tables.size := good.size ▸ inside
  have fresh : s.merge? φ = none ∧ s.replaced.lookup φ = none := by
    have phi : φ = ⟨s.locals⟩ := by rw [← created.index]
    exact phi ▸ good.fresh
  have within : φ.index < f.locals := by rw [created.index, created.locals]; exact Nat.lt_succ_self _
  have phi : f.resolve (.var φ) = .var φ := by
    rw [created.resolve]
    exact Substitution.resolve_of_lookup_none fresh.2
  refine good.advance later places table.replaced table.size ?_ (fun c closed p mem => ?_)
    (fun c r' l written => good.plain c r' l (table.written c ▸ written)) (fun c r' w found => ?_)
    (fun ψ m made => ?_) (fun ψ m made => ?_) (fun c r' ψ mem => ?_) (fun c => ?_)
    (fun ψ mem => ?_) fun ψ mem => ?_
  · rw [created.merges, map_append, nodup_append]
    refine ⟨good.distinct, by simp, ?_⟩
    rintro ψ mem _ single rfl
    simp only [map_cons, map_nil, mem_singleton] at single
    exact lookup_eq_none.1 fresh.1 (single ▸ mem)
  · rw [table.filled]
    exact good.closed c (table.closed c ▸ closed) p mem
  · by_cases here : r' = r ∧ c = b
    · obtain ⟨rfl, rfl⟩ := here
      rw [created.start?_self inside'] at found
      cases found
      refine .inr ⟨.phi (created.made good) rfl rfl phi, fun l held => ?_⟩
      cases phi.symm.trans held
      exact within
    · rw [created.start?_of_ne here] at found
      exact .inl found
  · rcases created.old made with known | ⟨rfl, rfl⟩
    · exact .inl known
    · exact .inr ⟨within, fresh.2, inside, inner, ⟨_, created.start?_self inside', phi⟩, by simp⟩
  · rcases created.old made with known | ⟨rfl, rfl⟩
    · exact (good.stage ψ m known).later (fun mem => .growing (table.growing ▸ mem))
        (fun bare mem => .pending bare (mem_cons_of_mem _ mem))
        (fun bare mem => .waiting bare (by rw [table.waiting]; exact mem)) (table.closed _).trans
    · exact .pending rfl mem_cons_self
  · obtain ⟨known, idle, outside, isOpen⟩ := good.waiting c r' ψ (table.waiting c ▸ mem)
    refine ⟨created.kept known, table.growing ▸ idle, ?_, (table.closed c).trans isOpen⟩
    rw [mem_cons, not_or]
    refine ⟨?_, outside⟩
    rintro rfl
    rw [fresh.1] at known
    cases known
  · rw [table.waiting]
    exact good.waiting_distinct c
  · obtain ⟨m, known⟩ := good.growing ψ (table.growing ▸ mem)
    exact ⟨m, created.kept known⟩
  · rw [table.growing]
    rcases mem_cons.1 mem with rfl | older
    · exact ⟨(created.not_mem good).2, _, created.made good, rfl⟩
    · obtain ⟨idle, m, known, bare⟩ := good.pending ψ older
      exact ⟨idle, m, created.kept known, bare⟩

end Created

/-! ## Changes that leave entries and phis alone -/

/-- `f` has the phis and the entries of `s`, and its tables are further on. -/
structure Advanced (s f : Registers) : Prop where
  locals : s.locals ≤ f.locals
  merges : f.merges = s.merges
  replaced : f.replaced = s.replaced
  size : f.tables.size = s.tables.size
  start? : ∀ b r, f.start? b r = s.start? b r
  closed : ∀ b, (s.table b).closed = true → (f.table b).closed = true
  filled : ∀ b, (s.table b).filled = true → (f.table b).filled = true
  written : ∀ b, (s.table b).filled = true → (f.table b).written = (s.table b).written

namespace Advanced

lemma modifyTable {b change} (entered : ∀ t, (change t).entered = t.entered)
    (closed : ∀ t, t.closed = true → (change t).closed = true)
    (filled : ∀ t, t.filled = true → (change t).filled = true)
    (written : (s.table b).filled = true → (change (s.table b)).written = (s.table b).written) :
    Advanced s (s.modifyTable b change) := by
  refine ⟨Nat.le_refl _, rfl, rfl, by simp [Registers.modifyTable], fun c r => ?_, fun c => ?_,
    fun c => ?_, fun c => ?_⟩
  · rw [Registers.start?, Registers.start?, field_modifyTable (·.entered) entered]
  all_goals
    rw [table_modifyTable]
    split
    · rename_i here
      rw [here.1]
      first | exact closed _ | exact filled _ | exact written
    · exact fun before => by first | exact before | rfl

variable (advanced : Advanced s f)

include advanced

lemma merge? (φ : Local) : f.merge? φ = s.merge? φ := by
  rw [Registers.merge?, Registers.merge?, advanced.merges]

lemma resolve (v : Value) : f.resolve v = s.resolve v := by
  rw [Registers.resolve, Registers.resolve, advanced.replaced]

lemma later : Later s f where
  locals := advanced.locals
  same v w h := by rw [advanced.resolve, advanced.resolve, h]
  plain l plain := ⟨Nat.lt_of_lt_of_le plain.bound advanced.locals,
    (advanced.merge? l).trans plain.unmerged, advanced.replaced ▸ plain.unreplaced⟩
  entered b r v found := ⟨v, (advanced.start? b r).trans found, rfl⟩
  filled := advanced.filled
  closed := advanced.closed
  written := advanced.written
  makes := .of_merge?_eq advanced.merge?

lemma good {pending' : List Local} (good : Good o pending s)
    (closed : ∀ b, (f.table b).closed = true → ∀ p ∈ o.sourcesOf b, (f.table p).filled = true)
    (plain : ∀ b r l, (r, l) ∈ (f.table b).written → s.Plain l)
    (stage : ∀ φ m, s.merge? φ = some m → Stage o pending s φ m → Stage o pending' f φ m)
    (waiting : ∀ b r φ, (r, φ) ∈ (f.table b).waiting →
      s.merge? φ = some ⟨b, r, []⟩ ∧ φ ∉ f.growing ∧ φ ∉ pending' ∧ (f.table b).closed = false)
    (waiting_distinct : ∀ b, ((f.table b).waiting.map (·.2)).Nodup)
    (growing : ∀ φ ∈ f.growing, ∃ m, s.merge? φ = some m)
    (pending : ∀ φ ∈ pending', φ ∉ f.growing ∧ ∃ m, s.merge? φ = some m ∧ m.operands = []) :
    Good o pending' f := by
  have later := advanced.later
  have places : KeepsPlaces s f := fun φ m made => ⟨m, (advanced.merge? φ).trans made, rfl, rfl⟩
  refine good.advance later places advanced.replaced advanced.size (advanced.merges ▸ good.distinct)
    closed plain (fun b r v found => .inl (advanced.start? b r ▸ found))
    (fun φ m made => .inl (advanced.merge? φ ▸ made)) (fun φ m made => ?_) ?_ waiting_distinct ?_ ?_
  · rw [advanced.merge?] at made
    exact stage φ m made (good.stage φ m made)
  all_goals simpa only [advanced.merge?]

/-- Only what is written or filled changes. -/
lemma good_still (good : Good o pending s) (closed : ∀ c, (f.table c).closed = (s.table c).closed)
    (waiting : ∀ c, (f.table c).waiting = (s.table c).waiting) (growing : f.growing = s.growing)
    (plain : ∀ b r l, (r, l) ∈ (f.table b).written → s.Plain l) : Good o pending f := by
  refine advanced.good good (fun c shut p source => ?_) plain (fun φ m _ stage => ?_)
    (fun c r φ mem => ?_) (fun c => ?_) (growing ▸ good.growing) (growing ▸ good.pending)
  · exact advanced.filled p (good.closed c (closed c ▸ shut) p source)
  · exact stage.later (fun mem => .growing (growing ▸ mem)) .pending
      (fun bare mem => .waiting bare (by rw [waiting]; exact mem)) (advanced.closed _)
  · rw [closed, growing]
    exact good.waiting c r φ (waiting c ▸ mem)
  · rw [waiting]
    exact good.waiting_distinct c

end Advanced

lemma advanced_growing (s : Registers) (growing : List Local) : Advanced s { s with growing } :=
  ⟨Nat.le_refl _, rfl, rfl, rfl, fun _ _ => rfl, fun _ h => h, fun _ h => h, fun _ _ => rfl⟩

/-- A phi about to be completed that is left to the closing of its block. -/
lemma Good.await {r φ b} (good : Good o (φ :: pending) s)
    (made : s.merge? φ = some ⟨b, r, []⟩) (fresh : φ ∉ pending) (isOpen : (s.table b).closed = false) :
    Good o pending (s.await r φ b) ∧ Reads o pending s (s.await r φ b) := by
  have inside : b.index < s.tables.size := good.size ▸ (good.merged φ _ made).inside
  have table (c : BlockId) : (s.await r φ b).table c =
      if c = b then { s.table b with waiting := (s.table b).waiting ++ [(r, φ)] }
      else s.table c := by
    rw [Registers.await, table_modifyTable]
    simp [inside]
  have waits (c : BlockId) (r' : Reg) (ψ : Local)
      (mem : (r', ψ) ∈ ((s.await r φ b).table c).waiting) :
      (r', ψ) ∈ (s.table c).waiting ∨ c = b ∧ r' = r ∧ ψ = φ := by
    rw [table] at mem
    split at mem
    · rename_i here
      subst here
      rcases mem_append.1 mem with older | new
      · exact .inl older
      · exact .inr ⟨rfl, by simpa using new⟩
    · exact .inl mem
  have advanced : Advanced s (s.await r φ b) :=
    .modifyTable (fun _ => rfl) (fun _ h => h) (fun _ h => h) fun _ => rfl
  have closed (c : BlockId) : ((s.await r φ b).table c).closed = (s.table c).closed :=
    field_modifyTable (·.closed) (fun _ => by rfl) c
  have written (c : BlockId) : ((s.await r φ b).table c).written = (s.table c).written :=
    field_modifyTable (·.written) (fun _ => by rfl) c
  have filled (c : BlockId) : ((s.await r φ b).table c).filled = (s.table c).filled :=
    field_modifyTable (·.filled) (fun _ => by rfl) c
  have idle : φ ∉ s.growing := (good.pending φ mem_cons_self).1
  have unwaited : ∀ c r', (r', φ) ∉ (s.table c).waiting := by
    intro c r' mem
    exact (good.waiting c r' φ mem).2.2.1 mem_cons_self
  refine ⟨advanced.good good (fun c shut p source => ?_) (fun c r' l mem => ?_)
    (fun ψ m known stage => ?_) (fun c r' ψ mem => ?_) (fun c => ?_) good.growing
    fun ψ mem => good.pending ψ (mem_cons_of_mem _ mem), advanced.later, written, filled, rfl,
    fun ψ _ => advanced.merge? ψ, .of_start?_eq advanced.start?⟩
  · rw [filled]
    exact good.closed c (closed c ▸ shut) p source
  · exact good.plain c r' l (written c ▸ mem)
  · refine stage.later (fun mem => .growing mem) (fun bare mem => ?_)
      (fun bare mem => .waiting bare ?_) (advanced.closed _)
    · rcases mem_cons.1 mem with rfl | older
      · rw [made] at known
        cases known
        refine .waiting rfl ?_
        rw [table]
        simp
      · exact .pending bare older
    · rw [table]
      split
      · rename_i here
        exact mem_append_left _ (here ▸ mem)
      · exact mem
  · rw [closed]
    rcases waits c r' ψ mem with older | ⟨rfl, rfl, rfl⟩
    · obtain ⟨known, idle, outside, isOpen⟩ := good.waiting c r' ψ older
      exact ⟨known, idle, fun mem => outside (mem_cons_of_mem _ mem), isOpen⟩
    · exact ⟨made, idle, fresh, isOpen⟩
  · rw [table]
    split
    · rw [map_append, nodup_append]
      refine ⟨good.waiting_distinct b, by simp, ?_⟩
      rintro ψ mem _ single rfl
      obtain ⟨⟨r', ψ'⟩, waiting, rfl⟩ := mem_map.1 mem
      have same : ψ' = φ := by simpa using single
      exact unwaited b r' (same ▸ waiting)
    · exact good.waiting_distinct c

end Restack.Lifting.Registers
