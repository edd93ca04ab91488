/-
# Filling and closing blocks

Between two steps of a lift no phi is half made: the tables are `Good` with nothing pending
(`Lifts.spec`). What `lift` does to them are such steps (`Reached`).
-/
import Restack.Proofs.Lifting.Registers.Reading

namespace Restack.Lifting.Registers

open Register (Reg)
open Ir (BlockId Local)
open List Lookup

variable {o : Outline} {s f g : Registers} {b : BlockId}

/-- Growth that neither writes nor fills. -/
structure Settles (s f : Registers) : Prop extends Later s f where
  writes : ∀ c, (f.table c).written = (s.table c).written
  fills : ∀ c, (f.table c).filled = (s.table c).filled
  growing : f.growing = s.growing

lemma Reads.settles {kept} (reads : Reads o kept s f) : Settles s f :=
  ⟨reads.toLater, reads.writes, reads.fills, reads.growing⟩

lemma Settles.refl (s : Registers) : Settles s s := ⟨.refl s, fun _ => rfl, fun _ => rfl, rfl⟩

lemma Settles.trans (first : Settles s f) (second : Settles f g) : Settles s g :=
  ⟨first.toLater.trans second.toLater, fun c => (second.writes c).trans (first.writes c),
    fun c => (second.fills c).trans (first.fills c), second.growing.trans first.growing⟩

/-! ## Writing -/

lemma Good.freshLocal (good : Good o [] s) :
    Good o [] s.freshLocal.2 ∧ Settles s s.freshLocal.2 ∧ s.freshLocal.2.Plain s.freshLocal.1 := by
  have advanced : Advanced s s.freshLocal.2 :=
    ⟨Nat.le_succ _, rfl, rfl, rfl, fun _ _ => rfl, fun _ h => h, fun _ h => h, fun _ _ => rfl⟩
  exact ⟨advanced.good_still good (fun _ => rfl) (fun _ => rfl) rfl good.plain,
    ⟨advanced.later, fun _ => rfl, fun _ => rfl, rfl⟩, Nat.lt_succ_self _, good.fresh.1, good.fresh.2⟩

variable {r : Reg} {l : Local}

lemma filled_write (c : BlockId) : ((s.write r l b).table c).filled = (s.table c).filled :=
  field_modifyTable (·.filled) (fun _ => by rfl) c

lemma Good.write (good : Good o [] s) (unfilled : (s.table b).filled = false)
    (plain : s.Plain l) : Good o [] (s.write r l b) ∧ Later s (s.write r l b) := by
  have advanced : Advanced s (s.write r l b) :=
    .modifyTable (fun _ => rfl) (fun _ h => h) (fun _ h => h) fun filled => by simp [unfilled] at filled
  refine ⟨advanced.good_still good (field_modifyTable (·.closed) fun _ => rfl)
    (field_modifyTable (·.waiting) fun _ => rfl) rfl fun c r' l' mem => ?_, advanced.later⟩
  rw [Registers.write, table_modifyTable] at mem
  split at mem
  · rcases mem_cons.1 mem with new | older
    · cases new
      exact plain
    · exact good.plain b r' l' older
  · exact good.plain c r' l' mem

lemma written_write (inside : b.index < s.tables.size) :
    ((s.write r l b).table b).written = (r, l) :: (s.table b).written := by
  rw [write, table_modifyTable, if_pos ⟨rfl, inside⟩]

lemma written_write_ne {c} (ne : c ≠ b) : ((s.write r l b).table c).written = (s.table c).written := by
  rw [write, table_modifyTable, if_neg fun h => ne h.1]

/-! ## Closing -/

/-- The block is marked as closed; the phis that waited for it are to be completed. -/
lemma Good.shut (good : Good o [] s) (inside : b.index < o.size)
    (ready : ∀ p ∈ o.sourcesOf b, (s.table p).filled = true) :
    let t := s.modifyTable b fun t => { t with closed := true, waiting := [] }
    Good o ((s.table b).waiting.map (·.2)) t ∧ Settles s t ∧ (t.table b).closed = true := by
  intro t
  have inside' : b.index < s.tables.size := good.size ▸ inside
  have table (c : BlockId) : t.table c =
      if c = b then { s.table b with closed := true, waiting := [] } else s.table c := by
    rw [table_modifyTable]
    simp [inside']
  have written (c : BlockId) : (t.table c).written = (s.table c).written :=
    field_modifyTable (·.written) (fun _ => by rfl) c
  have filled (c : BlockId) : (t.table c).filled = (s.table c).filled :=
    field_modifyTable (·.filled) (fun _ => by rfl) c
  have advanced : Advanced s t :=
    .modifyTable (fun _ => rfl) (fun _ _ => rfl) (fun _ h => h) fun _ => rfl
  refine ⟨advanced.good good ?_ ?_ ?_ ?_ ?_ good.growing ?_, ⟨advanced.later, written, filled, rfl⟩,
    by simp [table]⟩
  · intro c closed p source
    rw [filled]
    rw [table] at closed
    split at closed
    · rename_i here
      exact ready p (here ▸ source)
    · exact good.closed c closed p source
  · intro c r l mem
    exact good.plain c r l (written c ▸ mem)
  · intro φ m made stage
    refine stage.later (fun mem => .growing mem) (fun _ mem => by cases mem)
      (fun bare mem => ?_) (advanced.closed _)
    by_cases here : m.block = b
    · exact .pending bare (mem_map.2 ⟨_, here ▸ mem, rfl⟩)
    · refine .waiting bare ?_
      rw [table, if_neg here]
      exact mem
  · intro c r φ mem
    rw [table] at mem
    split at mem
    · cases mem
    · rename_i elsewhere
      obtain ⟨made, idle, -, isOpen⟩ := good.waiting c r φ mem
      refine ⟨made, idle, fun waits => ?_, ?_⟩
      · obtain ⟨⟨r', φ'⟩, waiting, rfl⟩ := mem_map.1 waits
        obtain ⟨made', -⟩ := good.waiting b r' φ' waiting
        rw [made] at made'
        cases made'
        exact elsewhere rfl
      · rw [table, if_neg elsewhere]
        exact isOpen
  · intro c
    rw [table]
    split
    · exact nodup_nil
    · exact good.waiting_distinct c
  · intro φ mem
    obtain ⟨⟨r, φ⟩, waiting, rfl⟩ := mem_map.1 mem
    obtain ⟨made, idle, -⟩ := good.waiting b r φ waiting
    exact ⟨idle, _, made, rfl⟩

lemma completeAll_spec (isClosed : o.Closed) (waiting : List (Reg × Local))
    (good : Good o (waiting.map (·.2)) s) (distinct : (waiting.map (·.2)).Nodup)
    (made : ∀ r φ, (r, φ) ∈ waiting → s.merge? φ = some ⟨b, r, []⟩) (closed : (s.table b).closed = true) :
    let t := waiting.foldl (fun s (r, φ) => match s.merge? φ with
      | some m => (gather (readWith o r (o.size + 1)) (o.sourcesOf m.block) φ s).2
      | none => s) s
    Good o [] t ∧ Settles s t ∧ Traced o (.all (waiting.map fun w => .complete w.1 w.2)) s none t := by
  induction waiting generalizing s with
  | nil => exact ⟨good, .refl s, [], .nil, (Later.refl s).tracked⟩
  | cons w waiting ih =>
    obtain ⟨r, φ⟩ := w
    simp only [map_cons, nodup_cons] at distinct good
    have here := made r φ mem_cons_self
    have fuel : missing o s r < o.size + 1 := Nat.lt_succ_of_le (missing_le_size s r)
    obtain ⟨good', reads, -, ts, run, tracked⟩ := gather_spec isClosed
      (fun good inside enough => readWith_spec isClosed good inside enough)
      good here distinct.1 closed fuel
    have made' : ∀ r' ψ, (r', ψ) ∈ waiting →
        (gather (readWith o r (o.size + 1)) (o.sourcesOf b) φ s).2.merge? ψ =
          some ⟨b, r', []⟩ := by
      intro r' ψ mem
      rw [reads.frame ψ (.inl (mem_map.2 ⟨_, mem, rfl⟩))]
      exact made r' ψ (mem_cons_of_mem _ mem)
    obtain ⟨good'', settles, ts', rest, tracked'⟩ := ih good' distinct.2 made' (reads.closed b closed)
    simp only [foldl_cons, here]
    exact ⟨good'', reads.settles.trans settles, _, .cons run rest, tracked.append good' tracked'⟩

lemma close_spec (isClosed : o.Closed) (good : Good o [] s) (inside : b.index < o.size)
    (ready : ∀ p ∈ o.sourcesOf b, (s.table p).filled = true) :
    Good o [] (s.close o b) ∧ Settles s (s.close o b) ∧ ((s.close o b).table b).closed = true ∧
      Traced o (.close b) s none (s.close o b) := by
  rw [close]
  by_cases already : (s.table b).closed = true
  · rw [if_pos already]
    exact ⟨good, .refl s, already, [], .closed already, (Later.refl s).tracked⟩
  · rw [if_neg already]
    obtain ⟨good', settles, closed⟩ := good.shut inside ready
    obtain ⟨good'', settles', ts, run, tracked⟩ := completeAll_spec isClosed (s.table b).waiting good'
      (good.waiting_distinct b) (fun r φ mem => (good.waiting b r φ mem).1) closed
    exact ⟨good'', settles.trans settles', settles'.closed b closed, _,
      .close (by simpa using already) rfl run, settles.toLater.tracked.append good' tracked⟩

/-- Marking a block as filled. -/
lemma Good.fill (good : Good o [] s) (inside : b.index < o.size) :
    let t := s.modifyTable b fun t => { t with filled := true }
    Good o [] t ∧ Later s t ∧ (∀ c, (t.table c).written = (s.table c).written) ∧
      (t.table b).filled = true ∧ ∀ c, c ≠ b → (t.table c).filled = (s.table c).filled := by
  intro t
  have inside' : b.index < s.tables.size := good.size ▸ inside
  have table (c : BlockId) : t.table c =
      if c = b then { s.table b with filled := true } else s.table c := by
    rw [table_modifyTable]
    simp [inside']
  have written (c : BlockId) : (t.table c).written = (s.table c).written :=
    field_modifyTable (·.written) (fun _ => by rfl) c
  have advanced : Advanced s t :=
    .modifyTable (fun _ => rfl) (fun _ h => h) (fun _ _ => rfl) fun _ => rfl
  refine ⟨advanced.good_still good (field_modifyTable (·.closed) fun _ => rfl)
    (field_modifyTable (·.waiting) fun _ => rfl) rfl fun c r l mem => ?_, advanced.later, written,
    by simp [table], fun c ne => by rw [table, if_neg ne]⟩
  exact good.plain c r l (written c ▸ mem)

/-! ## The start -/

lemma initial_table (n : Nat) (b : BlockId) : (initial n).table b = {} := by
  simp only [table, initial, Array.getD_eq_getD_getElem?, Array.getElem?_replicate]
  split <;> rfl

lemma initial_close (n : Nat) : (initial n).close o b =
    (initial n).modifyTable b fun t => { t with closed := true, waiting := [] } := by
  rw [close, if_neg (by simp [initial_table]), initial_table]
  rfl

lemma initial_spec (isClosed : o.Closed) : Good o [] ((initial o.size).close o entry) ∧
      ((initial o.size).close o entry).growing = [] ∧ ((initial o.size).close o entry).locals = 0 ∧
      ∀ c, (((initial o.size).close o entry).table c).written = [] ∧
        (((initial o.size).close o entry).table c).filled = false := by
  have bare := initial_table o.size
  have size : (initial o.size).tables.size = o.size := by simp [initial]
  have eq := initial_close o.size (o := o) (b := entry)
  have inside : entry.index < (initial o.size).tables.size := size.symm ▸ isClosed.entry_inside
  have table (c : BlockId) : ((initial o.size).close o entry).table c =
      if c = entry then { closed := true } else {} := by
    rw [eq, table_modifyTable, bare, bare]
    simp [inside]
  have entered (c : BlockId) (r : Reg) : ((initial o.size).close o entry).start? c r = none := by
    rw [start?, table]
    split <;> rfl
  have merge (φ : Local) : ((initial o.size).close o entry).merge? φ = none := by rw [eq]; rfl
  refine ⟨?_, by rw [eq]; rfl, by rw [eq]; rfl, fun c => ?_⟩
  · refine {
      size := by rw [eq]; simp [modifyTable, initial]
      grounded := by rw [eq]; exact .nil
      distinct := by rw [eq]; exact nodup_nil
      unreplaced := fun φ m made => by rw [merge] at made; cases made
      bound := fun φ m made => by rw [merge] at made; cases made
      replaced_bound := fun φ v found => by rw [eq] at found; cases found
      entry_closed := by simp [table]
      closed := fun c closed p source => ?_
      plain := fun c r l mem => ?_
      entered := fun c r v found => by rw [entered] at found; cases found
      entered_bound := fun c r v found => by rw [entered] at found; cases found
      merged := fun φ m made => by rw [merge] at made; cases made
      stage := fun φ m made => by rw [merge] at made; cases made
      waiting := fun c r φ mem => ?_
      waiting_distinct := fun c => ?_
      growing := fun φ mem => by rw [eq] at mem; cases mem
      pending := fun φ mem => by cases mem }
    · rw [table] at closed
      split at closed
      · rename_i here
        rw [here, isClosed.entry_sources] at source
        cases source
      · cases closed
    · rw [table] at mem
      split at mem <;> cases mem
    · rw [table] at mem
      split at mem <;> cases mem
    · rw [table]
      split <;> exact nodup_nil
  · rw [table]
    split <;> exact ⟨rfl, rfl⟩

/-! ## Steps -/

lemma Step.spec (isClosed : o.Closed) {ts} (good : Good o [] s)
    (step : Step o s ts f) : Good o [] f ∧ f.growing = s.growing ∧ Tracked o s ts f := by
  cases step with
  | fresh => exact ⟨good.freshLocal.1, rfl, good.freshLocal.2.1.toLater.tracked⟩
  | write unfilled plain =>
    obtain ⟨good', later⟩ := good.write unfilled plain
    exact ⟨good', rfl, later.tracked⟩
  | fill inside =>
    obtain ⟨good', later, -⟩ := good.fill inside
    exact ⟨good', rfl, later.tracked⟩
  | @read b r _ _ _ inside run =>
    have read := read_spec isClosed good inside (r := r)
    obtain ⟨_, run', tracked⟩ := read.traced
    obtain ⟨rfl, -, rfl⟩ := run.unique run'
    exact ⟨read.good, read.reads.growing, tracked⟩
  | close inside ready run =>
    obtain ⟨good', settles, -, _, run', tracked⟩ := close_spec isClosed good inside ready
    obtain ⟨rfl, -, rfl⟩ := run.unique run'
    exact ⟨good', settles.growing, tracked⟩

lemma Lifts.spec (isClosed : o.Closed) {ts} (lifts : Lifts o ts s) :
    Good o [] s ∧ s.growing = [] ∧ (∀ t ∈ ts, ∃ pending, Good o pending t) ∧ (ts ++ [s]).IsChain Later := by
  induction lifts with
  | start => exact ⟨(initial_spec isClosed).1, (initial_spec isClosed).2.1, by simp, by simp⟩
  | step _ step ih =>
    obtain ⟨good, idle, before, grows⟩ := ih
    obtain ⟨good', growing, tracked⟩ := step.spec isClosed good
    refine ⟨good', growing.trans idle, fun t mem => ?_, ?_⟩
    · rcases mem_append.1 mem with earlier | later
      · exact before t earlier
      · rcases mem_cons.1 later with rfl | within
        · exact ⟨[], good⟩
        · exact tracked.good t within
    · rw [append_assoc]
      exact isChain_split.2 ⟨grows, tracked.grows⟩

/-- A state that some lift comes to. -/
structure Reached (o : Outline) (s : Registers) : Prop where
  closed : o.Closed
  lifts : ∃ ts, Lifts o ts s

namespace Reached

variable (reached : Reached o s)

include reached

lemma good : Good o [] s :=
  have ⟨_, lifts⟩ := reached.lifts
  (lifts.spec reached.closed).1

lemma idle : s.growing = [] :=
  have ⟨_, lifts⟩ := reached.lifts
  (lifts.spec reached.closed).2.1

lemma step {ts} (step : Step o s ts f) : Reached o f :=
  have ⟨_, lifts⟩ := reached.lifts
  ⟨reached.closed, _, .step lifts step⟩

lemma sources (closed : ∀ b : BlockId, b.index < o.size → (s.table b).closed = true) {φ m}
    (made : s.merge? φ = some m) : m.operands.map (·.1) = o.sourcesOf m.block := by
  cases reached.good.stage φ m made with
  | growing mem =>
    rw [reached.idle] at mem
    cases mem
  | pending _ mem => cases mem
  | waiting _ mem =>
    have still := (reached.good.waiting _ _ _ mem).2.2.2
    rw [closed _ (reached.good.merged φ m made).inside] at still
    cases still
  | complete complete => exact complete.sources

lemma readAll (inside : b.index < o.size) (regs : List Reg) :
    Reached o (s.readAll o b regs).2 ∧ Settles s (s.readAll o b regs).2 ∧
      List.Forall₂ (fun r v => (s.readAll o b regs).2.Agrees b r v) regs (s.readAll o b regs).1 := by
  induction regs generalizing s with
  | nil => exact ⟨reached, .refl s, .nil⟩
  | cons r regs ih =>
    have read : ReadSpec o [] s b r (s.read o b r) := read_spec reached.closed reached.good inside
    obtain ⟨_, run, -⟩ := read.traced
    obtain ⟨reached', settles, agree⟩ := ih (reached.step (.read inside run))
    refine ⟨reached', read.reads.settles.trans settles, .cons ?_ agree⟩
    exact settles.toLater.agrees (settles.writes b) read.agrees

lemma freshLocal :
    Reached o s.freshLocal.2 ∧ Settles s s.freshLocal.2 ∧ s.freshLocal.2.Plain s.freshLocal.1 :=
  ⟨reached.step .fresh, reached.good.freshLocal.2⟩

lemma write (unfilled : (s.table b).filled = false) (plain : s.Plain l) :
    Reached o (s.write r l b) ∧ Later s (s.write r l b) :=
  ⟨reached.step (.write unfilled plain), (reached.good.write unfilled plain).2⟩

lemma close (inside : b.index < o.size) (ready : ∀ p ∈ o.sourcesOf b, (s.table p).filled = true) :
    Reached o (s.close o b) ∧ Settles s (s.close o b) ∧ ((s.close o b).table b).closed = true := by
  obtain ⟨-, settles, closed, _, run, -⟩ := close_spec reached.closed reached.good inside ready
  exact ⟨reached.step (.close inside ready run), settles, closed⟩

lemma closeIfReady (inside : b.index < o.size) :
    Reached o (s.closeIfReady o b) ∧ Settles s (s.closeIfReady o b) := by
  rw [Registers.closeIfReady]
  split
  · rename_i ready
    obtain ⟨reached', settles, -⟩ := reached.close inside (all_eq_true.1 ready)
    exact ⟨reached', settles⟩
  · exact ⟨reached, .refl s⟩

lemma finishBlock (order : ClosingOrder) (inside : b.index < o.size) :
    Reached o (s.finishBlock order o b) ∧ Later s (s.finishBlock order o b) ∧
      (∀ c, ((s.finishBlock order o b).table c).written = (s.table c).written) ∧
      ((s.finishBlock order o b).table b).filled = true ∧
      ∀ c, c ≠ b → ((s.finishBlock order o b).table c).filled = (s.table c).filled := by
  obtain ⟨-, later, written, filled, others⟩ := reached.good.fill inside
  have loop (targets : List BlockId) (among : targets ⊆ o.targetsOf b) {t : Registers}
      (reached : Reached o t) :
      let u := targets.foldl (fun s target =>
        let t := s.table target
        if t.filled || !t.waiting.isEmpty then s.closeIfReady o target else s) t
      Reached o u ∧ Settles t u := by
    induction targets generalizing t with
    | nil => exact ⟨reached, .refl t⟩
    | cons c targets ih =>
      have step : ∀ u, u = (if (t.table c).filled || !(t.table c).waiting.isEmpty
          then t.closeIfReady o c else t) → Reached o u ∧ Settles t u := by
        rintro u rfl
        split
        · exact reached.closeIfReady (reached.closed.targets_inside b c (among mem_cons_self))
        · exact ⟨reached, .refl t⟩
      obtain ⟨reached', settles⟩ := step _ rfl
      obtain ⟨reached'', settles'⟩ := ih (fun d h => among (mem_cons_of_mem _ h)) reached'
      exact ⟨reached'', settles.trans settles'⟩
  obtain ⟨reached', settles⟩ := loop _ (order.perm b _).subset (reached.step (.fill inside))
  exact ⟨reached', later.trans settles.toLater, fun c => (settles.writes c).trans (written c),
    settles.filled b filled, fun c ne => (settles.fills c).trans (others c ne)⟩

end Reached

end Restack.Lifting.Registers
