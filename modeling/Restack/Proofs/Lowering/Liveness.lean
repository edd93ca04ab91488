/-
# Live sets are closed

The rounds of `liveIn` only ever add to the sets (`Rising`), and a round that adds nothing
leaves sets that are closed (`livenessRound_cases`). Every other round adds a local to a block,
and there are fewer such pairs than rounds, so the sets of `liveIn` are closed (`liveIn_closed`).
-/
import Restack.Lowering.Liveness
import Restack.Proofs.Ir.Graph
import Restack.Proofs.Lists

namespace Restack.Lowering

open List Ir

/-! ## Sets -/

namespace LocalSet

variable {s t : LocalSet} {l k : Local}

lemma mem_insert : l ∈ insert s k ↔ l ∈ s ∨ l = k := by
  unfold insert
  split
  · rename_i known
    rw [contains_iff_mem] at known
    exact ⟨.inl, fun mem => mem.elim id fun same => same ▸ known⟩
  · rw [mem_cons, or_comm]

lemma mem_addAll {ls} : l ∈ addAll s ls ↔ l ∈ s ∨ l ∈ ls := by
  unfold addAll
  induction ls generalizing s with
  | nil => simp
  | cons k ls ih => rw [foldl_cons, ih, mem_insert, mem_cons, or_assoc]

lemma mem_remove : l ∈ remove s k ↔ l ∈ s ∧ l ≠ k := by
  simp [remove]

lemma same_iff : same s t = true ↔ ∀ l, l ∈ s ↔ l ∈ t := by
  simp only [same, subset, Bool.and_eq_true, all_eq_true, contains_iff_mem]
  exact ⟨fun both l => ⟨both.1 l, both.2 l⟩, fun iff => ⟨fun l => (iff l).1, fun l => (iff l).2⟩⟩

end LocalSet

lemma LiveIn.mem_union {live : LiveIn} {bs l} : l ∈ live.union bs ↔ ∃ b ∈ bs, l ∈ live.of b := by
  have walk : ∀ s : LocalSet, l ∈ bs.foldl (fun s b => s.addAll (live.of b)) s ↔
      l ∈ s ∨ ∃ b ∈ bs, l ∈ live.of b := by
    induction bs with
    | nil => simp
    | cons b bs ih =>
      intro s
      rw [foldl_cons, ih, LocalSet.mem_addAll, or_assoc, exists_mem_cons_iff]
  rw [LiveIn.union, walk]
  simp

/-! ## Along a block -/

section Along

variable {handlers handlers' atEnd atEnd' live : LocalSet} {l : Local} {s : Stmt} {stmts : List Stmt}

lemma mem_liveBefore : l ∈ liveBefore handlers s live ↔
    l ∈ live ∧ s.def? ≠ some l ∨ .var l ∈ s.values ∨ s.canThrow = true ∧ l ∈ handlers := by
  unfold liveBefore
  cases defines : s.def? <;> cases throws : s.canThrow <;>
    simp [LocalSet.mem_addAll, LocalSet.mem_remove, mem_localsOf, or_assoc, eq_comm]

lemma mem_liveAtEnd {t} : l ∈ liveAtEnd handlers t live ↔
    l ∈ live ∨ .var l ∈ t.values ∨ t.isThrow = true ∧ l ∈ handlers := by
  unfold liveAtEnd
  split
  · rename_i throws
    rw [LocalSet.mem_addAll, LocalSet.mem_addAll, mem_localsOf, or_assoc]
    simp [throws]
  · rename_i calm
    rw [LocalSet.mem_addAll, mem_localsOf]
    simp [calm]

/-- The locals live in front of the statements that are left of a block. -/
def liveAt (handlers atEnd : LocalSet) (stmts : List Stmt) : LocalSet :=
  (liveAlong handlers atEnd stmts).headD []

@[simp] lemma liveAt_nil : liveAt handlers atEnd [] = atEnd := rfl

lemma liveAlong_cons : liveAlong handlers atEnd (s :: stmts) =
    liveBefore handlers s (liveAt handlers atEnd stmts) :: liveAlong handlers atEnd stmts := rfl

@[simp] lemma liveAt_cons : liveAt handlers atEnd (s :: stmts) =
    liveBefore handlers s (liveAt handlers atEnd stmts) := rfl

lemma liveAlong_eq (handlers atEnd : LocalSet) (stmts : List Stmt) :
    ∃ rest, liveAlong handlers atEnd stmts = liveAt handlers atEnd stmts :: rest := by
  cases stmts with
  | nil => exact ⟨[], rfl⟩
  | cons s stmts => exact ⟨_, liveAlong_cons⟩

lemma liveAt_mono (more : ∀ l ∈ handlers, l ∈ handlers') (more' : ∀ l ∈ atEnd, l ∈ atEnd') :
    ∀ l ∈ liveAt handlers atEnd stmts, l ∈ liveAt handlers' atEnd' stmts := by
  induction stmts with
  | nil => exact more'
  | cons s stmts ih =>
    intro l mem
    rw [liveAt_cons, mem_liveBefore] at mem ⊢
    exact mem.imp (And.imp_left (ih l)) (Or.imp_right (And.imp_right (more l)))

lemma liveAt_inner {P : Local → Prop} (handlers_ : ∀ l ∈ handlers, P l) (end_ : ∀ l ∈ atEnd, P l)
    (reads : ∀ s ∈ stmts, ∀ l, .var l ∈ s.values → P l) : ∀ l ∈ liveAt handlers atEnd stmts, P l := by
  induction stmts with
  | nil => exact end_
  | cons s stmts ih =>
    intro l mem
    rw [liveAt_cons, mem_liveBefore] at mem
    rcases mem with ⟨later, -⟩ | read | ⟨-, handled⟩
    · exact ih (fun s' among => reads s' (mem_cons_of_mem _ among)) l later
    · exact reads s mem_cons_self l read
    · exact handlers_ l handled

end Along

/-! ## Rounds -/

/-- What the handlers of a block need. -/
def handlersLive (m : Method) (live : LiveIn) (b : BlockId) : LocalSet :=
  live.union (m.exceptionalSuccessors b)

/-- What is live in front of the terminator of a block. -/
def endLive (m : Method) (live : LiveIn) (b : BlockId) (block : Block) : LocalSet :=
  liveAtEnd (handlersLive m live b) block.terminator (live.union (m.successors b))

/-- What is live at the beginning of a block, given what is live at its successors. -/
def entryLive (m : Method) (live : LiveIn) (b : BlockId) (block : Block) : LocalSet :=
  liveAt (handlersLive m live b) (endLive m live b block) block.stmts

lemma blockLiveness_eq (m : Method) (live : LiveIn) (b : BlockId) (block : Block) :
    blockLiveness m live b block =
      liveAlong (handlersLive m live b) (endLive m live b block) block.stmts := rfl

variable {m : Method} {live live' : LiveIn} {b c : BlockId} {block : Block}

lemma entryLive_mono (more : ∀ b, ∀ l ∈ live.of b, l ∈ live'.of b) :
    ∀ l ∈ entryLive m live b block, l ∈ entryLive m live' b block := by
  have union (bs : List BlockId) : ∀ l ∈ live.union bs, l ∈ live'.union bs := by
    intro l mem
    obtain ⟨c, among, live⟩ := LiveIn.mem_union.1 mem
    exact LiveIn.mem_union.2 ⟨c, among, more c l live⟩
  refine liveAt_mono (union _) fun l mem => ?_
  rw [endLive, mem_liveAtEnd] at mem ⊢
  exact mem.imp (union _ l) (Or.imp_right (And.imp_right (union _ l)))

/-- The locals that the blocks of the layout mention are numbered below their count. -/
def Numbered (m : Method) : Prop :=
  ∀ b ∈ m.layout, ∀ block, m.block? b = some block →
    (∀ s ∈ block.stmts, ∀ l, s.def? = some l ∨ .var l ∈ s.values → l.index < m.locals.size) ∧
    ∀ l, .var l ∈ block.terminator.values → l.index < m.locals.size

/-- Sets that the next round can only add to. -/
structure Rising (m : Method) (live : LiveIn) : Prop where
  size : live.size = m.blocks.size
  inner : ∀ b, ∀ l ∈ live.of b, l.index < m.locals.size
  rises : ∀ b ∈ m.layout, ∀ block, m.block? b = some block → ∀ l ∈ live.of b, l ∈ entryLive m live b block

lemma entryLive_inner (numbered : Numbered m) (inner : ∀ b, ∀ l ∈ live.of b, l.index < m.locals.size)
    (listed : b ∈ m.layout) (here : m.block? b = some block) :
    ∀ l ∈ entryLive m live b block, l.index < m.locals.size := by
  have union (bs : List BlockId) : ∀ l ∈ live.union bs, l.index < m.locals.size := by
    intro l mem
    obtain ⟨c, -, live⟩ := LiveIn.mem_union.1 mem
    exact inner c l live
  obtain ⟨stmts, ending⟩ := numbered b listed block here
  refine liveAt_inner (union _) (fun l mem => ?_) fun s among l read => stmts s among l (.inr read)
  rw [endLive, mem_liveAtEnd] at mem
  rcases mem with out | read | ⟨-, handled⟩
  · exact union _ l out
  · exact ending l read
  · exact union _ l handled

lemma LiveIn.of_set (inside : b.index < live.size) (s : LocalSet) :
    LiveIn.of (live.setIfInBounds b.index s) c = if c = b then s else live.of c := by
  rw [LiveIn.of, LiveIn.of, Array.getD_eq_getD_getElem?, Array.getD_eq_getD_getElem?,
    Array.getElem?_setIfInBounds]
  by_cases same : c = b
  · subst same
    simp [inside]
  · have other : b.index ≠ c.index := fun index => same (BlockId.index_injective index.symm)
    simp [same, other]

/-- How many pairs of a block and a local live there are. -/
def weight (m : Method) (live : LiveIn) : Nat :=
  total ((List.range m.blocks.size).map fun i =>
    ((List.range m.locals.size).filter fun k => (live.getD i []).contains ⟨k⟩).length)

lemma weight_le (m : Method) (live : LiveIn) : weight m live ≤ m.blocks.size * m.locals.size := by
  have each : weight m live ≤ total ((range m.blocks.size).map fun _ => m.locals.size) := by
    refine Lists.total_map_le fun i _ => ?_
    exact Nat.le_trans (length_filter_le _ _) (Nat.le_of_eq length_range)
  simpa using each

lemma weight_add {s l} (size : live.size = m.blocks.size)
    (inside : b.index < m.blocks.size) (more : ∀ k ∈ live.of b, k ∈ s) (added : l ∈ s)
    (fresh : l ∉ live.of b) (bound : l.index < m.locals.size) :
    weight m live + 1 ≤ weight m (live.setIfInBounds b.index s) := by
  have shows (i : Nat) : Array.getD (live.setIfInBounds b.index s) i [] =
      if i = b.index then s else live.getD i [] := by
    by_cases same : b.index = i
    · subst same
      simp [size, inside]
    · simp [same, Ne.symm same]
  have sublist : ((range m.locals.size).filter fun k => (live.of b).contains ⟨k⟩).Sublist
      ((range m.locals.size).filter fun k => s.contains ⟨k⟩) := by
    refine monotone_filter_right _ fun k mem => ?_
    rw [contains_iff_mem] at mem ⊢
    exact more _ mem
  refine Lists.total_map_add_le (fun i _ => ?_) (mem_range.2 inside) ?_
  · rw [shows]
    split
    · rename_i same
      subst same
      exact sublist.length_le
    · exact Nat.le_refl _
  · rw [shows, if_pos rfl]
    refine Nat.lt_of_le_of_ne sublist.length_le fun same => fresh ?_
    have mem : l.index ∈ (range m.locals.size).filter fun k => s.contains ⟨k⟩ :=
      mem_filter.2 ⟨mem_range.2 bound, contains_iff_mem.2 added⟩
    rw [← sublist.eq_of_length same] at mem
    exact contains_iff_mem.1 (mem_filter.1 mem).2

/-- One block of a round. -/
def visit (m : Method) (state : LiveIn × Bool) (b : BlockId) : LiveIn × Bool :=
  match m.block? b with
  | none => state
  | some block =>
    if (entryLive m state.1 b block).same (state.1.of b) then state
    else (state.1.setIfInBounds b.index (entryLive m state.1 b block), true)

lemma livenessRound_eq (m : Method) (live : LiveIn) :
    livenessRound m live = m.layout.reverse.foldl (visit m) (live, false) := rfl

/-- A block leaves all as it is, because it is closed, or adds to its own set. -/
lemma visit_cases (numbered : Numbered m) {state} (rising : Rising m state.1) (listed : b ∈ m.layout) :
    visit m state b = state ∧ (∀ block, m.block? b = some block →
      ∀ l ∈ entryLive m state.1 b block, l ∈ state.1.of b) ∨
    Rising m (visit m state b).1 ∧ (visit m state b).2 = true ∧
      weight m state.1 + 1 ≤ weight m (visit m state b).1 := by
  unfold visit
  cases here : m.block? b with
  | none => exact .inl ⟨rfl, by simp⟩
  | some block =>
    dsimp only
    split
    · rename_i same
      refine .inl ⟨rfl, fun _ found l mem => ?_⟩
      cases found
      exact (LocalSet.same_iff.1 same l).1 mem
    · rename_i differs
      have inside := Method.index_lt_of_block? here
      have below := rising.rises b listed block here
      have more : ∀ c, ∀ l ∈ state.1.of c, l ∈ LiveIn.of
          (state.1.setIfInBounds b.index (entryLive m state.1 b block)) c := by
        intro c l mem
        rw [LiveIn.of_set (rising.size ▸ inside)]
        split
        · rename_i same
          exact below l (same ▸ mem)
        · exact mem
      have bound := entryLive_inner numbered rising.inner listed here
      refine .inr ⟨⟨?_, fun c l mem => ?_, fun c among block' there l mem => ?_⟩, rfl, ?_⟩
      · rw [Array.size_setIfInBounds, rising.size]
      · rw [LiveIn.of_set (rising.size ▸ inside)] at mem
        split at mem
        · exact bound l mem
        · exact rising.inner c l mem
      · refine entryLive_mono more l ?_
        rw [LiveIn.of_set (rising.size ▸ inside)] at mem
        split at mem
        · rename_i same
          subst same
          rw [here] at there
          cases there
          exact mem
        · exact rising.rises c among block' there l mem
      · rw [LocalSet.same_iff] at differs
        obtain ⟨l, added⟩ := Classical.not_forall.1 differs
        have fresh : l ∈ entryLive m state.1 b block ∧ l ∉ state.1.of b := by
          by_contra none_
          exact added ⟨fun mem => by_contra fun out => none_ ⟨mem, out⟩, below l⟩
        exact weight_add rising.size inside below fresh.1 fresh.2 (bound l fresh.1)

/-- The set of each block of the layout has all that is live at its beginning. -/
def Closed (m : Method) (live : LiveIn) : Prop :=
  ∀ b ∈ m.layout, ∀ block, m.block? b = some block → ∀ l ∈ entryLive m live b block, l ∈ live.of b

/-- A round finds the sets closed or adds to one. -/
lemma livenessRound_cases (numbered : Numbered m) (rising : Rising m live) :
    (livenessRound m live).1 = live ∧ (livenessRound m live).2 = false ∧ Closed m live ∨
    Rising m (livenessRound m live).1 ∧ (livenessRound m live).2 = true ∧
      weight m live + 1 ≤ weight m (livenessRound m live).1 := by
  have walk : ∀ (bs : List BlockId) (state : LiveIn × Bool), (∀ b ∈ bs, b ∈ m.layout) →
      Rising m state.1 →
      bs.foldl (visit m) state = state ∧ (∀ b ∈ bs, ∀ block, m.block? b = some block →
        ∀ l ∈ entryLive m state.1 b block, l ∈ state.1.of b) ∨
      Rising m (bs.foldl (visit m) state).1 ∧ (bs.foldl (visit m) state).2 = true ∧
        weight m state.1 + 1 ≤ weight m (bs.foldl (visit m) state).1 := by
    intro bs
    induction bs with
    | nil => exact fun state _ _ => .inl ⟨rfl, by simp⟩
    | cons b bs ih =>
      intro state listed rising
      have later := fun c among => listed c (mem_cons_of_mem b among)
      rw [foldl_cons]
      rcases visit_cases numbered rising (listed b mem_cons_self) with
        ⟨same, closed⟩ | ⟨rising', changed, heavier⟩
      · rw [same]
        rcases ih state later rising with ⟨same', closed'⟩ | grown
        · refine .inl ⟨same', fun c among => ?_⟩
          rcases mem_cons.1 among with rfl | among
          · exact closed
          · exact closed' c among
        · exact .inr grown
      · rcases ih _ later rising' with ⟨same', -⟩ | ⟨rising'', changed', heavier'⟩
        · rw [same']
          exact .inr ⟨rising', changed, heavier⟩
        · exact .inr ⟨rising'', changed', Nat.le_trans heavier (Nat.le_of_succ_le heavier')⟩
  rw [livenessRound_eq]
  rcases walk m.layout.reverse (live, false) (by simp) rising with ⟨same, closed⟩ | grown
  · rw [same]
    exact .inl ⟨rfl, rfl, fun b listed => closed b (mem_reverse.2 listed)⟩
  · exact .inr grown

lemma livenessWith_closed (numbered : Numbered m) (fuel : Nat) (rising : Rising m live)
    (enough : m.blocks.size * m.locals.size < fuel + weight m live) :
    Closed m (livenessWith m fuel live) := by
  induction fuel generalizing live with
  | zero =>
    have := weight_le m live
    omega
  | succ fuel ih =>
    unfold livenessWith
    rcases livenessRound_cases numbered rising with ⟨same, unchanged, closed⟩ | ⟨rising', changed, heavier⟩
    · simp only [unchanged, same]
      exact closed
    · simp only [changed]
      exact ih rising' (by omega)

lemma liveIn_closed (numbered : Numbered m) : Closed m (liveIn m) := by
  have empty (b : BlockId) : LiveIn.of (Array.replicate m.blocks.size []) b = [] := by
    rw [LiveIn.of, Array.getD_eq_getD_getElem?, Array.getElem?_replicate]
    split <;> rfl
  refine livenessWith_closed numbered _ ⟨by simp, fun b l mem => ?_, fun b _ block _ l mem => ?_⟩
    (by omega)
  · rw [empty] at mem
    cases mem
  · rw [empty] at mem
    cases mem

end Restack.Lowering
