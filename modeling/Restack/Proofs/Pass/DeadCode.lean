/-
# What the removal of dead code does

The spreading of liveness has fuel for every read, so what is live is closed
under what live definitions read (`isLive_of_reads`) and holds what is read for
an effect (`isLive_of_demanded`). Dropping the rest therefore leaves no use
without its definition (`removeDead_sound`).
-/
import Restack.Pass.DeadCode
import Restack.Proofs.Ir.Reachable
import Restack.Proofs.Ir.Rewriting

namespace Restack.Pass

open List Ir
open Restack.Lists

/-- Whether a local is read for an effect, directly or through others. -/
def isLive (m : Method) (l : Local) : Bool := (liveLocals m).getD l.index false

/-- Drops the definitions that are not live. -/
def sweep (m : Method) : Method := m.mapBlocks fun _ block => { block with
  phis := block.phis.filter fun p => isLive m p.dst
  stmts := block.stmts.filterMap (trimmed (isLive m)) }

lemma removeDead_fst (m : Method) : (removeDead m).1 = sweep m.removeUnreachable.1.pruneEdges := rfl

/-! ## Tables of reads -/

/-- Collects what each local reads. -/
def collect (reads : Array (List Local)) (pairs : List (Local × List Local)) : Array (List Local) :=
  pairs.foldl (fun reads (l, ls) => reads.modify l.index (· ++ ls)) reads

lemma total_length_modify (lists : List (List Local)) (i : Nat) (ls : List Local) :
    total ((lists.modify i (· ++ ls)).map List.length) ≤ total (lists.map List.length) + ls.length := by
  induction lists generalizing i with
  | nil => simp
  | cons first rest ih =>
    cases i with
    | zero =>
      simp only [modify_zero_cons, map_cons, length_append, total_cons]
      omega
    | succ i =>
      have := ih i
      simp only [modify_succ_cons, map_cons, total_cons]
      omega

lemma collect_spec (reads : Array (List Local)) (pairs : List (Local × List Local)) :
    (collect reads pairs).size = reads.size ∧ total ((collect reads pairs).toList.map List.length) ≤
        total (reads.toList.map List.length) + total (pairs.map fun p => p.2.length) ∧
      (∀ i k, k ∈ reads.getD i [] → k ∈ (collect reads pairs).getD i []) ∧
      ∀ l ls, (l, ls) ∈ pairs → l.index < reads.size →
        ∀ k ∈ ls, k ∈ (collect reads pairs).getD l.index [] := by
  induction pairs generalizing reads with
  | nil => exact ⟨rfl, by simp [collect], fun _ _ h => h, by simp⟩
  | cons p pairs ih =>
    obtain ⟨l, ls⟩ := p
    obtain ⟨size, sum, kept, added⟩ := ih (reads.modify l.index (· ++ ls))
    have step : collect reads ((l, ls) :: pairs) = collect (reads.modify l.index (· ++ ls)) pairs := rfl
    rw [Array.size_modify] at size
    have grows (i : Nat) (k : Local) (mem : k ∈ reads.getD i []) :
        k ∈ (reads.modify l.index (· ++ ls)).getD i [] := by
      rw [Array.getD_eq_getD_getElem?, Array.getElem?_modify]
      rw [Array.getD_eq_getD_getElem?] at mem
      split
      · cases found : reads[i]? with
        | none =>
          rw [found] at mem
          cases mem
        | some ks =>
          rw [found] at mem
          exact mem_append_left _ mem
      · exact mem
    refine ⟨step ▸ size, ?_, fun i k mem => step ▸ kept i k (grows i k mem), ?_⟩
    · rw [step, map_cons, total_cons]
      have := total_length_modify reads.toList l.index ls
      rw [Array.toList_modify] at sum
      simp only at this ⊢
      omega
    · intro l' ls' mem inside k among
      rcases mem_cons.1 mem with same | later
      · cases same
        refine kept _ _ ?_
        rw [Array.getD_eq_getD_getElem?, Array.getElem?_modify, if_pos rfl, Array.getElem?_eq_getElem inside]
        exact mem_append_right _ among
      · exact added l' ls' later (by rw [Array.size_modify]; exact inside) k among

/-! ## Spreading -/

/-- How much the locals that are not live yet read. -/
def unspread (reads : Array (List Local)) (live : Array Bool) : Nat :=
  total ((List.range live.size).map fun i => if live.getD i true then 0 else (reads.getD i []).length)

lemma unspread_set {reads live i} (dead : live.getD i true = false) :
    unspread reads (live.setIfInBounds i true) + (reads.getD i []).length ≤ unspread reads live := by
  have inside : i < live.size := by
    by_contra outside
    rw [Array.getD_eq_getD_getElem?, Array.getElem?_eq_none (Nat.le_of_not_lt outside)] at dead
    cases dead
  rw [unspread, Array.size_setIfInBounds]
  refine total_map_add_le (fun j _ => ?_) (mem_range.2 inside) ?_
  · by_cases same : i = j
    · subst same
      simp [Array.getD_eq_getD_getElem?, inside]
    · exact Nat.le_of_eq (by rw [Array.getD_eq_getD_getElem?, Array.getElem?_setIfInBounds_ne same,
        ← Array.getD_eq_getD_getElem?])
  · rw [dead]
    simp [Array.getD_eq_getD_getElem?, inside]

/-- The search for all that is read by what is to be looked at. -/
def spreading (reads : Array (List Local)) : Search Local (Array Bool) where
  next l := reads.getD l.index []
  passes live l := live.getD l.index true
  mark live l := live.setIfInBounds l.index true

lemma spread_eq (reads : Array (List Local)) (fuel : Nat) (work : List Local) (live : Array Bool) :
    spread reads fuel work live = (spreading reads).run fuel work live := by
  induction fuel generalizing work live with
  | zero => rfl
  | succ fuel ih =>
    cases work with
    | nil => rfl
    | cons l work => rw [spread, ih, ih]; rfl

lemma spreading_lawful (reads : Array (List Local)) (n : Nat) :
    (spreading reads).Lawful (·.size = n) (·.index < n)
      (fun live l => live.getD l.index false = true) (unspread reads) where
  passes {live l} size := by
    by_cases inside : l.index < live.size
    · simp [spreading, inside, ← size]
    · simp [spreading, ← size, inside]
  inv size _ _ := Array.size_setIfInBounds.trans size
  mark {live l} size inside k := by
    by_cases same : l.index = k.index
    · obtain rfl : l = k := by cases l; cases k; cases same; rfl
      simp [spreading, Array.getD_eq_getD_getElem?, size, inside]
    · rw [spreading, Array.getD_eq_getD_getElem?, Array.getElem?_setIfInBounds_ne same,
        ← Array.getD_eq_getD_getElem?]
      exact ⟨.inr, fun h => h.resolve_left fun eq => same (eq ▸ rfl)⟩
  left {live l} size inside dead := by
    refine unspread_set ?_
    rw [Array.getD_eq_getD_getElem?, Array.getElem?_eq_getElem (size.symm ▸ inside)] at dead ⊢
    simpa using dead

/-! ## Live locals -/

variable {m : Method}

lemma liveLocals_eq : ∃ fuel, (demanded m).length + total ((pureReads m).map (·.2.length)) ≤ fuel ∧
    liveLocals m = (spreading (collect (Array.replicate m.locals.size []) (pureReads m))).run fuel
      (demanded m) (Array.replicate m.locals.size false) :=
  ⟨_, Nat.le_succ _, spread_eq ..⟩

lemma liveLocals_found : (liveLocals m).size = m.locals.size ∧
    (spreading (collect (Array.replicate m.locals.size []) (pureReads m))).Found
      (·.index < m.locals.size) (fun live l => live.getD l.index false = true) (demanded m)
      (Array.replicate m.locals.size false) (liveLocals m) := by
  obtain ⟨size, sum, -, -⟩ := collect_spec (Array.replicate m.locals.size []) (pureReads m)
  obtain ⟨fuel, enough, same⟩ := liveLocals_eq (m := m)
  rw [same]
  refine (spreading_lawful _ _).found Array.size_replicate ?_ fun l on => ?_
  · have all : unspread (collect (Array.replicate m.locals.size []) (pureReads m))
        (Array.replicate m.locals.size false) ≤
        total ((collect (Array.replicate m.locals.size []) (pureReads m)).toList.map length) := by
      rw [unspread, Array.size_replicate]
      generalize collect (Array.replicate m.locals.size []) (pureReads m) = reads at size
      have each : reads.toList.map length =
          (range m.locals.size).map fun i => (reads.getD i []).length := by
        refine ext_getElem (by simp [size]) fun i one other => ?_
        simp only [getElem_map, getElem_range]
        rw [Array.getD_eq_getD_getElem?, Array.getElem?_eq_getElem (by simpa using one)]
        rfl
      rw [each]
      exact total_map_le fun i _ => by split <;> omega
    have zero : total ((Array.replicate m.locals.size ([] : List Local)).toList.map length) = 0 := by
      simp
    omega
  · rw [Array.getD_eq_getD_getElem?, Array.getElem?_replicate] at on
    split at on <;> cases on

lemma isLive_of_demanded {l} (mem : l ∈ demanded m) (inside : l.index < m.locals.size) : isLive m l = true :=
  liveLocals_found.2.stack l mem inside

lemma isLive_of_reads {l k ls} (mem : (l, ls) ∈ pureReads m)
    (live : isLive m l = true) (read : k ∈ ls) (inside : k.index < m.locals.size) : isLive m k = true := by
  have bound : l.index < m.locals.size := by
    by_contra outside
    rw [isLive, Array.getD_eq_getD_getElem?,
      Array.getElem?_eq_none (by rw [liveLocals_found.1]; exact Nat.le_of_not_lt outside)] at live
    cases live
  obtain ⟨-, -, -, added⟩ := collect_spec (Array.replicate m.locals.size []) (pureReads m)
  refine liveLocals_found.2.closed l live k ?_ inside
  exact added l ls mem (by simpa using bound) k read

/-! ## Sweeping -/

/-- An operand that is live if it is a local. -/
def LiveOperand (m : Method) (v v' : Value) : Prop := v' = v ∧ ∀ l, v = .var l → isLive m l = true

/-- Everything that is read is numbered below the count of locals. -/
structure ReadsBound (m : Method) (block : Block) : Prop where
  stmts : ∀ s ∈ block.stmts, ∀ l, .var l ∈ s.values → l.index < m.locals.size
  terminator : ∀ l, .var l ∈ block.terminator.values → l.index < m.locals.size
  phis : ∀ p ∈ block.phis, ∀ q l, (q, .var l) ∈ p.operands → l.index < m.locals.size

lemma mem_demanded {l} : l ∈ demanded m ↔ ∃ block ∈ m.blockList,
    (∃ s ∈ block.stmts, isPureDef s = false ∧ .var l ∈ s.values) ∨ .var l ∈ block.terminator.values := by
  simp only [demanded, mem_flatMap, mem_localsOf, mem_append, mem_filter, Bool.not_eq_true', and_assoc]

lemma mem_pureReads {l} {ls : List Local} : (l, ls) ∈ pureReads m ↔ ∃ block ∈ m.blockList,
    (∃ p ∈ block.phis, p.dst = l ∧ localsOf (p.operands.map (·.2)) = ls) ∨
      ∃ e, .assign l e ∈ block.stmts ∧ e.isPure = true ∧ localsOf e.values = ls := by
  simp only [pureReads, mem_flatMap, mem_append, mem_map, mem_filterMap, Prod.mk.injEq]
  refine exists_congr fun block => and_congr_right fun _ => or_congr_right ⟨?_, ?_⟩
  · rintro ⟨s, mem, found⟩
    split at found
    · split at found
      · cases found
        exact ⟨_, mem, ‹_›, rfl⟩
      · cases found
    · cases found
  · rintro ⟨e, mem, pure_, rfl⟩
    exact ⟨_, mem, if_pos pure_⟩

/-- What is left of a statement: all of it, or the effect of what it assigned. -/
lemma trimmed_eq_some {live s s'} (made : trimmed live s = some s') : s' = s ∧ isKept live s = true ∨
      ∃ dst e, s = .assign dst e ∧ s' = .effect e ∧ e.isPure = false := by
  cases s with
  | assign dst e =>
    simp only [trimmed] at made
    split at made
    · rename_i on
      cases made
      exact .inl ⟨rfl, on⟩
    · split at made
      · cases made
      · rename_i impure
        cases made
        exact .inr ⟨dst, e, rfl, rfl, by simpa using impure⟩
  | effect e =>
    simp only [trimmed] at made
    split at made
    · cases made
    · rename_i impure
      cases made
      exact .inl ⟨rfl, by simpa [isKept] using impure⟩
  | _ =>
    cases made
    exact .inl ⟨rfl, rfl⟩

lemma live_of_kept {b block} (here : m.block? b = some block)
    (bound : ReadsBound m block) {s s'} (mem : s ∈ block.stmts)
    (made : trimmed (isLive m) s = some s') : ∀ v' ∈ s'.values, ∃ v ∈ s.values, LiveOperand m v v' := by
  have listed : block ∈ m.blockList := Method.mem_blockList.2 ⟨b, here⟩
  have live {l : Local} (operand : .var l ∈ s.values) (effect : isPureDef s = false) :
      isLive m l = true :=
    isLive_of_demanded (mem_demanded.2 ⟨block, listed, .inl ⟨s, mem, effect, operand⟩⟩)
      (bound.stmts s mem l operand)
  intro v' operand
  rcases trimmed_eq_some made with ⟨rfl, kept⟩ | ⟨dst, e, rfl, rfl, impure⟩
  · refine ⟨v', operand, rfl, fun l is => ?_⟩
    subst is
    cases effect : isPureDef s' with
    | false => exact live operand effect
    | true =>
      cases s' with
      | assign dst e =>
        exact isLive_of_reads (mem_pureReads.2 ⟨block, listed, .inr ⟨e, mem, effect, rfl⟩⟩) kept
          (mem_localsOf.2 operand) (bound.stmts _ mem l operand)
      | _ => cases effect
  · exact ⟨v', operand, rfl, fun l is => live (is ▸ operand) impure⟩

lemma trimmed_canThrow {live s} : (trimmed live s = none → s.canThrow = false) ∧
      ∀ s', trimmed live s = some s' → s'.canThrow = s.canThrow := by
  refine ⟨fun gone => ?_, fun s' made => ?_⟩
  · unfold trimmed at gone
    split at gone
    · split at gone
      · cases gone
      · split at gone
        · simp [Stmt.canThrow, Expr.canThrow_eq, *]
        · cases gone
    · split at gone
      · simp [Stmt.canThrow, Expr.canThrow_eq, *]
      · cases gone
    · cases gone
  · rcases trimmed_eq_some made with ⟨rfl, -⟩ | ⟨dst, e, rfl, rfl, -⟩ <;> rfl

lemma trimmed_def? (live : Local → Bool) (s : Stmt) :
    (trimmed live s).bind Stmt.def? = s.def?.filter live := by
  cases s with
  | assign dst e =>
    by_cases on : live dst = true
    · simp [trimmed, Stmt.def?, on, Option.filter]
    · cases pure_ : e.isPure <;> simp [trimmed, Stmt.def?, on, pure_, Option.filter]
  | effect e => cases pure_ : e.isPure <;> simp [trimmed, Stmt.def?, pure_]
  | _ => rfl

lemma sweep_rewrites (bound : ∀ b block, m.block? b = some block → ReadsBound m block) :
    m.Rewrites (sweep m) (trimmed (isLive m)) (isLive m) (LiveOperand m) := by
  refine .of_mapBlocks fun b block here => {
    stmts := rfl
    calm := fun s _ => trimmed_canThrow.1
    canThrow := fun s _ => trimmed_canThrow.2
    def? := fun s _ => trimmed_def? _ s
    values := fun s mem s' made => live_of_kept here (bound b block here) mem made
    successors := rfl
    isThrow := rfl
    terminator := fun v operand => ⟨v, operand, rfl, fun l is => ?_⟩
    phis := ?_
    operands := fun p mem => ?_ }
  · subst is
    exact isLive_of_demanded (mem_demanded.2 ⟨block, Method.mem_blockList.2 ⟨b, here⟩, .inr operand⟩)
      ((bound b block here).terminator l operand)
  · rw [filter_map]
    rfl
  · obtain ⟨among, live⟩ := mem_filter.1 mem
    refine ⟨p, among, rfl, fun q v operand => ⟨v, operand, rfl, fun l is => ?_⟩⟩
    subst is
    have read : (p.dst, localsOf (p.operands.map (·.2))) ∈ pureReads m :=
      mem_pureReads.2 ⟨block, Method.mem_blockList.2 ⟨b, here⟩, .inl ⟨p, among, rfl, rfl⟩⟩
    exact isLive_of_reads read live (mem_localsOf.2 (mem_map.2 ⟨_, operand, rfl⟩))
      ((bound b block here).phis p among q l operand)

lemma readsBound (sound : m.Sound) (all : m.AllReached)
    (b : BlockId) (block : Block) (here : m.block? b = some block) : ReadsBound m block := by
  obtain ⟨passed, entered⟩ := all b (by simp [here])
  refine ⟨fun s mem l operand => ?_, fun l operand => ?_, fun p mem q l operand => ?_⟩
  · obtain ⟨before, rest, split⟩ := append_of_mem mem
    exact sound.read_bound entered here (.stmt split operand)
  · exact sound.read_bound entered here (.terminator operand)
  · have edge := sound.phis_edge b block p q here mem (mem_map.2 ⟨_, operand, rfl⟩)
    obtain ⟨source, from_, -⟩ := id edge
    obtain ⟨before, leaves⟩ := (Method.edge_iff_leaves from_).1 edge
    obtain ⟨passed, entered⟩ := all q (by simp [from_])
    exact sound.read_bound entered from_ (.phi leaves here mem operand)

lemma sweep_sound (sound : m.Sound) (all : m.AllReached) :
    (sweep m).Sound ∧ ∀ b, ((sweep m).block? b).isSome = true → (sweep m).Reached b := by
  have rewrites := sweep_rewrites (readsBound sound all)
  refine ⟨rewrites.sound sound fun b passed block before v l entered here reads same => ?_,
    fun b exists_ => rewrites.reached (all b ((rewrites.exists_ b).symm.trans exists_))⟩
  obtain ⟨rfl, live⟩ := same
  exact ⟨sound.uses b passed block before l entered here reads, live l rfl⟩

lemma removeDead_sound (sound : m.Sound) : (removeDead m).1.Sound ∧
    (removeDead m).1.AllReached := by
  obtain ⟨loose, all⟩ := sound.toLoose.removeUnreachable
  rw [removeDead_fst]
  refine sweep_sound loose.prune fun b exists_ => ?_
  rw [Method.block?_pruneEdges_isSome] at exists_
  exact Method.Reached.prune loose.edges (all b exists_)

end Restack.Pass
