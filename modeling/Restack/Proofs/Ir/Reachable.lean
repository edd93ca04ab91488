/-
# The blocks that paths reach

The search from the entry has fuel for every edge, so `reachable` lists each
block that a path comes to, once (`mem_reachable`). Dropping the others leaves no
edge without its target and no path that was not there before
(`Loose.removeUnreachable`).
-/
import Restack.Proofs.Ir.Valid
import Restack.Proofs.Lists
import Restack.Proofs.Search

namespace Restack.Ir.Method

open List Restack.Lists

variable {m : Method}

/-- How many edges leave the blocks not seen yet. -/
def unseen (m : Method) (seen : List BlockId) : Nat :=
  total (m.numbered.map fun e => if e.1 ∈ seen then 0 else (m.allSuccessors e.1).length)

variable {b : BlockId} {block : Block} {seen : List BlockId}

lemma unseen_cons (here : m.block? b = some block) (fresh : b ∉ seen) :
    m.unseen (b :: seen) + (m.allSuccessors b).length ≤ m.unseen seen := by
  refine total_map_add_le (fun e _ => ?_) (mem_numbered.2 here) (by simp [fresh])
  by_cases known : e.1 ∈ seen
  · simp [known]
  · by_cases same : e.1 = b <;> simp [known, same]

/-- The search for the blocks that paths reach. -/
def searching (m : Method) : Search BlockId (List BlockId) where
  next := m.allSuccessors
  passes seen b := (m.block? b).isNone || seen.contains b
  mark seen b := b :: seen

lemma reachFrom_eq (fuel : Nat) (stack seen : List BlockId) :
    m.reachFrom fuel stack seen = m.searching.run fuel stack seen := by
  induction fuel generalizing stack seen with
  | zero => rfl
  | succ fuel ih =>
    cases stack with
    | nil => rfl
    | cons b stack => rw [reachFrom, ih, ih]; rfl

lemma searching_lawful : m.searching.Lawful
    (fun seen => seen.Nodup ∧ ∀ b ∈ seen, (m.block? b).isSome = true)
    (fun b => (m.block? b).isSome = true) (fun seen b => b ∈ seen) m.unseen where
  passes _ := by simp [searching, Option.isSome_iff_ne_none, or_iff_not_imp_left]
  inv inv exists_ fresh := ⟨nodup_cons.2 ⟨fresh, inv.1⟩, forall_mem_cons.2 ⟨exists_, inv.2⟩⟩
  mark _ _ _ := mem_cons
  left _ exists_ fresh := by
    obtain ⟨block, here⟩ := Option.isSome_iff_exists.1 exists_
    exact unseen_cons here fresh

/-- All that is reached: blocks, each once, the entry and everything behind. -/
structure Searched (m : Method) (found : List BlockId) : Prop where
  nodup : found.Nodup
  exists_ : ∀ b ∈ found, (m.block? b).isSome = true
  entry : (m.block? m.entry).isSome = true → m.entry ∈ found
  closed : ∀ p ∈ found, ∀ t, m.Edge p t → (m.block? t).isSome = true → t ∈ found

lemma reachable_searched : Searched m m.reachable := by
  have enough : [m.entry].length + m.unseen [] ≤
      1 + total (m.numbered.map fun e => (m.allSuccessors e.1).length + 1) :=
    Nat.add_le_add_left (total_map_le fun e _ => by simp) 1
  obtain ⟨⟨nodup, exists_⟩, found⟩ :=
    searching_lawful.found (s := []) ⟨nodup_nil, by simp⟩ enough (by simp)
  rw [reachable, reachFrom_eq]
  exact ⟨nodup, exists_, found.stack _ mem_cons_self,
    fun p mem t leads => found.closed p mem t (mem_allSuccessors.2 leads)⟩

lemma mem_reachable (entry : (m.block? m.entry).isSome = true)
    (edges : m.EdgesLand) : b ∈ m.reachable ↔ m.Reached b := by
  constructor
  · rw [reachable, reachFrom_eq]
    refine searching_lawful.least (P := m.Reached) ⟨nodup_nil, by simp⟩ (fun p reached t next found =>
      reached.next (mem_allSuccessors.1 next) found) (fun c mem _ => ?_) (by simp) b
    rw [mem_singleton.1 mem]
    exact ⟨[], .start⟩
  · rintro ⟨passed, entered⟩
    induction entered with
    | start => exact reachable_searched.entry entry
    | next _ here leaves _ ih =>
      exact reachable_searched.closed _ ih _ (leaves.edge here) (edges _ _ (leaves.edge here))

section Restrict

variable {kept : List BlockId}

lemma block?_restrict_some :
    (m.restrict kept).block? b = some block ↔ b ∈ kept ∧ m.block? b = some block := by
  rw [block?_restrict]
  by_cases mem : b ∈ kept <;> simp [mem]

lemma edge_restrict {p t} : (m.restrict kept).Edge p t ↔ p ∈ kept ∧ m.Edge p t := by
  constructor
  · rintro ⟨block, here, leads⟩
    rw [block?_restrict_some] at here
    exact ⟨here.1, block, here.2, leads⟩
  · rintro ⟨mem, block, here, leads⟩
    exact ⟨block, block?_restrict_some.2 ⟨mem, here⟩, leads⟩

lemma leaves_restrict {t before} (mem : b ∈ kept)
    (leaves : (m.restrict kept).Leaves b block before t) : m.Leaves b block before t := by
  refine leaves.congr rfl rfl fun t caught => ?_
  have same : (m.restrict kept).exceptionalSuccessors b = m.exceptionalSuccessors b := by
    rw [exceptionalSuccessors, block?_restrict, if_pos mem]
    rfl
  exact same ▸ caught

lemma edges_restrict (edges : m.EdgesLand) (closed : ∀ p ∈ kept, ∀ t, m.Edge p t → t ∈ kept) (p t : BlockId)
    (leads : (m.restrict kept).Edge p t) : ((m.restrict kept).block? t).isSome = true := by
  obtain ⟨mem, leads⟩ := edge_restrict.1 leads
  rw [block?_restrict, if_pos (closed p mem t leads)]
  exact edges p t leads

lemma Merging.restrict (merging : m.Merging) : (m.restrict kept).Merging :=
  merging.sub (fun _ _ leads => (edge_restrict.1 leads).2) fun _ block p here mem =>
    ⟨block, p, (block?_restrict_some.1 here).2, mem, rfl⟩

/-- Keeping blocks that no edge leads out of. -/
lemma Loose.restrict (loose : m.Loose) (entry : m.entry ∈ kept)
    (closed : ∀ p ∈ kept, ∀ t, m.Edge p t → t ∈ kept) : (m.restrict kept).Loose := by
  have enters {b : BlockId} {passed : List Local} (entered : (m.restrict kept).Enters b passed) :
      m.Enters b passed := by
    have same : (m.restrict kept).entry = m.entry := rfl
    refine entered.of_leaves same fun c block here => ?_
    rw [block?_restrict_some] at here
    exact ⟨block, here.2, rfl, fun before t leaves => leaves_restrict here.1 leaves⟩
  refine {
    layout_nodup := loose.layout_nodup.filter _
    mem_layout := fun b => ?_
    entry := ?_
    edges := edges_restrict loose.edges closed
    toDefining := loose.toDefining.of_sublist rfl fun b block here =>
      ⟨block, (block?_restrict_some.1 here).2, .refl _⟩
    toMerging := loose.toMerging.restrict
    uses := fun b passed block before l entered here reads => ?_ }
  · rw [Method.restrict, mem_filter, loose.mem_layout]
    change _ ↔ ((m.restrict kept).block? b).isSome = true
    rw [block?_restrict]
    by_cases mem : b ∈ kept <;> simp [mem]
  · change ((m.restrict kept).block? m.entry).isSome = true
    rw [block?_restrict, if_pos entry]
    exact loose.entry
  · rw [block?_restrict_some] at here
    refine loose.uses b passed block before l (enters entered) here.2 ?_
    cases reads with
    | stmt split operand => exact .stmt split operand
    | terminator operand => exact .terminator operand
    | phi leaves there merged operand =>
      exact .phi (leaves_restrict here.1 leaves) (block?_restrict_some.1 there).2 merged operand

end Restrict

lemma mem_reachable_of_length (full : m.reachable.length = m.blockList.length)
    (exists_ : (m.block? b).isSome = true) : b ∈ m.reachable := by
  have subset : m.reachable ⊆ m.numbered.map (·.1) := by
    intro c mem
    obtain ⟨block, here⟩ := Option.isSome_iff_exists.1 (reachable_searched.exists_ c mem)
    exact mem_map.2 ⟨(c, block), mem_numbered.2 here, rfl⟩
  have perm : m.reachable.Perm (m.numbered.map (·.1)) := by
    refine (subperm_of_subset reachable_searched.nodup subset).perm_of_length_le ?_
    exact Nat.le_of_eq (by rw [full, blockList_eq, length_map, length_map])
  obtain ⟨block, here⟩ := Option.isSome_iff_exists.1 exists_
  exact perm.mem_iff.2 (mem_map.2 ⟨(b, block), mem_numbered.2 here, rfl⟩)

lemma reachable_closed (edges : m.EdgesLand) : ∀ p ∈ m.reachable, ∀ t, m.Edge p t → t ∈ m.reachable :=
  fun p mem t leads => reachable_searched.closed p mem t leads (edges p t leads)

lemma reached_removeUnreachable (entry : (m.block? m.entry).isSome = true) (edges : m.EdgesLand) (b : BlockId)
    (exists_ : (m.removeUnreachable.1.block? b).isSome = true) : m.removeUnreachable.1.Reached b := by
  have mem {b : BlockId} : b ∈ m.reachable ↔ m.Reached b := mem_reachable entry edges
  rw [removeUnreachable_eq] at exists_ ⊢
  split at exists_
  · rename_i full
    rw [if_pos full]
    exact mem.1 (mem_reachable_of_length (by simpa using full) exists_)
  · rename_i fewer
    rw [if_neg fewer]
    rw [block?_pruneEdges_isSome, block?_restrict] at exists_
    split at exists_
    · rename_i member
      refine Reached.prune (edges_restrict edges (reachable_closed edges)) ?_
      obtain ⟨passed, entered⟩ := mem.1 member
      clear member exists_
      induction entered with
      | start => exact ⟨[], .start⟩
      | next entered here leaves there ih =>
        have leads := leaves.edge here
        refine ih.next (edge_restrict.2 ⟨mem.2 ⟨_, entered⟩, leads⟩) ?_
        rw [block?_restrict, if_pos (mem.2 ⟨_, .next entered here leaves there⟩), there]
        rfl
    · cases exists_

lemma Loose.removeUnreachable (loose : m.Loose) : m.removeUnreachable.1.Loose ∧
    m.removeUnreachable.1.AllReached := by
  refine ⟨?_, reached_removeUnreachable loose.entry loose.edges⟩
  rw [removeUnreachable_eq]
  split
  · exact loose
  · have entry : m.entry ∈ m.reachable := reachable_searched.entry loose.entry
    exact (loose.restrict entry (reachable_closed loose.edges)).prune.toLoose

end Restack.Ir.Method
