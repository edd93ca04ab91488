/-
# Paths through a method

A path leaves a block through its terminator or at a place where it throws
(`Leaves`), and passes the definitions in front of that place only. `Enters`
collects the definitions that a path from the entry passed. `Reads` is an operand
read behind some statements of a block; a phi reads its operand on the edge.
-/
import Restack.Proofs.Ir.Graph

namespace Restack.Ir.Method

open List

/-- Control may pass from a block to another. -/
def Edge (m : Method) (p t : BlockId) : Prop :=
  ∃ block, m.block? p = some block ∧ (t ∈ block.terminator.successors ∨
    block.canThrow = true ∧ ∃ trap ∈ m.traps, p ∈ trap.covered ∧ ∃ h ∈ trap.handlers, h.target = t)

/-- No edge leads to a block that is missing. -/
def EdgesLand (m : Method) : Prop := ∀ p t, m.Edge p t → (m.block? t).isSome = true

/-- Handlers for what a block throws, in order of priority. -/
def handlersOf (m : Method) (b : BlockId) : List Handler :=
  (m.traps.filter (·.covered.contains b)).flatMap (·.handlers)

variable {m m' : Method} {b p t : BlockId} {block : Block}

lemma mem_exceptionalSuccessors (here : m.block? b = some block) :
    t ∈ m.exceptionalSuccessors b ↔ block.canThrow = true ∧
      ∃ trap ∈ m.traps, b ∈ trap.covered ∧ ∃ h ∈ trap.handlers, h.target = t := by
  simp only [exceptionalSuccessors, here]
  split
  · rename_i throws
    simp only [throws, true_and, mem_eraseDups, mem_flatMap, mem_filter, contains_iff_mem, mem_map, and_assoc]
  · rename_i calm
    simp [calm]

lemma target_ne_of_plain (plain : m.isHandler b = false) {trap} (mem : trap ∈ m.traps)
    {h} (handler : h ∈ trap.handlers) : h.target ≠ b := fun same =>
  Bool.false_ne_true (plain.symm.trans (isHandler_iff.2 ⟨trap, mem, h, handler, same⟩))

lemma covered_of_caught (caught : t ∈ m.exceptionalSuccessors b) : m.isCovered b = true := by
  cases here : m.block? b with
  | none => simp [exceptionalSuccessors, here] at caught
  | some block =>
    obtain ⟨-, trap, mem, covers, -⟩ := (mem_exceptionalSuccessors here).1 caught
    exact isCovered_iff.2 ⟨trap, mem, covers⟩

lemma uncaught (uncovered : m.isCovered b = false) : t ∉ m.exceptionalSuccessors b := fun caught =>
  Bool.false_ne_true (uncovered.symm.trans (covered_of_caught caught))

lemma mem_allSuccessors : t ∈ m.allSuccessors p ↔ m.Edge p t := by
  rw [allSuccessors, successors, Edge]
  cases here : m.block? p with
  | none => simp [exceptionalSuccessors, here]
  | some block => simp [mem_exceptionalSuccessors here]

lemma mem_predecessors : p ∈ m.predecessors b ↔ p ∈ m.layout ∧ m.Edge p b := by
  rw [← mem_allSuccessors]
  simp only [predecessors, sourcesIn, edges, mem_filterMap, mem_map]
  constructor
  · rintro ⟨_, ⟨q, mem, rfl⟩, found⟩
    split at found
    · rename_i leads
      cases found
      exact ⟨mem, by simpa using leads⟩
    · cases found
  · rintro ⟨mem, leads⟩
    exact ⟨_, ⟨p, mem, rfl⟩, by simp [leads]⟩

lemma predecessors_nodup (nodup : m.layout.Nodup) : (m.predecessors b).Nodup := by
  have sublist : (m.predecessors b).Sublist m.layout := by
    have eq : m.predecessors b =
        m.layout.filterMap fun p => if (m.allSuccessors p).contains b then some p else none := by
      simp only [predecessors, sourcesIn, edges, filterMap_map]
      rfl
    rw [eq]
    generalize m.layout = layout
    induction layout with
    | nil => exact .slnil
    | cons p layout ih =>
      rw [filterMap_cons]
      by_cases leads : (m.allSuccessors p).contains b = true
      · simp only [leads]
        exact ih.cons_cons p
      · simp only [leads]
        exact ih.cons p
  exact nodup.sublist sublist

/-- Control may leave a block for another behind some of its statements: at its
end, or in front of a statement that throws. -/
inductive Leaves (m : Method) (b : BlockId) (block : Block) : List Stmt → BlockId → Prop
  | jump {t : BlockId} (leads : t ∈ block.terminator.successors) : Leaves m b block block.stmts t
  | raise {before rest s t} (split : block.stmts = before ++ s :: rest)
      (throws : s.canThrow = true) (leads : t ∈ m.exceptionalSuccessors b) : Leaves m b block before t
  | throw {t : BlockId} (throws : block.terminator.isThrow = true)
      (leads : t ∈ m.exceptionalSuccessors b) : Leaves m b block block.stmts t

/-- Control may come to a block on a path from the entry that passed the
definitions of some locals, those of the block's own phis included. -/
inductive Enters (m : Method) : BlockId → List Local → Prop
  | start : Enters m m.entry []
  | next {b t : BlockId} {passed : List Local} {block target} {before : List Stmt}
      (entered : Enters m b passed) (here : m.block? b = some block)
      (leaves : m.Leaves b block before t) (there : m.block? t = some target) :
      Enters m t (target.phis.map (·.dst) ++ (defined before ++ passed))

/-- An operand is read behind some statements of a block. A phi reads the
operand for the block that control comes from, when control leaves that block. -/
inductive Reads (m : Method) (b : BlockId) (block : Block) : List Stmt → Value → Prop
  | stmt {before rest s v} (split : block.stmts = before ++ s :: rest)
      (operand : v ∈ s.values) : Reads m b block before v
  | terminator {v} (operand : v ∈ block.terminator.values) : Reads m b block block.stmts v
  | phi {before t target p v}
      (leaves : m.Leaves b block before t) (there : m.block? t = some target)
      (merged : p ∈ target.phis) (operand : (b, v) ∈ p.operands) : Reads m b block before v

lemma edge_iff_leaves (here : m.block? b = some block) :
    m.Edge b t ↔ ∃ before, m.Leaves b block before t := by
  constructor
  · rintro ⟨block', found, leads⟩
    rw [here] at found
    cases found
    rcases leads with jumps | ⟨throws, leads⟩
    · exact ⟨_, .jump jumps⟩
    · have caught := (mem_exceptionalSuccessors here).2 ⟨throws, leads⟩
      rw [Block.canThrow, Bool.or_eq_true] at throws
      rcases throws with stmt | ends
      · obtain ⟨s, mem, throws⟩ := any_eq_true.1 stmt
        obtain ⟨before, rest, split⟩ := append_of_mem mem
        exact ⟨before, .raise split throws caught⟩
      · exact ⟨_, .throw ends caught⟩
  · rintro ⟨before, leaves⟩
    refine ⟨block, here, ?_⟩
    cases leaves with
    | jump leads => exact .inl leads
    | raise _ _ leads | throw _ leads => exact .inr ((mem_exceptionalSuccessors here).1 leads)

lemma Leaves.edge {before} (here : m.block? b = some block)
    (leaves : m.Leaves b block before t) : m.Edge b t :=
  (edge_iff_leaves here).2 ⟨before, leaves⟩

lemma Leaves.split {before} (leaves : m.Leaves b block before t) : ∃ rest, block.stmts = before ++ rest := by
  cases leaves with
  | jump | throw => exact ⟨[], (append_nil _).symm⟩
  | raise split => exact ⟨_, split⟩

lemma Leaves.defined_sub {before} (leaves : m.Leaves b block before t) {l}
    (mem : l ∈ defined before) : l ∈ defined block.stmts := by
  obtain ⟨rest, split⟩ := leaves.split
  rw [split, defined_append]
  exact mem_append_left _ mem

lemma Reads.split {before v} (reads : m.Reads b block before v) : ∃ rest, block.stmts = before ++ rest := by
  cases reads with
  | stmt split => exact ⟨_, split⟩
  | terminator => exact ⟨[], (append_nil _).symm⟩
  | phi leaves => exact leaves.split

lemma Enters.passes {passed q} (entered : m.Enters b passed)
    (inner : b ≠ m.entry) (here : m.block? q = some block)
    (only : ∀ p block' before, m.block? p = some block' → m.Leaves p block' before b →
      p = q ∧ before = block'.stmts) : ∀ l ∈ defined block.stmts, l ∈ passed := by
  cases entered with
  | start => exact absurd rfl inner
  | next _ from_ leaves _ =>
    obtain ⟨rfl, rfl⟩ := only _ _ _ from_ leaves
    rw [here] at from_
    cases from_
    exact fun l mem => mem_append_right _ (mem_append_left _ mem)

/-- A block that some path from the entry comes to. -/
def Reached (m : Method) (b : BlockId) : Prop := ∃ passed, m.Enters b passed

def AllReached (m : Method) : Prop := ∀ b, (m.block? b).isSome = true → m.Reached b

lemma Reached.next (reached : m.Reached b) (edge : m.Edge b t) (exists_ : (m.block? t).isSome) :
    m.Reached t := by
  obtain ⟨passed, entered⟩ := reached
  obtain ⟨block, here, leads⟩ := edge
  obtain ⟨before, leaves⟩ := (edge_iff_leaves here).1 ⟨block, here, leads⟩
  obtain ⟨target, there⟩ := Option.isSome_iff_exists.1 exists_
  exact ⟨_, .next entered here leaves there⟩

lemma Reached.mono (reached : m.Reached b) (entry : m'.entry = m.entry)
    (exists_ : ∀ c, (m.block? c).isSome → (m'.block? c).isSome)
    (edges : ∀ p t, m.Reached p → m.Edge p t → m'.Edge p t) : m'.Reached b := by
  obtain ⟨passed, entered⟩ := reached
  induction entered with
  | start => exact ⟨[], entry ▸ .start⟩
  | next entered here leaves there ih =>
    exact ih.next (edges _ _ ⟨_, entered⟩ (leaves.edge here)) (exists_ _ (by simp [there]))

lemma Reached.unpassed {l} (reached : m.Reached b)
    (only : ∀ c block, m.block? c = some block → l ∈ defined block.stmts → c = b)
    (unmerged : ∀ c block, m.block? c = some block → l ∉ block.phis.map (·.dst)) :
    ∃ passed, m.Enters b passed ∧ l ∉ passed := by
  have visit : ∀ c passed, m.Enters c passed →
      (∃ passed, m.Enters b passed ∧ l ∉ passed) ∨ c ≠ b ∧ l ∉ passed := by
    intro c passed entered
    induction entered with
    | start =>
      by_cases same : m.entry = b
      · exact .inl ⟨[], same ▸ .start, by simp⟩
      · exact .inr ⟨same, by simp⟩
    | @next c t passed block target before entered here leaves there ih =>
      rcases ih with done | ⟨other, clean⟩
      · exact .inl done
      · have clean' : l ∉ target.phis.map (·.dst) ++ (defined before ++ passed) := by
          intro mem
          rcases mem_append.1 mem with phi | old
          · exact unmerged t target there phi
          · rcases mem_append.1 old with stmt | earlier
            · exact other (only c block here (leaves.defined_sub stmt))
            · exact clean earlier
        by_cases same : t = b
        · exact .inl ⟨_, same ▸ .next entered here leaves there, clean'⟩
        · exact .inr ⟨same, clean'⟩
  obtain ⟨passed, entered⟩ := reached
  rcases visit b passed entered with done | ⟨other, -⟩
  · exact done
  · exact absurd rfl other

end Restack.Ir.Method
