/-
# Static single assignment

`Valid` says what a method in this form is. The passes keep a little more, and some of
them less for a while: `Sound` adds that locals are numbered below their count, and
`Loose` is what pruning turns into `Sound` (`Loose.prune`): phis may have operands left
over, and traps may name handlers that are gone.
-/
import Mathlib.Data.List.Pairwise
import Restack.Proofs.Ir.Paths

namespace Restack.Ir

open List

/-- Everything that a block defines. -/
def Block.defs (block : Block) : List Local := block.phis.map (·.dst) ++ defined block.stmts

namespace Method

/-- The layout lists the blocks, each once, and jumps lead to blocks. -/
structure Linked (m : Method) : Prop where
  layout_nodup : m.layout.Nodup
  mem_layout : ∀ b, b ∈ m.layout ↔ (m.block? b).isSome = true
  targets : ∀ b block t, m.block? b = some block → t ∈ block.terminator.successors →
    (m.block? t).isSome = true

/-- A method in static single assignment form. -/
structure Valid (m : Method) : Prop where
  layout_nodup : m.layout.Nodup
  mem_layout : ∀ b, b ∈ m.layout ↔ (m.block? b).isSome = true
  entry : (m.block? m.entry).isSome = true
  targets : ∀ b block t, m.block? b = some block → t ∈ block.terminator.successors →
    (m.block? t).isSome = true
  handlers : ∀ trap ∈ m.traps, ∀ h ∈ trap.handlers, (m.block? h.target).isSome = true
  defs_nodup : m.defs.Nodup
  phis : ∀ b block p, m.block? b = some block → p ∈ block.phis →
    (p.operands.map (·.1)).Perm (m.predecessors b)
  uses : ∀ b passed block before l, m.Enters b passed → m.block? b = some block →
    m.Reads b block before (.var l) → l ∈ defined before ++ passed

/-- Locals are defined once and numbered below their count. -/
structure Defining (m : Method) : Prop where
  block_defs : ∀ b block, m.block? b = some block → block.defs.Nodup
  defs_apart : ∀ b c block block' l, m.block? b = some block → m.block? c = some block' →
    l ∈ block.defs → l ∈ block'.defs → b = c
  bound : ∀ b block l, m.block? b = some block → l ∈ block.defs → l.index < m.locals.size

/-- A phi has one operand for each predecessor, and maybe some left over. -/
structure Merging (m : Method) : Prop where
  phis_nodup : ∀ b block p, m.block? b = some block → p ∈ block.phis →
    (p.operands.map (·.1)).Nodup
  phis_cover : ∀ b block p q, m.block? b = some block → p ∈ block.phis → m.Edge q b →
    q ∈ p.operands.map (·.1)

/-- What is left of the form while edges are being removed. -/
structure Loose (m : Method) : Prop extends Defining m, Merging m where
  layout_nodup : m.layout.Nodup
  mem_layout : ∀ b, b ∈ m.layout ↔ (m.block? b).isSome = true
  entry : (m.block? m.entry).isSome = true
  edges : m.EdgesLand
  uses : ∀ b passed block before l, m.Enters b passed → m.block? b = some block →
    m.Reads b block before (.var l) → l ∈ defined before ++ passed

/-- What every pass keeps. -/
structure Sound (m : Method) : Prop extends Loose m where
  handlers : ∀ trap ∈ m.traps, ∀ h ∈ trap.handlers, (m.block? h.target).isSome = true
  phis_edge : ∀ b block p q, m.block? b = some block → p ∈ block.phis →
    q ∈ p.operands.map (·.1) → m.Edge q b

variable {m m' : Method}

lemma Loose.linked (loose : m.Loose) : m.Linked where
  layout_nodup := loose.layout_nodup
  mem_layout := loose.mem_layout
  targets b block t here leads := loose.edges b t ⟨block, here, .inl leads⟩

/-! ## Definitions -/

lemma numbered_distinct : m.numbered.Pairwise fun x y => x.1 ≠ y.1 := by
  have distinct : (m.blocks.toList.zipIdx.map (·.2)).Nodup := by
    rw [zipIdx_map_snd]
    exact nodup_range' _
  rw [Nodup, pairwise_map] at distinct
  refine Pairwise.filterMap _ (fun ⟨_, i⟩ ⟨_, j⟩ ne x found y found' same => ?_) distinct
  obtain ⟨_, -, rfl⟩ := Option.map_eq_some_iff.1 found
  obtain ⟨_, -, rfl⟩ := Option.map_eq_some_iff.1 found'
  exact ne (by simpa using same)

lemma blockList_eq : m.blockList = m.numbered.map (·.2) := by
  rw [blockList, numbered, map_filterMap]
  conv_lhs => rw [← zipIdx_map_fst 0 m.blocks.toList, filterMap_map]
  refine filterMap_congr fun e _ => ?_
  obtain ⟨cell, i⟩ := e
  cases cell <;> rfl

lemma defs_eq : m.defs = m.numbered.flatMap fun e => e.2.defs := by
  rw [defs, blockList_eq, flatMap_map]
  rfl

lemma Loose.defs_nodup (loose : m.Loose) : m.defs.Nodup := by
  rw [defs_eq, nodup_flatMap]
  refine ⟨fun e mem => loose.block_defs e.1 e.2 (mem_numbered.1 mem), ?_⟩
  refine numbered_distinct.imp_of_mem fun {x y} first second ne l one other => ne ?_
  exact loose.defs_apart x.1 y.1 x.2 y.2 l (mem_numbered.1 first) (mem_numbered.1 second) one other

/-- Blocks that define nothing new, where they stood. -/
lemma Defining.of_sublist (defining : m.Defining) (size : m'.locals.size = m.locals.size)
    (blocks : ∀ b block', m'.block? b = some block' →
      ∃ block, m.block? b = some block ∧ block'.defs.Sublist block.defs) : m'.Defining where
  block_defs b block' here' := by
    obtain ⟨block, here, sub⟩ := blocks b block' here'
    exact (defining.block_defs b block here).sublist sub
  defs_apart b c block₁ block₂ l one other mem mem' := by
    obtain ⟨block, here, sub⟩ := blocks b block₁ one
    obtain ⟨block', here', sub'⟩ := blocks c block₂ other
    exact defining.defs_apart b c block block' l here here' (sub.subset mem) (sub'.subset mem')
  bound b block' l here' mem := by
    obtain ⟨block, here, sub⟩ := blocks b block' here'
    exact size ▸ defining.bound b block l here (sub.subset mem)

/-- Fewer edges, and the operands that phis had. -/
lemma Merging.sub (merging : m.Merging) (edges : ∀ p t, m'.Edge p t → m.Edge p t)
    (phis : ∀ b block' p', m'.block? b = some block' → p' ∈ block'.phis → ∃ block p,
      m.block? b = some block ∧ p ∈ block.phis ∧ p'.operands.map (·.1) = p.operands.map (·.1)) :
    m'.Merging where
  phis_nodup b block' p' here' mem := by
    obtain ⟨block, p, here, among, keys⟩ := phis b block' p' here' mem
    exact keys ▸ merging.phis_nodup b block p here among
  phis_cover b block' p' q here' mem leads := by
    obtain ⟨block, p, here, among, keys⟩ := phis b block' p' here' mem
    exact keys ▸ merging.phis_cover b block p q here among (edges q b leads)

lemma Merging.of_perm (nodup : m.layout.Nodup) (listed : ∀ b, (m.block? b).isSome = true → b ∈ m.layout)
    (phis : ∀ b block p, m.block? b = some block → p ∈ block.phis →
      (p.operands.map (·.1)).Perm (m.predecessors b)) : m.Merging where
  phis_nodup b block p here mem := (phis b block p here mem).nodup_iff.2 (predecessors_nodup nodup)
  phis_cover b block p q here mem edge := by
    refine (phis b block p here mem).mem_iff.2 (mem_predecessors.2 ⟨listed q ?_, edge⟩)
    obtain ⟨_, found, -⟩ := edge
    rw [found]
    rfl

variable {b c : BlockId} {block block' : Block} {passed : List Local}

lemma Loose.phi_apart (loose : m.Loose) {l} (here : m.block? b = some block)
    (there : m.block? c = some block') (phi : l ∈ block.phis.map (·.dst))
    (stmt : l ∈ defined block'.stmts) : False := by
  obtain rfl := loose.defs_apart b c block block' l here there (mem_append_left _ phi)
    (mem_append_right _ stmt)
  rw [here] at there
  cases there
  exact (nodup_append.1 (loose.block_defs b block here)).2.2 l phi l stmt rfl

lemma Sound.valid (sound : m.Sound) : m.Valid where
  layout_nodup := sound.layout_nodup
  mem_layout := sound.mem_layout
  entry := sound.entry
  targets := sound.linked.targets
  handlers := sound.handlers
  defs_nodup := sound.defs_nodup
  phis b block p here mem := by
    rw [perm_ext_iff_of_nodup (sound.phis_nodup b block p here mem) (predecessors_nodup sound.layout_nodup)]
    intro q
    rw [mem_predecessors, sound.mem_layout]
    constructor
    · intro operand
      have edge := sound.phis_edge b block p q here mem operand
      refine ⟨?_, edge⟩
      obtain ⟨_, found, -⟩ := edge
      simp [found]
    · rintro ⟨-, edge⟩
      exact sound.phis_cover b block p q here mem edge
  uses := sound.uses

lemma Valid.defs_apart (valid : m.Valid) {l} (here : m.block? b = some block)
    (there : m.block? c = some block') (one : l ∈ block.defs) (other : l ∈ block'.defs) : b = c := by
  have distinct := valid.defs_nodup
  rw [defs_eq, nodup_flatMap] at distinct
  by_contra ne
  have symmetric : Std.Symm (Function.onFun Disjoint fun e : BlockId × Block => e.2.defs) :=
    ⟨fun _ _ disjoint _ one other => disjoint other one⟩
  have apart := distinct.2.forall (mem_numbered.2 here) (mem_numbered.2 there)
    fun same => ne (Prod.mk.inj same).1
  exact apart one other

lemma Valid.merging (valid : m.Valid) : m.Merging :=
  .of_perm valid.layout_nodup (fun b => (valid.mem_layout b).2) valid.phis

lemma Valid.sound (valid : m.Valid) (bound : ∀ l ∈ m.defs, l.index < m.locals.size) : m.Sound where
  layout_nodup := valid.layout_nodup
  mem_layout := valid.mem_layout
  entry := valid.entry
  edges := by
    rintro p t ⟨block, here, jumps | ⟨-, trap, mem, -, h, handler, rfl⟩⟩
    · exact valid.targets p block t here jumps
    · exact valid.handlers trap mem h handler
  block_defs b block here := by
    have distinct := valid.defs_nodup
    rw [defs_eq, nodup_flatMap] at distinct
    exact distinct.1 (b, block) (mem_numbered.2 here)
  defs_apart _ _ _ _ _ here there one other := valid.defs_apart here there one other
  bound b block l here mem := by
    refine bound l ?_
    rw [defs_eq, mem_flatMap]
    exact ⟨(b, block), mem_numbered.2 here, mem⟩
  toMerging := valid.merging
  uses := valid.uses
  handlers := valid.handlers
  phis_edge b block p q here mem operand :=
    (mem_predecessors.1 ((valid.phis b block p here mem).mem_iff.1 operand)).2

/-! ## Checking a method -/

/-- An operand is no local, or a phi of the block has it. -/
def ofPhi (m : Method) (b : BlockId) (v : Value) : Bool :=
  v.local?.all fun l => b != m.entry && ((m.phisOf b).map (·.dst)).contains l

/-- An operand is no local, or a statement of the block, which no exception leaves, has it. -/
def ofStmt (m : Method) (b : BlockId) (v : Value) : Bool :=
  (m.exceptionalSuccessors b).isEmpty &&
    v.local?.all fun l => (m.block? b).any fun block => (defined block.stmts).contains l

/-- A method in which blocks read what their own phis have, and phis what the blocks have that
control comes from. -/
lemma valid_of_near (once : m.layout.Nodup ∧ m.defs.Nodup)
    (found : ∀ b ∈ m.entry :: m.layout, (m.block? b).isSome = true)
    (handlers : ∀ trap ∈ m.traps, ∀ h ∈ trap.handlers, (m.block? h.target).isSome = true)
    (listed : ∀ e ∈ m.numbered, e.1 ∈ m.layout ∧ (∀ t ∈ e.2.terminator.successors, t ∈ m.layout) ∧
      ∀ p ∈ e.2.phis, (p.operands.map (·.1)).Perm (m.predecessors e.1)) (reads : ∀ e ∈ m.numbered,
      (∀ v ∈ e.2.stmts.flatMap Stmt.values ++ e.2.terminator.values, m.ofPhi e.1 v = true) ∧
      ∀ p ∈ e.2.phis, ∀ o ∈ p.operands, m.ofPhi o.1 o.2 = true ∨ m.ofStmt o.1 o.2 = true) : m.Valid := by
  refine {
    layout_nodup := once.1
    mem_layout := fun b => ⟨fun mem => found b (mem_cons_of_mem _ mem), fun exists_ => ?_⟩
    entry := found _ mem_cons_self
    targets := fun b block t here leads => found t (mem_cons_of_mem _ ?_)
    handlers := handlers
    defs_nodup := once.2
    phis := fun b block p here merged => (listed _ (mem_numbered.2 here)).2.2 p merged
    uses := fun b passed block before l entered here read => ?_ }
  · obtain ⟨block, here⟩ := Option.isSome_iff_exists.1 exists_
    exact (listed _ (mem_numbered.2 here)).1
  · exact (listed _ (mem_numbered.2 here)).2.1 t leads
  · have passes (phi : m.ofPhi b (.var l) = true) : l ∈ defined before ++ passed := by
      simp only [ofPhi, Value.local?, Option.all_some, phisOf_eq here, Bool.and_eq_true, bne_iff_ne,
        contains_iff_mem] at phi
      cases entered with
      | start => exact absurd rfl phi.1
      | next _ _ _ there =>
        rw [here] at there
        cases there
        exact mem_append_right _ (mem_append_left _ phi.2)
    have own (operand : _ ∈ block.stmts.flatMap Stmt.values ++ block.terminator.values) :=
      passes ((reads _ (mem_numbered.2 here)).1 (.var l) operand)
    cases read with
    | stmt split operand => exact own (by rw [split]; simp [operand])
    | terminator operand => exact own (mem_append_right _ operand)
    | phi leaves there merged operand =>
      rcases (reads _ (mem_numbered.2 there)).2 _ merged _ operand with phi | stmt
      · exact passes phi
      · simp only [ofStmt, here, Value.local?, Option.all_some, Option.any_some, Bool.and_eq_true,
          List.isEmpty_iff, contains_iff_mem] at stmt
        cases leaves with
        | jump => exact mem_append_left _ stmt.2
        | raise _ _ leads | throw _ leads => simp [stmt.1] at leads

/-! ## What paths pass -/

lemma Loose.enters_bound (loose : m.Loose) (entered : m.Enters b passed) :
    ∀ l ∈ passed, l.index < m.locals.size := by
  induction entered with
  | start => simp
  | next _ here leaves there ih =>
    intro l mem
    rcases mem_append.1 mem with phi | old
    · exact loose.bound _ _ l there (mem_append_left _ phi)
    · rcases mem_append.1 old with stmt | earlier
      · exact loose.bound _ _ l here (mem_append_right _ (leaves.defined_sub stmt))
      · exact ih l earlier

lemma Loose.passed_bound (loose : m.Loose) (entered : m.Enters b passed)
    (here : m.block? b = some block) {l} (mem : l ∈ defined block.stmts ++ passed) :
    l.index < m.locals.size := by
  rcases mem_append.1 mem with mine | earlier
  · exact loose.bound b block l here (mem_append_right _ mine)
  · exact loose.enters_bound entered l earlier

lemma Loose.read_bound (loose : m.Loose) (entered : m.Enters b passed)
    (here : m.block? b = some block) {before l}
    (reads : m.Reads b block before (.var l)) : l.index < m.locals.size := by
  obtain ⟨rest, split⟩ := reads.split
  refine loose.passed_bound entered here ?_
  rw [split, defined_append]
  exact mem_append.2 ((mem_append.1 (loose.uses b passed block before l entered here reads)).imp
    (mem_append_left _) id)

/-! ## Fewer paths -/

lemma Enters.of_leaves (entry : m'.entry = m.entry)
    (blocks : ∀ b block', m'.block? b = some block' → ∃ block, m.block? b = some block ∧
      block'.phis.map (·.dst) = block.phis.map (·.dst) ∧
      ∀ before t, m'.Leaves b block' before t → m.Leaves b block before t)
    (entered : m'.Enters b passed) : m.Enters b passed := by
  induction entered with
  | start => exact entry ▸ .start
  | next _ here leaves there ih =>
    obtain ⟨block, here', -, sub⟩ := blocks _ _ here
    obtain ⟨target, there', phis, -⟩ := blocks _ _ there
    rw [phis]
    exact .next ih here' (sub _ _ leaves) there'

lemma Leaves.congr {t before} (leaves : m'.Leaves b block' before t)
    (stmts : block'.stmts = block.stmts) (terminator : block'.terminator = block.terminator)
    (caught : ∀ t, t ∈ m'.exceptionalSuccessors b → t ∈ m.exceptionalSuccessors b) :
    m.Leaves b block before t := by
  cases leaves with
  | jump leads =>
    rw [stmts]
    exact .jump (terminator ▸ leads)
  | raise split throws leads => exact .raise (stmts ▸ split) throws (caught _ leads)
  | throw throws leads =>
    rw [stmts]
    exact .throw (terminator ▸ throws) (caught _ leads)

/-! ## Pruning -/

lemma block?_pruneEdges_isSome (b : BlockId) : (m.pruneEdges.block? b).isSome = (m.block? b).isSome := by
  rw [block?_pruneEdges, Option.isSome_map]

lemma edge_pruneEdges (edges : m.EdgesLand) (p t : BlockId) : m.pruneEdges.Edge p t ↔ m.Edge p t := by
  constructor
  · rintro ⟨block', here, leads⟩
    rw [block?_pruneEdges, Option.map_eq_some_iff] at here
    obtain ⟨block, here, rfl⟩ := here
    refine ⟨block, here, leads.imp id fun ⟨throws, trap, mem, covers, h, handler, target⟩ => ?_⟩
    obtain ⟨⟨trap', mem', rfl⟩, -⟩ := mem_pruneEdges_traps.1 mem
    exact ⟨throws, trap', mem', (mem_filter.1 covers).1, h, (mem_filter.1 handler).1, target⟩
  · intro edge
    have exists_ := edges p t edge
    obtain ⟨block, here, leads⟩ := edge
    have here' := block?_pruneEdges (m := m) (b := p)
    rw [here] at here'
    refine ⟨_, here', leads.imp id ?_⟩
    rintro ⟨throws, trap, mem, covers, h, handler, target⟩
    have covers' : p ∈ (m.trimTrap trap).covered := mem_filter.2 ⟨covers, by simp [here]⟩
    have handler' : h ∈ (m.trimTrap trap).handlers :=
      mem_filter.2 ⟨handler, by rw [target]; exact exists_⟩
    exact ⟨throws, m.trimTrap trap, mem_pruneEdges_traps.2 ⟨⟨trap, mem, rfl⟩,
      ne_nil_of_mem covers', ne_nil_of_mem handler'⟩, covers', h, handler', target⟩

lemma leaves_pruneEdges {t before phis}
    (here : m.block? b = some block) (leaves : m.pruneEdges.Leaves b { block with phis } before t) :
    m.Leaves b block before t := by
  refine leaves.congr (show ({ block with phis } : Block).stmts = block.stmts from rfl) rfl
    fun t caught => ?_
  have here' : m.pruneEdges.block? b =
      some { block with phis := block.phis.map (Phi.trim (m.predecessors b)) } := by
    rw [block?_pruneEdges, here]
    rfl
  rw [mem_exceptionalSuccessors here'] at caught
  obtain ⟨throws, trap, mem, covers, h, handler, target⟩ := caught
  obtain ⟨⟨trap', mem', rfl⟩, -⟩ := mem_pruneEdges_traps.1 mem
  exact (mem_exceptionalSuccessors here).2 ⟨throws, trap', mem', (mem_filter.1 covers).1, h,
    (mem_filter.1 handler).1, target⟩

lemma enters_pruneEdges (entered : m.pruneEdges.Enters b passed) : m.Enters b passed := by
  refine entered.of_leaves pruneEdges_entry fun c block' here => ?_
  rw [block?_pruneEdges, Option.map_eq_some_iff] at here
  obtain ⟨block, here, rfl⟩ := here
  refine ⟨block, here, ?_, fun before t leaves => leaves_pruneEdges here leaves⟩
  rw [map_map]
  rfl

lemma Merging.phis_pruneEdges (merging : m.Merging) (nodup : m.layout.Nodup) (edges : m.EdgesLand) {p}
    (here : m.pruneEdges.block? b = some block') (merged : p ∈ block'.phis) :
    (p.operands.map (·.1)).Perm (m.pruneEdges.predecessors b) := by
  rw [block?_pruneEdges, Option.map_eq_some_iff] at here
  obtain ⟨block, here, rfl⟩ := here
  obtain ⟨old, among, rfl⟩ := mem_map.1 merged
  have once : ((old.trim (m.predecessors b)).operands.map (·.1)).Nodup :=
    (merging.phis_nodup b block old here among).sublist (filter_sublist.map _)
  have sources : (m.pruneEdges.predecessors b).Nodup :=
    predecessors_nodup (pruneEdges_layout (m := m) ▸ nodup)
  refine (perm_ext_iff_of_nodup once sources).2 fun q => ?_
  rw [mem_predecessors, pruneEdges_layout, edge_pruneEdges edges, ← mem_predecessors]
  simp only [Phi.trim, mem_map, mem_filter, contains_iff_mem]
  constructor
  · rintro ⟨o, ⟨-, source⟩, rfl⟩
    exact source
  · intro source
    obtain ⟨o, operand, rfl⟩ :=
      mem_map.1 (merging.phis_cover b block old q here among (mem_predecessors.1 source).2)
    exact ⟨o, ⟨operand, source⟩, rfl⟩

lemma Merging.prune (merging : m.Merging) (nodup : m.layout.Nodup) (edges : m.EdgesLand)
    (listed : ∀ b, (m.block? b).isSome = true → b ∈ m.layout) : m.pruneEdges.Merging :=
  .of_perm nodup (fun b exists_ => listed b (block?_pruneEdges_isSome b ▸ exists_))
    fun _ _ _ => merging.phis_pruneEdges nodup edges

lemma Loose.prune (loose : m.Loose) : m.pruneEdges.Sound := by
  have blocks {b : BlockId} {block' : Block} (here : m.pruneEdges.block? b = some block') :
      ∃ block, m.block? b = some block ∧
        { block with phis := block.phis.map (Phi.trim (m.predecessors b)) } = block' := by
    rwa [block?_pruneEdges, Option.map_eq_some_iff] at here
  have defs {b : BlockId} {block : Block} :
      Block.defs { block with phis := block.phis.map (Phi.trim (m.predecessors b)) } = block.defs := by
    rw [Block.defs, map_map]
    rfl
  refine {
    layout_nodup := loose.layout_nodup
    mem_layout := fun b => by rw [pruneEdges_layout, loose.mem_layout, block?_pruneEdges_isSome]
    entry := by rw [pruneEdges_entry, block?_pruneEdges_isSome, loose.entry]
    edges := fun p t leads => by
      rw [block?_pruneEdges_isSome]
      exact loose.edges p t ((edge_pruneEdges loose.edges p t).1 leads)
    toDefining := loose.toDefining.of_sublist rfl fun b block' here => ?_
    toMerging := loose.toMerging.prune loose.layout_nodup loose.edges fun b => (loose.mem_layout b).2
    uses := fun b passed block' before l entered here reads => ?_
    handlers := fun trap mem h handler => ?_
    phis_edge := fun b block' p q here mem operand => (mem_predecessors.1
      ((loose.toMerging.phis_pruneEdges loose.layout_nodup loose.edges here mem).mem_iff.1 operand)).2 }
  · obtain ⟨block, found, rfl⟩ := blocks here
    exact ⟨block, found, by rw [defs]⟩
  · obtain ⟨block, here', rfl⟩ := blocks here
    refine loose.uses b passed block before l (enters_pruneEdges entered) here' ?_
    cases reads with
    | stmt split operand => exact .stmt split operand
    | terminator operand => exact .terminator operand
    | phi leaves there merged operand =>
      obtain ⟨target, there', rfl⟩ := blocks there
      obtain ⟨p', mem', rfl⟩ := mem_map.1 merged
      exact .phi (leaves_pruneEdges here' leaves) there' mem' (mem_filter.1 operand).1
  · obtain ⟨⟨trap', mem', rfl⟩, -⟩ := mem_pruneEdges_traps.1 mem
    rw [block?_pruneEdges_isSome]
    simpa using (mem_filter.1 handler).2

lemma Reached.prune (edges : m.EdgesLand) (reached : m.Reached b) : m.pruneEdges.Reached b :=
  reached.mono rfl (fun c found => by rwa [block?_pruneEdges_isSome])
    fun p t _ leads => (edge_pruneEdges edges p t).2 leads

end Method

end Restack.Ir
