/-
# What the passes on null references do

Putting nulls rewrites operands to constants and changes nothing else
(`placeNulls_sound`). Cutting a block at an access through null drops the edges
out of the block and adds a local of its own (`Cut.loose`); pruning makes
phis fit again (`throwOnNull_sound`).
-/
import Restack.Pass.Null
import Restack.Proofs.Ir.Reachable
import Restack.Proofs.Ir.Rewriting

namespace Restack.Pass

open List Ir

/-- Cuts blocks at their first accesses through null. -/
def cutAll (m : Method) (bs : List BlockId) : Method × Bool :=
  bs.foldl (fun (m, changed) b =>
    let (m, here) := cutAtNull m b
    (m, changed || here)) (m, false)

lemma throwOnNull_fst (m : Method) : (throwOnNull m).1 =
    if (cutAll m m.layout).2 then (cutAll m m.layout).1.removeUnreachable.1.pruneEdges
    else (cutAll m m.layout).1 := by
  change (if (cutAll m m.layout).2 = true then _ else _ : Method × Bool).1 = _
  split <;> rfl

/-- Puts null where a reference is expected. -/
def nullExpected (m : Method) : Method :=
  m.mapTypedUses fun v expected => if expected.any Ty.isRef then nullIfZero v else v

/-- Puts null where a reference is merged or compared with zero. -/
def nullMerged (m : Method) : Method := m.mapBlocks fun _ block => { block with
  phis := block.phis.map (Phi.withNulls (isReference (definedTypes m)))
  terminator := Terminator.withNulls (isReference (definedTypes m)) block.terminator }

lemma placeNulls_fst (m : Method) : (placeNulls m).1 = nullMerged (nullExpected m) := rfl

variable {m : Method}

/-! ## Putting nulls -/

/-- An operand that stays or becomes null. -/
def MaybeNull (v v' : Value) : Prop := v' = v ∨ v' = .const .null

lemma stmtExpectations_length (s : Stmt) : (m.stmtExpectations s).length = s.values.length := by
  have expr (e : Expr) : (Method.exprExpectations e).length = e.values.length := by
    simp [Method.exprExpectations, Method.padded]
  cases s <;> simp [Method.stmtExpectations, Stmt.values, expr]

lemma terminatorExpectations_length (t : Terminator) :
    (m.terminatorExpectations t).length = t.values.length := by
  cases t with
  | branch test first second yes no => cases second <;> rfl
  | ret v => cases v <;> rfl
  | _ => rfl

lemma maybeNull_zipWith {vs : List Value} {types : List (Option Ty)} {v'}
    (mem : v' ∈ vs.zipWith (fun v expected => if expected.any Ty.isRef then nullIfZero v else v)
      types) : ∃ v ∈ vs, MaybeNull v v' := by
  rw [← map_uncurry_zip_eq_zipWith, mem_map] at mem
  obtain ⟨⟨v, expected⟩, among, rfl⟩ := mem
  refine ⟨v, (of_mem_zip among).1, ?_⟩
  simp only [Function.uncurry_apply_pair, nullIfZero]
  split
  · split
    · exact .inr rfl
    · exact .inl rfl
  · exact .inl rfl

lemma nullExpected_rewrites : m.Rewrites (nullExpected m) (fun s => some (s.withValues (s.values.zipWith
      (fun v expected => if expected.any Ty.isRef then nullIfZero v else v) (m.stmtExpectations s))))
    (fun _ => true) MaybeNull := by
  rw [nullExpected]
  refine .of_mapBlocks fun b block _ => {
    stmts := congrFun filterMap_eq_map'.symm block.stmts
    calm := fun s _ made => by cases made
    canThrow := fun s _ s' made => by
      cases made
      exact Stmt.canThrow_withValues _ _
    def? := fun s _ => ?_
    values := fun s _ s' made v' mem => ?_
    successors := Terminator.successors_withValues _ _
    isThrow := Terminator.isThrow_withValues _ _
    terminator := fun v' mem => ?_
    phis := by simp
    operands := fun p mem => ⟨p, mem, rfl, fun q v operand => ⟨v, operand, Or.inl rfl⟩⟩ }
  · cases found : s.def? <;> simp [found, Option.filter]
  · cases made
    rw [Stmt.values_withValues _ (by simp [stmtExpectations_length])] at mem
    exact maybeNull_zipWith mem
  · rw [Terminator.values_withValues _ (by simp [terminatorExpectations_length])] at mem
    exact maybeNull_zipWith mem

@[simp] lemma isThrow_withNulls (isRef : Value → Bool) (t : Terminator) :
    (Terminator.withNulls isRef t).isThrow = t.isThrow := by
  unfold Terminator.withNulls
  split
  · split
    · rfl
    · split <;> rfl
  · rfl

@[simp] lemma successors_withNulls (isRef : Value → Bool) (t : Terminator) :
    (Terminator.withNulls isRef t).successors = t.successors := by
  unfold Terminator.withNulls
  split
  · split
    · rfl
    · split <;> rfl
  · rfl

lemma values_withNulls {isRef t v'}
    (mem : v' ∈ (Terminator.withNulls isRef t).values) : ∃ v ∈ t.values, MaybeNull v v' := by
  unfold Terminator.withNulls at mem
  split at mem
  · rename_i test first second yes no
    have first_ : first ∈ (Terminator.branch test first (some second) yes no).values := by
      simp [Terminator.values]
    have second_ : second ∈ (Terminator.branch test first (some second) yes no).values := by
      simp [Terminator.values]
    split at mem
    · rcases mem_pair.1 mem with rfl | rfl
      · exact ⟨_, first_, .inl rfl⟩
      · exact ⟨_, second_, .inr rfl⟩
    · split at mem
      · rcases mem_pair.1 mem with rfl | rfl
        · exact ⟨_, first_, .inr rfl⟩
        · exact ⟨_, second_, .inl rfl⟩
      · exact ⟨v', mem, .inl rfl⟩
  · exact ⟨v', mem, .inl rfl⟩

lemma withNulls_operands (isRef : Value → Bool) (p : Phi) : (Phi.withNulls isRef p).dst = p.dst ∧
      (Phi.withNulls isRef p).operands.map (·.1) = p.operands.map (·.1) ∧
      ∀ q v', (q, v') ∈ (Phi.withNulls isRef p).operands → ∃ v, (q, v) ∈ p.operands ∧ MaybeNull v v' := by
  rw [Phi.withNulls]
  split
  · refine ⟨rfl, by simp [Phi.mapValues], fun q v' mem => ?_⟩
    obtain ⟨⟨q', v⟩, among, same⟩ := mem_map.1 mem
    cases same
    refine ⟨v, among, ?_⟩
    simp only [nullIfZero]
    split
    · exact .inr rfl
    · exact .inl rfl
  · exact ⟨rfl, rfl, fun q v' mem => ⟨v', mem, .inl rfl⟩⟩

lemma nullMerged_rewrites : m.Rewrites (nullMerged m) some (fun _ => true) MaybeNull := by
  refine .of_mapBlocks fun b block _ => {
    stmts := (filterMap_some).symm
    calm := fun s _ made => by cases made
    canThrow := fun s _ s' made => by cases made; rfl
    def? := fun s _ => by cases found : s.def? <;> simp [found, Option.filter]
    values := fun s _ s' made v' mem => by
      cases made
      exact ⟨v', mem, .inl rfl⟩
    successors := successors_withNulls _ _
    isThrow := isThrow_withNulls _ _
    terminator := fun v' mem => values_withNulls mem
    phis := ?_
    operands := fun p' mem => ?_ }
  · simp only [map_map, filter_true]
    exact map_congr_left fun p _ => (withNulls_operands _ p).1
  · obtain ⟨p, among, rfl⟩ := mem_map.1 mem
    exact ⟨p, among, (withNulls_operands _ p).2⟩

lemma maybeNull_uses (sound : m.Sound) (b : BlockId) (passed : List Local) (block : Block)
    (before : List Stmt) (v : Value) (l : Local) (entered : m.Enters b passed)
    (here : m.block? b = some block) (reads : m.Reads b block before v) (null : MaybeNull v (.var l)) :
    l ∈ defined before ++ passed ∧ true = true := by
  rcases null with rfl | constant
  · exact ⟨sound.uses b passed block before l entered here reads, rfl⟩
  · cases constant

lemma placeNulls_sound (sound : m.Sound) : (placeNulls m).1.Sound := by
  have typed := nullExpected_rewrites.sound sound (maybeNull_uses sound)
  exact nullMerged_rewrites.sound typed (maybeNull_uses typed)

lemma placeNulls_reached {b} (reached : m.Reached b) : (placeNulls m).1.Reached b := by
  exact nullMerged_rewrites.reached (nullExpected_rewrites.reached reached)

/-! ## Cutting blocks -/

/-- A block that throws in front of its first access through null. -/
def severed (l : Local) (block : Block) : Block := { block with
  stmts := block.stmts.takeWhile (!throughNull ·) ++ [.assign l newNullPointerException]
  terminator := .throw (.var l) }

/-- A block that no trap covers and that has an access through null. -/
def Severs (m : Method) (b : BlockId) : Prop :=
  m.isCovered b = false ∧ ∃ block, m.block? b = some block ∧ block.stmts.any throughNull = true

lemma cutAtNull_severs {b block} (severs : Severs m b) (here : m.block? b = some block) :
    cutAtNull m b = (m.freshLocal.2.setBlock b (severed m.freshLocal.1 block), true) := by
  obtain ⟨uncovered, block', here', null⟩ := severs
  rw [here] at here'
  cases here'
  simp only [cutAtNull, here, uncovered, null]
  rfl

lemma cutAtNull_whole {b} (whole : ¬ Severs m b) : cutAtNull m b = (m, false) := by
  rw [cutAtNull]
  split
  · rfl
  · rename_i block here
    refine if_pos ?_
    by_contra cut
    simp only [Bool.or_eq_true, not_or, Bool.not_eq_true, Bool.not_eq_false'] at cut
    exact whole ⟨cut.1, block, here, cut.2⟩

/-- A block that is severed, by a local of its own. -/
structure Cut (m m' : Method) (b : BlockId) (block : Block) : Prop where
  head : m'.head = m.head
  layout : m'.layout = m.layout
  entry : m'.entry = m.entry
  traps : m'.traps = m.traps
  locals : m'.locals.size = m.locals.size + 1
  here : m.block? b = some block
  uncovered : m.isCovered b = false
  block? : ∀ c, m'.block? c = if c = b then some (severed ⟨m.locals.size⟩ block) else m.block? c

lemma cutAtNull_cases (b : BlockId) : cutAtNull m b = (m, false) ∨
    (cutAtNull m b).2 = true ∧ ∃ block, Cut m (cutAtNull m b).1 b block := by
  by_cases severs : Severs m b
  · obtain ⟨uncovered, block, here, -⟩ := id severs
    rw [cutAtNull_severs severs here]
    refine .inr ⟨rfl, block, rfl, rfl, rfl, rfl, ?_, here, uncovered, fun c => ?_⟩
    · simp [Method.setBlock, Method.freshLocal]
    · exact Method.block?_setBlock (m := m.freshLocal.2) (Method.index_lt_of_block? here)
  · exact .inl (cutAtNull_whole severs)

/-- What every cut keeps. -/
lemma cutAll_preserves {P : Method → Prop}
    (step : ∀ n n' b block, P n → Cut n n' b block → P n') (holds : P m) (bs : List BlockId) :
    P (cutAll m bs).1 := by
  refine foldlRecOn (motive := fun s : Method × Bool => P s.1) bs _ holds fun s holds b _ => ?_
  rcases cutAtNull_cases (m := s.1) b with same | ⟨-, block, cut⟩
  · exact (congrArg Prod.fst same).symm ▸ holds
  · exact step _ _ b block holds cut

namespace Cut

variable {m' : Method} {b : BlockId} {block : Block} (cut : Cut m m' b block)

include cut

lemma block?_self : m'.block? b = some (severed ⟨m.locals.size⟩ block) := by
  rw [cut.block?, if_pos rfl]

lemma block?_ne {c} (ne : c ≠ b) : m'.block? c = m.block? c := by
  rw [cut.block?, if_neg ne]

lemma isSome_eq (c : BlockId) : (m'.block? c).isSome = (m.block? c).isSome := by
  by_cases same : c = b
  · rw [same, cut.block?_self, cut.here]
    rfl
  · rw [cut.block?_ne same]

lemma edge {p t} (leads : m'.Edge p t) : p ≠ b ∧ m.Edge p t := by
  obtain ⟨found, here, leads⟩ := leads
  by_cases same : p = b
  · subst same
    rw [cut.block?_self] at here
    cases here
    rcases leads with jumps | ⟨-, trap, mem, covers, -⟩
    · cases jumps
    · rw [cut.traps] at mem
      cases cut.uncovered.symm.trans (Method.isCovered_iff.2 ⟨trap, mem, covers⟩)
  · rw [cut.block?_ne same] at here
    rw [cut.traps] at leads
    exact ⟨same, found, here, leads⟩

lemma leaves {c t found before} (here : m'.block? c = some found)
    (leaves : m'.Leaves c found before t) : c ≠ b ∧ m.Leaves c found before t := by
  obtain ⟨ne, -⟩ := cut.edge (leaves.edge here)
  refine ⟨ne, leaves.congr rfl rfl fun t caught => ?_⟩
  rw [Method.mem_exceptionalSuccessors here, cut.traps] at caught
  exact (Method.mem_exceptionalSuccessors (cut.block?_ne ne ▸ here)).2 caught

lemma enters {c passed} (entered : m'.Enters c passed) : m.Enters c passed := by
  refine entered.of_leaves cut.entry fun c found here => ?_
  by_cases same : c = b
  · subst same
    refine ⟨block, cut.here, ?_, fun before t leaves => absurd rfl (cut.leaves here leaves).1⟩
    rw [cut.block?_self] at here
    cases here
    rfl
  · exact ⟨found, cut.block?_ne same ▸ here, rfl, fun before t leaves => (cut.leaves here leaves).2⟩

lemma phis {c found p} (here : m'.block? c = some found)
    (mem : p ∈ found.phis) : ∃ block, m.block? c = some block ∧ p ∈ block.phis := by
  by_cases same : c = b
  · subst same
    rw [cut.block?_self] at here
    cases here
    exact ⟨block, cut.here, mem⟩
  · exact ⟨found, cut.block?_ne same ▸ here, mem⟩

lemma merging (merging : m.Merging) : m'.Merging :=
  merging.sub (fun _ _ leads => (cut.edge leads).2) fun _ _ p here mem => by
    obtain ⟨block, found, among⟩ := cut.phis here mem
    exact ⟨block, p, found, among, rfl⟩

lemma loose (loose : m.Loose) : m'.Loose := by
  generalize kept_ : block.stmts.takeWhile (!throughNull ·) = kept
  have stmts : (severed ⟨m.locals.size⟩ block).stmts =
      kept ++ [.assign ⟨m.locals.size⟩ newNullPointerException] := by rw [severed, kept_]
  have defined_kept : defined (severed ⟨m.locals.size⟩ block).stmts =
      defined kept ++ [⟨m.locals.size⟩] := by
    rw [stmts, defined_append]
    rfl
  have start : block.stmts = kept ++ block.stmts.dropWhile (!throughNull ·) :=
    kept_ ▸ takeWhile_append_dropWhile.symm
  generalize block.stmts.dropWhile (!throughNull ·) = rest at start
  -- what a block defines now: some of what it did, and the new local
  have defs {c : BlockId} {found : Block} {l : Local} (here : m'.block? c = some found)
      (mem : l ∈ found.defs) :
      (∃ block, m.block? c = some block ∧ l ∈ block.defs) ∨ c = b ∧ l = ⟨m.locals.size⟩ := by
    by_cases same : c = b
    · subst same
      rw [cut.block?_self] at here
      cases here
      rw [Block.defs, defined_kept, ← append_assoc, mem_append] at mem
      rcases mem with older | new
      · refine .inl ⟨block, cut.here, ?_⟩
        rw [Block.defs, start, defined_append, ← append_assoc]
        exact mem_append_left _ older
      · exact .inr ⟨rfl, mem_singleton.1 new⟩
    · exact .inl ⟨found, cut.block?_ne same ▸ here, mem⟩
  refine {
    layout_nodup := cut.layout ▸ loose.layout_nodup
    mem_layout := fun c => by rw [cut.layout, cut.isSome_eq, loose.mem_layout]
    entry := by rw [cut.entry, cut.isSome_eq, loose.entry]
    edges := fun p t leads => by
      rw [cut.isSome_eq]
      exact loose.edges p t (cut.edge leads).2
    block_defs := fun c found here => ?_
    defs_apart := fun c d found found' l one other mem mem' => ?_
    bound := fun c found l here mem => ?_
    toMerging := cut.merging loose.toMerging
    uses := fun c passed found before l entered here reads => ?_ }
  · by_cases same : c = b
    · subst same
      have nodup := loose.block_defs c block cut.here
      rw [cut.block?_self] at here
      cases here
      rw [Block.defs, start, defined_append, ← append_assoc] at nodup
      rw [Block.defs, defined_kept, ← append_assoc]
      refine nodup_append.2 ⟨nodup.of_append_left, by simp, fun l mem k new same => ?_⟩
      rw [mem_singleton] at new
      have := loose.bound c block l cut.here (by
        rw [Block.defs, start, defined_append, ← append_assoc]
        exact mem_append_left _ mem)
      rw [same, new] at this
      exact Nat.lt_irrefl _ this
    · exact loose.block_defs c found (cut.block?_ne same ▸ here)
  · rcases defs one mem with ⟨block₁, here₁, mem₁⟩ | ⟨rfl, rfl⟩ <;>
      rcases defs other mem' with ⟨block₂, here₂, mem₂⟩ | ⟨rfl, same⟩
    · exact loose.defs_apart c d block₁ block₂ l here₁ here₂ mem₁ mem₂
    · have := loose.bound c block₁ l here₁ mem₁
      rw [same] at this
      exact absurd this (Nat.lt_irrefl _)
    · exact absurd (loose.bound d block₂ _ here₂ mem₂) (Nat.lt_irrefl _)
    · rfl
  · rw [cut.locals]
    rcases defs here mem with ⟨block₁, here₁, mem₁⟩ | ⟨-, rfl⟩
    · exact Nat.lt_succ_of_lt (loose.bound c block₁ l here₁ mem₁)
    · exact Nat.lt_succ_self _
  · by_cases same : c = b
    · subst same
      have here' := here
      rw [cut.block?_self] at here
      cases here
      cases reads with
      | @stmt before rest' s v split operand =>
        rw [stmts] at split
        -- the new statement is the last one and has no operands
        rcases eq_nil_or_concat rest' with rfl | ⟨init, last, rfl⟩
        · obtain ⟨-, new⟩ := append_inj' split rfl
          cases new
          cases operand
        · rw [concat_eq_append, ← cons_append, ← append_assoc] at split
          have at_ : block.stmts = before ++ s :: (init ++ rest) := by
            rw [start, (append_inj' split rfl).1, append_assoc, cons_append]
          exact loose.uses c passed block before l (cut.enters entered) cut.here (.stmt at_ operand)
      | terminator operand =>
        rw [mem_append, defined_kept]
        have : l = ⟨m.locals.size⟩ := by simpa [severed, Terminator.values] using operand
        exact .inl (mem_append_right _ (mem_singleton.2 this))
      | phi leaves => exact absurd rfl (cut.leaves here' leaves).1
    · refine loose.uses c passed found before l (cut.enters entered) (cut.block?_ne same ▸ here) ?_
      cases reads with
      | stmt split operand => exact .stmt split operand
      | terminator operand => exact .terminator operand
      | phi leaves there merged operand =>
        obtain ⟨target, there', merged'⟩ := cut.phis there merged
        exact .phi (cut.leaves here leaves).2 there' merged' operand

end Cut

lemma cutAll_unchanged {bs} (unchanged : (cutAll m bs).2 = false) : (cutAll m bs).1 = m := by
  refine foldlRecOn (motive := fun s : Method × Bool => s.2 = false → s.1 = m) bs _
    (fun _ => rfl) (fun s kept b _ unchanged => ?_) unchanged
  obtain ⟨before, here⟩ : s.2 = false ∧ (cutAtNull s.1 b).2 = false := Bool.or_eq_false_iff.1 unchanged
  rcases cutAtNull_cases (m := s.1) b with same | ⟨cut, -⟩
  · exact (congrArg Prod.fst same).trans (kept before)
  · rw [cut] at here
    cases here

lemma throwOnNull_sound (sound : m.Sound) : (throwOnNull m).1.Sound := by
  have loose := cutAll_preserves (fun _ _ _ _ loose cut => cut.loose loose) sound.toLoose m.layout
  rw [throwOnNull_fst]
  split
  · exact loose.removeUnreachable.1.prune
  · rename_i unchanged
    rw [cutAll_unchanged (by simpa using unchanged)]
    exact sound

end Restack.Pass
