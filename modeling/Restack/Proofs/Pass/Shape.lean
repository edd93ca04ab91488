/-
# The graph that passes leave

Most passes leave the graph alone (`SameShape`), and those that drop blocks or lead jumps past
them keep what is said of layout, jumps, entry and handlers (`Keeps`, `Pass.keeps_shape`). Once
phis have become copies there are none left in the blocks of the layout (`replacePhis_bare`).
-/
import Restack.Proofs.Pass.Marks
import Restack.Proofs.Pass.PhiCopies

namespace Restack.Ir.Method

open List

/-- The entry and the handlers are blocks. -/
structure Housed (m : Method) : Prop where
  entry : (m.block? m.entry).isSome = true
  handlers : ∀ b, m.isHandler b = true → (m.block? b).isSome = true

/-- The same blocks and jumps, and no handlers but those that were. -/
structure SameShape (m m' : Method) : Prop where
  head : m'.head = m.head
  layout : m'.layout = m.layout
  entry : m'.entry = m.entry
  handlers : ∀ b, m'.isHandler b = true → m.isHandler b = true
  exists_ : ∀ b, (m'.block? b).isSome = (m.block? b).isSome
  successors : ∀ b, m'.successors b = m.successors b
  phis : ∀ b, m.phisOf b = [] → m'.phisOf b = []

/-- What a change keeps that may drop blocks. -/
structure Keeps (m m' : Method) : Prop where
  head : m'.head = m.head
  linked : m'.Linked
  housed : m.Housed → m'.Housed
  phis : ∀ b, m.phisOf b = [] → m'.phisOf b = []

variable {m m' m'' : Method} {b : BlockId} {block : Block}

lemma successors_eq (here : m.block? b = some block) : m.successors b = block.terminator.successors := by
  rw [successors, here]

lemma Linked.of_successors (layout_nodup : m.layout.Nodup)
    (mem_layout : ∀ b, b ∈ m.layout ↔ (m.block? b).isSome = true)
    (targets : ∀ b t, t ∈ m.successors b → (m.block? t).isSome = true) : m.Linked where
  layout_nodup := layout_nodup
  mem_layout := mem_layout
  targets b _ t here leads := targets b t ((successors_eq here).symm ▸ leads)

lemma Linked.successors (linked : m.Linked) {t} (leads : t ∈ m.successors b) :
    (m.block? t).isSome = true := by
  cases here : m.block? b with
  | none => simp [Method.successors, here] at leads
  | some block => exact linked.targets b block t here (successors_eq here ▸ leads)

namespace SameShape

lemma refl (m : Method) : SameShape m m :=
  ⟨rfl, rfl, rfl, fun _ => id, fun _ => rfl, fun _ => rfl, fun _ h => h⟩

lemma trans (first : SameShape m m') (second : SameShape m' m'') : SameShape m m'' where
  head := second.head.trans first.head
  layout := second.layout.trans first.layout
  entry := second.entry.trans first.entry
  handlers b found := first.handlers b (second.handlers b found)
  exists_ b := (second.exists_ b).trans (first.exists_ b)
  successors b := (second.successors b).trans (first.successors b)
  phis b none := second.phis b (first.phis b none)

lemma keeps (same : SameShape m m') (linked : m.Linked) : Keeps m m' where
  head := same.head
  linked := by
    refine .of_successors (same.layout ▸ linked.layout_nodup) (fun b => ?_) fun b t leads => ?_
    · rw [same.layout, same.exists_]
      exact linked.mem_layout b
    · rw [same.exists_]
      exact linked.successors (same.successors b ▸ leads)
  housed old := by
    refine ⟨?_, fun b handles => ?_⟩
    · rw [same.exists_, same.entry]
      exact old.entry
    · rw [same.exists_]
      exact old.handlers b (same.handlers b handles)
  phis := same.phis

lemma of_blocks (head : m'.head = m.head) (layout : m'.layout = m.layout)
    (entry : m'.entry = m.entry) (handlers : ∀ b, m'.isHandler b = true → m.isHandler b = true)
    {g : BlockId → Block → Block} (blocks : ∀ b, m'.block? b = (m.block? b).map (g b))
    (jumps : ∀ b block, m.block? b = some block →
      (g b block).terminator.successors = block.terminator.successors)
    (phis : ∀ b block, m.block? b = some block → block.phis = [] → (g b block).phis = []) :
    SameShape m m' where
  head := head
  layout := layout
  entry := entry
  handlers := handlers
  exists_ b := by rw [blocks, Option.isSome_map]
  successors b := by
    rw [Method.successors, Method.successors, blocks]
    cases here : m.block? b with
    | none => rfl
    | some block => exact jumps b block here
  phis b none := by
    rw [phisOf, blocks]
    cases here : m.block? b with
    | none => rfl
    | some block => exact phis b block here (phisOf_eq here ▸ none)

lemma mapBlocks {g} (jumps : ∀ b block, (g b block).terminator.successors = block.terminator.successors)
    (phis : ∀ b block, block.phis = [] → (g b block).phis = []) : SameShape m (m.mapBlocks g) :=
  of_blocks rfl rfl rfl (fun _ => id) (fun _ => block?_mapBlocks g) (fun b block _ => jumps b block)
    fun b block _ => phis b block

lemma mapStmts (g : BlockId → Block → List Stmt) :
    SameShape m (m.mapBlocks fun b block => { block with stmts := g b block }) :=
  mapBlocks (fun _ _ => rfl) fun _ _ none => none

lemma modifyBlock {g} (jumps : ∀ block, (g block).terminator.successors = block.terminator.successors)
    (phis : ∀ block, block.phis = [] → (g block).phis = []) : SameShape m (m.modifyBlock b g) := by
  refine of_blocks (g := fun c block => if c = b then g block else block) rfl rfl rfl (fun _ => id)
    (fun c => ?_) (fun c block _ => ?_) fun c block _ none => ?_
  · rw [block?_modifyBlock]
    split
    · rfl
    · exact Option.map_id'.symm
  · split
    · exact jumps block
    · rfl
  · split
    · exact phis block none
    · exact none

lemma modifyStmts (g : Block → List Stmt) :
    SameShape m (m.modifyBlock b fun block => { block with stmts := g block }) :=
  modifyBlock (fun _ => rfl) fun _ none => none

lemma setBlock (same : SameShape m m') (here : m.block? b = some block) {new}
    (jumps : new.terminator.successors = block.terminator.successors)
    (phis : block.phis = [] → new.phis = []) : SameShape m (m'.setBlock b new) := by
  have found : (m'.block? b).isSome = true := by
    rw [same.exists_, here]
    rfl
  obtain ⟨block', here'⟩ := Option.isSome_iff_exists.1 found
  have at_ (c : BlockId) : (m'.setBlock b new).block? c = if c = b then some new else m'.block? c :=
    block?_setBlock (index_lt_of_block? here')
  refine ⟨same.head, same.layout, same.entry, same.handlers, fun c => ?_, fun c => ?_,
    fun c none => ?_⟩
  · rw [at_]
    split
    · rename_i eq
      rw [eq, here]
      rfl
    · exact same.exists_ c
  · by_cases eq : c = b
    · subst eq
      rw [successors_eq ((at_ c).trans (if_pos rfl)), successors_eq here, jumps]
    · rw [← same.successors c, Method.successors, Method.successors, at_, if_neg eq]
  · by_cases eq : c = b
    · subst eq
      rw [phisOf_eq ((at_ c).trans (if_pos rfl))]
      exact phis (phisOf_eq here ▸ none)
    · rw [phisOf, at_, if_neg eq]
      exact same.phis c none

lemma freshLocal : SameShape m m.freshLocal.2 :=
  ⟨rfl, rfl, rfl, fun _ => id, fun _ => rfl, fun _ => rfl, fun _ none => none⟩

lemma pruneEdges : SameShape m m.pruneEdges := by
  refine of_blocks rfl rfl rfl (fun b handles => ?_) (fun _ => block?_pruneEdges) (fun _ _ _ => rfl)
    fun _ block _ none => by simp [none]
  obtain ⟨trap, mem, h, handler, same⟩ := isHandler_iff.1 handles
  obtain ⟨⟨trap', mem', rfl⟩, -⟩ := mem_pruneEdges_traps.1 mem
  exact isHandler_iff.2 ⟨trap', mem', h, (mem_filter.1 handler).1, same⟩

lemma substitute (σ : Substitution) : SameShape m (m.substitute σ) := by
  refine of_blocks ?_ (substitute_layout m σ) (substitute_entry m σ) (fun b handles => ?_)
    (fun _ => block?_substitute σ) (fun b block _ => ?_) fun b block _ none => ?_
  · rw [Method.substitute]
    split <;> rfl
  · rwa [isHandler, substitute_traps] at handles
  · exact Terminator.successors_mapValues _ _
  · simp [Block.mapValues, none]

end SameShape

namespace Keeps

lemma refl (linked : m.Linked) : Keeps m m := (SameShape.refl m).keeps linked

lemma trans (first : Keeps m m') (second : Keeps m' m'') : Keeps m m'' where
  head := second.head.trans first.head
  linked := second.linked
  housed old := second.housed (first.housed old)
  phis b none := second.phis b (first.phis b none)

lemma shape (keeps : Keeps m m') (same : SameShape m' m'') : Keeps m m'' :=
  keeps.trans (same.keeps keeps.linked)

lemma removeUnreachable (linked : m.Linked) : Keeps m m.removeUnreachable.1 := by
  rw [removeUnreachable_eq]
  split
  · exact refl linked
  · have restricted : (m.restrict m.reachable).Linked := by
      refine ⟨linked.layout_nodup.filter _, fun b => ?_, fun b block t here leads => ?_⟩
      · rw [block?_restrict, restrict]
        by_cases kept : b ∈ m.reachable
        · simp [kept, linked.mem_layout b]
        · simp [kept]
      · rw [block?_restrict] at here ⊢
        split at here
        · rename_i kept
          have found := linked.targets b block t here leads
          rw [if_pos (reachable_searched.closed b kept t ⟨block, here, .inl leads⟩ found)]
          exact found
        · cases here
    have pruned := SameShape.pruneEdges.keeps restricted
    refine ⟨rfl, pruned.linked, fun old => ⟨?_, fun b handles => ?_⟩, fun b none =>
      pruned.phis b ?_⟩
    · rw [block?_pruneEdges_isSome, block?_restrict]
      exact (if_pos (reachable_searched.entry old.entry)).symm ▸ old.entry
    · obtain ⟨trap, mem, h, handler, rfl⟩ := isHandler_iff.1 handles
      obtain ⟨⟨trap', -, rfl⟩, -⟩ := mem_pruneEdges_traps.1 mem
      rw [block?_pruneEdges_isSome]
      simpa using (mem_filter.1 handler).2
    · rw [phisOf, block?_restrict]
      split
      · exact none
      · rfl

end Keeps

end Restack.Ir.Method

namespace Restack.Pass

open List Ir
open Ir.Method
open Outcome

variable {m m' : Method}

/-! ## Jumps and dead code -/

lemma bypass_head (m : Method) (b target : BlockId) (sources : List BlockId) :
    (bypass m b target sources).head = m.head := by
  refine foldlRecOn (motive := fun n : Method => n.head = m.head) sources _ rfl
    fun n old source _ => ?_
  exact old

lemma Drops.keeps {gone g} (drops : Drops gone g m m') (head : m'.head = m.head) (linked : m'.Linked)
    (bare : ∀ c block, block.phis = [] → (g c block).phis = []) : Keeps m m' := by
  refine ⟨head, linked, fun old => ⟨drops.entry_isSome.trans old.entry, fun c handles => ?_⟩,
    fun c none => ?_⟩
  · rw [isHandler, drops.traps] at handles
    have other : c ≠ gone := by
      rintro rfl
      exact Bool.false_ne_true (drops.plain.symm.trans handles)
    rw [drops.isSome other]
    exact old.handlers c handles
  · rw [phisOf, drops.blocks]
    split
    · rfl
    · cases here : m.block? c with
      | none => rfl
      | some block =>
        rw [phisOf_eq here] at none
        exact bare c block none

lemma skip_keeps {b target sources} (can : Skippable m b target sources) (linked : m.Linked) :
    Keeps m (skip m b target sources) := by
  exact ((can.drops linked).keeps (bypass_head ..) (can.bypass_linked linked) fun c block none => by
    simp [bypassed, none]).shape .pruneEdges

lemma glue_keeps {b next absorbed} (can : Gluable m b next absorbed)
    (linked : m.Linked) : Keeps m (glue m b next absorbed) :=
  can.drops.keeps rfl (can.glue_linked linked) fun c block none => by simp [Gluable.glued, none]

lemma cleanLabels_keeps (linked : m.Linked) : Keeps m (cleanLabels m).1 :=
  cleanLabels_preserves (P := Keeps m)
    (fun _ _ _ _ keeps _ can => keeps.trans (skip_keeps can keeps.linked))
    (fun _ _ _ _ keeps _ can => keeps.trans (glue_keeps can keeps.linked)) (.refl linked)

lemma removeDead_keeps (linked : m.Linked) : Keeps m (removeDead m).1 := by
  rw [removeDead_fst]
  refine ((Keeps.removeUnreachable linked).shape .pruneEdges).shape (.mapBlocks (fun _ _ => rfl) ?_)
  intro b block none
  simp [none]

/-! ## Copies and constants -/

lemma extract_shape (pick : Stmt → Option (Local × Value)) : SameShape m (extract m pick).1 :=
  SameShape.mapStmts fun _ block => block.stmts.filter fun s => (pick s).isNone

lemma dropRound_shape (σ : Substitution) : SameShape m (dropRound m σ).1 := by
  refine foldlRecOn (motive := fun s : Method × Substitution => SameShape m s.1) m.numbered
    dropStep (b := (m, σ)) (.refl m) fun s same e mem => ?_
  refine same.setBlock (mem_numbered.1 mem) rfl fun none => ?_
  simp [none, dropPhis]

lemma dropRounds_shape (fuel : Nat) (σ : Substitution) : SameShape m (dropRounds fuel m σ).1 :=
  dropRounds_preserves (P := fun n _ => SameShape m n)
    (fun _ σ same => same.trans (dropRound_shape σ)) fuel (.refl m)

lemma removeCopies_shape : SameShape m (removeCopies m).1 := by
  rw [removeCopies]
  exact ((extract_shape _).trans (dropRounds_shape _ _)).trans (.substitute _)

lemma removeConstants_shape : SameShape m (removeConstants m).1 := by
  exact (extract_shape _).trans (.substitute _)

/-! ## Null references -/

lemma mapTypedUses_shape (g : Value → Option Ty → Value) : SameShape m (m.mapTypedUses g) :=
  .mapBlocks (fun _ _ => Terminator.successors_withValues _ _) fun _ _ none => none

lemma placeNulls_shape : SameShape m (placeNulls m).1 := by
  rw [placeNulls_fst]
  refine (mapTypedUses_shape _).trans (.mapBlocks (fun _ _ => successors_withNulls _ _) ?_)
  simp

lemma Cut.keeps {b block} (cut : Cut m m' b block) (linked : m.Linked) : Keeps m m' := by
  refine ⟨cut.head, ⟨cut.layout ▸ linked.layout_nodup, fun c => ?_, fun c found t here leads => ?_⟩,
    fun old => ⟨?_, fun c handles => ?_⟩, fun c none => ?_⟩
  · rw [cut.layout, cut.isSome_eq]
    exact linked.mem_layout c
  · rw [cut.isSome_eq]
    by_cases same : c = b
    · subst same
      cases here.symm.trans cut.block?_self
      cases leads
    · exact linked.targets c found t (cut.block?_ne same ▸ here) leads
  · rw [cut.isSome_eq, cut.entry]
    exact old.entry
  · rw [cut.isSome_eq]
    rw [isHandler, cut.traps] at handles
    exact old.handlers c handles
  · by_cases same : c = b
    · subst same
      rw [phisOf_eq cut.block?_self]
      exact phisOf_eq cut.here ▸ none
    · rw [phisOf, cut.block?_ne same]
      exact none

lemma cutAll_keeps (linked : m.Linked) (bs : List BlockId) : Keeps m (cutAll m bs).1 :=
  cutAll_preserves (P := Keeps m) (fun _ _ _ _ keeps cut => keeps.trans (cut.keeps keeps.linked))
    (.refl linked) bs

lemma throwOnNull_keeps (linked : m.Linked) : Keeps m (throwOnNull m).1 := by
  have all := cutAll_keeps linked m.layout
  rw [throwOnNull_fst]
  split
  · exact (all.trans (.removeUnreachable all.linked)).shape .pruneEdges
  · exact all

/-! ## Objects and arrays -/

lemma constructObjects_shape : SameShape m (constructObjects m).1 := by
  refine constructObjects_preserves (P := fun n => SameShape m n) ?_ (.refl m)
  intro n n' edges b i same made
  obtain ⟨block, target, l, type, s, site, -, -, -, -, -, rfl⟩ := constructAt?_made made
  exact same.trans ((SameShape.modifyStmts _).trans (.modifyStmts _))

lemma fillArrays_shape {changed} (made : fillArrays m = .ok (m', changed)) : SameShape m m' := by
  refine fillArrays_preserves (P := fun n => SameShape m n) ?_ (.refl m) made
  intro n b block stmts same here _
  exact same.trans ((SameShape.refl n).setBlock here rfl fun none => none)

/-! ## Phis as copies -/

lemma spreadPhis_shape (b : BlockId) (phis : List Phi) : SameShape m (spreadPhis b m phis).2 := by
  induction phis generalizing m with
  | nil => exact .refl m
  | cons p phis ih =>
    have spread : SameShape m (spreadPhi b m p).2 :=
      foldlRecOn (motive := fun n : Method => SameShape m n) p.operands _
        (b := m.freshLocal.2) .freshLocal fun _ same o _ => same.trans (.modifyStmts _)
    exact spread.trans ih

lemma replacePhisOf_shape (b : BlockId) : SameShape m (replacePhisOf m b).1 ∧
    (replacePhisOf m b).1.phisOf b = [] := by
  rw [replacePhisOf]
  split
  · rename_i absent
    exact ⟨.refl m, by simp [phisOf, absent]⟩
  · rename_i block here
    split
    · rename_i none
      exact ⟨.refl m, (phisOf_eq here).trans (isEmpty_iff.1 none)⟩
    · have bare : SameShape m (m.setBlock b { block with phis := [] }) :=
        (SameShape.refl m).setBlock here rfl fun _ => rfl
      have spread : SameShape (m.setBlock b { block with phis := [] }) _ :=
        (spreadPhis_shape b block.phis).trans (.modifyStmts (b := b)
          fun found => insertHeads (spreadPhis b (m.setBlock b { block with phis := [] }) block.phis).1
            found.stmts)
      refine ⟨bare.trans spread, spread.phis b ?_⟩
      have inside := index_lt_of_block? here
      rw [phisOf, block?_setBlock inside, if_pos rfl]
      rfl

/-- Phis are gone from the blocks of the layout. -/
lemma replacePhis_bare : SameShape m (replacePhis m).1 ∧ ∀ b ∈ m.layout, (replacePhis m).1.phisOf b = [] := by
  have walk (bs : List BlockId) (state : Method × Bool) :
      SameShape state.1 (bs.foldl replaceStep state).1 ∧
        ∀ b ∈ bs, (bs.foldl replaceStep state).1.phisOf b = [] := by
    induction bs generalizing state with
    | nil => exact ⟨.refl _, by simp⟩
    | cons b bs ih =>
      obtain ⟨step, bare⟩ := replacePhisOf_shape (m := state.1) b
      obtain ⟨later, rest⟩ := ih (replaceStep state b)
      exact ⟨step.trans later, forall_mem_cons.2 ⟨later.phis b bare, rest⟩⟩
  exact walk m.layout (m, false)

/-! ## Reflective allocations, calls without a result, types -/

lemma foldReflection_shape : SameShape m (foldReflection m).1 := by
  rw [foldReflection_eq]
  exact .mapStmts _

lemma splitVoidCalls_shape : SameShape m (splitVoidCalls m).1 := by
  exact SameShape.mapStmts fun _ block => block.stmts.flatMap _

lemma inferTypes_shape : SameShape m (inferTypes m).1 := by
  have typed : SameShape m (withTypes m) := by
    rw [withTypes_retyped.same]
    exact ⟨rfl, rfl, rfl, fun _ => id, fun _ => rfl, fun _ => rfl, fun _ h => h⟩
  have flows : SameShape (withTypes m) (typeFlows (withTypes m)) :=
    .mapBlocks (fun _ _ => rfl) fun _ _ none => by simp [none]
  exact (typed.trans flows).trans (mapTypedUses_shape _)

/-! ## Every pass -/

lemma keeps_shape {p : Pass} {changed} (linked : m.Linked)
    (run : p.apply m = .ok (m', changed)) : Keeps m m' := by
  have result {r : Method × Bool} := apply_made (r := r) run
  cases p with
  | fillArray => exact (fillArrays_shape (apply_ok.1 run)).keeps linked
  | cleanLabel => exact result rfl ▸ cleanLabels_keeps linked
  | deadCode => exact result rfl ▸ removeDead_keeps linked
  | removeLocal => exact result rfl ▸ removeCopies_shape.keeps linked
  | removeConstant => exact result rfl ▸ removeConstants_shape.keeps linked
  | zero => exact result rfl ▸ placeNulls_shape.keeps linked
  | npe => exact result rfl ▸ throwOnNull_keeps linked
  | newObject => exact result rfl ▸ constructObjects_shape.keeps linked
  | unssa => exact result rfl ▸ replacePhis_bare.1.keeps linked
  | multiArray => exact result rfl ▸ foldReflection_shape.keeps linked
  | voidInvoke => exact result rfl ▸ splitVoidCalls_shape.keeps linked
  | typeInfer => exact result rfl ▸ inferTypes_shape.keeps linked

end Restack.Pass
