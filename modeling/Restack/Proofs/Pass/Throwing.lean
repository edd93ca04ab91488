/-
# Passes and where blocks throw

Up to the making of array literals no pass puts a second place that throws into
a block under a trap (`Pass.keeps_throwsOnce`). Most passes leave such a block
calmer than it was, whatever it was. Array literals need more: an allocation
throws, so under a trap nothing follows it and there is nothing to collect.
-/
import Restack.Proofs.Ir.Throwing
import Restack.Proofs.Pass.Copies
import Restack.Proofs.Pass.DeadCode
import Restack.Proofs.Pass.Joining
import Restack.Proofs.Pass.Labels
import Restack.Proofs.Pass.Null
import Restack.Proofs.Pass.Pipeline

namespace Restack.Pass

open List Ir
open Ir.Method (Calmer)
open Outcome

variable {m m' : Method}

lemma skip_calmer (b target : BlockId) (sources : List BlockId) : (skip m b target sources).Calmer m := by
  have retargeted : (sources.foldl (fun m source => m.modifyBlock source fun block =>
      { block with terminator := block.terminator.retarget b target }) m).Calmer m := by
    induction sources generalizing m with
    | nil => exact .refl m
    | cons source sources ih =>
      refine ih.trans (.modifyBlock fun _ block _ => ?_)
      exact ⟨isThrow_retarget _ _ _, .refl _⟩
  refine (Calmer.pruneEdges.trans .eraseBlock).trans (.trans ?_ retargeted)
  exact .modifyBlock fun _ block _ => ⟨rfl, .refl _⟩

lemma glue_calmer {b next absorbed} (can : Gluable m b next absorbed) :
    (glue m b next absorbed).Calmer m := by
  rw [glue]
  refine .trans (.mapBlocks fun _ block => ⟨rfl, .refl _⟩) (.trans (.modifyBlock ?_) .eraseBlock)
  intro covered
  have same : (m.eraseBlock next).isCovered b = m.isCovered b := rfl
  rw [same, can.uncovered] at covered
  cases covered

lemma cleanLabels_calmer : (cleanLabels m).1.Calmer m :=
  cleanLabels_preserves (P := (·.Calmer m))
    (fun _ b target sources calmer _ _ => (skip_calmer b target sources).trans calmer)
    (fun _ _ _ _ calmer _ can => (glue_calmer can).trans calmer) (.refl m)

lemma trimmed_sublist (live : Local → Bool) (stmts : List Stmt) :
    ((stmts.filterMap (trimmed live)).map Stmt.canThrow).Sublist (stmts.map Stmt.canThrow) := by
  induction stmts with
  | nil => exact .slnil
  | cons s stmts ih =>
    rw [filterMap_cons]
    cases kept : trimmed live s with
    | none => exact ih.cons _
    | some s' =>
      rw [map_cons, trimmed_canThrow.2 s' kept]
      exact ih.cons_cons _

lemma removeDead_calmer : (removeDead m).1.Calmer m := by
  rw [removeDead_fst]
  refine .trans (.mapBlocks fun _ block => ?_) (Calmer.pruneEdges.trans .removeUnreachable)
  exact ⟨rfl, trimmed_sublist _ _⟩

lemma extract_calmer (pick : Stmt → Option (Local × Value)) : (extract m pick).1.Calmer m := by
  simp only [extract]
  refine .mapBlocks fun _ _ => ?_
  exact ⟨rfl, filter_sublist.map _⟩

lemma dropRound_calmer (σ : Substitution) : (dropRound m σ).1.Calmer m := by
  -- each block is put back as it was found at the start, but for its phis
  refine (foldlRecOn (motive := fun s => s.1.Calmer m ∧ s.1.blocks.size = m.blocks.size ∧
    s.1.traps = m.traps) m.numbered dropStep (b := (m, σ)) ⟨.refl m, rfl, rfl⟩ fun s kept e mem => ?_).1
  obtain ⟨calmer, size, traps⟩ := kept
  have at_ := Method.mem_numbered.1 mem
  refine ⟨.of_same_traps traps fun c block' covered at' => ?_,
    by simpa [dropStep, Method.setBlock] using size, traps⟩
  rw [dropStep, Method.block?_setBlock (size ▸ Method.index_lt_of_block? at_)] at at'
  split at at'
  · rename_i same
    cases at'
    exact ⟨e.2, same ▸ at_, rfl, .refl _⟩
  · refine calmer.blocks c block' ?_ at'
    rw [Method.isCovered, traps]
    exact covered

lemma dropRounds_calmer (fuel : Nat) (σ : Substitution) : (dropRounds fuel m σ).1.Calmer m :=
  dropRounds_preserves (P := fun n _ => n.Calmer m)
    (fun _ σ calmer => (dropRound_calmer σ).trans calmer) fuel (.refl m)

lemma removeCopies_calmer : (removeCopies m).1.Calmer m := by
  rw [removeCopies]
  exact (Calmer.substitute _).trans ((dropRounds_calmer _ _).trans (extract_calmer _))

lemma removeConstants_calmer : (removeConstants m).1.Calmer m := by
  exact (Calmer.substitute _).trans (extract_calmer _)

lemma placeNulls_calmer : (placeNulls m).1.Calmer m := by
  rw [placeNulls_fst, nullExpected]
  refine .trans (.mapBlocks fun _ block => ?_) (.mapBlocks fun _ block => ?_)
  · exact ⟨isThrow_withNulls _ _, .refl _⟩
  · refine ⟨Terminator.isThrow_withValues _ _, ?_⟩
    simp [Function.comp_def]

lemma cutAtNull_calmer (b : BlockId) : (cutAtNull m b).1.Calmer m := by
  rw [cutAtNull]
  split
  · exact .refl m
  · rename_i block at_
    split
    · exact .refl m
    · rename_i cut
      simp only [Bool.or_eq_true, not_or, Bool.not_eq_true] at cut
      have fresh : m.freshLocal.2.Calmer m :=
        ⟨fun _ h => h, fun _ block _ at_ => ⟨block, at_, .refl block⟩⟩
      refine .trans (.setBlock (Method.index_lt_of_block? at_) ?_) fresh
      intro covered
      have same : m.freshLocal.2.isCovered b = m.isCovered b := rfl
      rw [same, cut.1] at covered
      cases covered

lemma throwOnNull_calmer : (throwOnNull m).1.Calmer m := by
  have calmer : (cutAll m m.layout).1.Calmer m :=
    foldlRecOn (motive := fun s : Method × Bool => s.1.Calmer m) m.layout _ (.refl m)
      fun s calmer b _ => (cutAtNull_calmer b).trans calmer
  rw [throwOnNull_fst]
  split
  · exact (Calmer.pruneEdges.trans .removeUnreachable).trans calmer
  · exact calmer

lemma constructorCall?_canThrow {l s call}
    (found : constructorCall? l s = some call) : s.canThrow = true := by
  unfold constructorCall? at found
  split at found
  · rfl
  · cases found

lemma map_set_canThrow {stmts : List Stmt} {i s s'} (at_ : stmts[i]? = some s)
    (same : s'.canThrow = s.canThrow) : (stmts.set i s').map Stmt.canThrow = stmts.map Stmt.canThrow := by
  obtain ⟨inside, rfl⟩ := List.getElem?_eq_some_iff.1 at_
  rw [map_set, same, ← getElem_map Stmt.canThrow (h := by simpa using inside)]
  exact set_getElem_self _

lemma constructAt?_calmer {edges b i} (made : constructAt? m edges b i = some m') : m'.Calmer m := by
  obtain ⟨block, target, l, type, s, site, -, -, behind, at_, call, rfl⟩ := constructAt?_made made
  refine .trans (.modifyBlock fun _ block _ => ?_) (.modifyBlock fun _ block' there => ?_)
  · exact ⟨rfl, (eraseIdx_sublist _ _).map _⟩
  · rw [behind] at there
    cases there
    refine ⟨rfl, ?_⟩
    rw [map_set_canThrow at_ (by rw [constructorCall?_canThrow call]; rfl)]

lemma constructObjects_calmer : (constructObjects m).1.Calmer m :=
  constructObjects_preserves (P := fun n => n.Calmer m)
    (fun _ _ _ _ _ calmer made => (constructAt?_calmer made).trans calmer) (.refl m)

lemma fillFirst_none {b} {stmts found : List Stmt}
    (calm : (stmts.map Stmt.canThrow).Pairwise fun first _ => first = false)
    (made : fillFirst m b stmts = .ok (some found)) : False := by
  obtain ⟨front, s, rest, a, vs, rfl, behind, sized, -, -⟩ := fillFirst_made made
  obtain ⟨c, rfl⟩ := sizedArray?_eq sized
  obtain ⟨next, rest, rfl⟩ := exists_cons_of_ne_nil behind
  rw [map_append, pairwise_append, map_cons, pairwise_cons] at calm
  cases calm.2.1.1 next.canThrow (by simp)

lemma fillArrays_throwsOnce {changed} (once : m.ThrowsOnce)
    (made : fillArrays m = .ok (m', changed)) : m'.ThrowsOnce := by
  refine fillArrays_preserves (fun n b block stmts once here filled => ?_) once made
  refine once.of_calmer (.setBlock (Method.index_lt_of_block? here) fun covered => ?_)
  exact (fillFirst_none (Block.throwsOnce_iff.1 (once b block covered here)).1 filled).elim

/-- The passes that run before phis are replaced. -/
def isEarly : Pass → Bool
  | unssa | multiArray | voidInvoke | typeInfer => false
  | _ => true

lemma keeps_throwsOnce {p : Pass} (early : p.isEarly = true) {changed}
    (once : m.ThrowsOnce) (run : p.apply m = .ok (m', changed)) : m'.ThrowsOnce := by
  rw [apply_ok] at run
  have by_calmer {result : Method × Bool} (calmer : result.1.Calmer m)
      (run : .ok result = (.ok (m', changed) : Except Failure (Method × Bool))) : m'.ThrowsOnce := by
    cases run
    exact once.of_calmer calmer
  cases p with
  | cleanLabel => exact by_calmer cleanLabels_calmer run
  | deadCode => exact by_calmer removeDead_calmer run
  | removeLocal => exact by_calmer removeCopies_calmer run
  | removeConstant => exact by_calmer removeConstants_calmer run
  | zero => exact by_calmer placeNulls_calmer run
  | npe => exact by_calmer throwOnNull_calmer run
  | newObject => exact by_calmer constructObjects_calmer run
  | fillArray => exact fillArrays_throwsOnce once run
  | unssa | multiArray | voidInvoke | typeInfer => cases early

end Restack.Pass
