/-
# Lowering methods that differ in one callee

The callee of a call shows in the code of that call and nowhere else: live locals, slots and
labels of methods that are alike are the same, and so are their exception tables, and their code
differs exactly in those calls (`lower_alike`).
-/
import Restack.Lowering.Lower
import Restack.Proofs.Ir.Alike
import Restack.Proofs.Outcome

namespace Restack.Lowering

open List Ir
open Outcome
open Register (MethodRef)
open Signature (internalName)
open Stack (Instruction)

variable {d d' : MethodRef} {swapped : BlockId → Bool} {m : Method} {blocks : Array (Option Block)}

section Analyses

variable {flag : Bool} {stmts stmts' : List Stmt}

/-! ## Live locals -/

lemma liveAlong_alike (alike : Alike (Stmt.Recalled d d') flag stmts stmts')
    (handlers atEnd : LocalSet) : liveAlong handlers atEnd stmts = liveAlong handlers atEnd stmts' := by
  induction alike with
  | nil => rfl
  | same s _ ih => simp only [liveAlong, ih]
  | swap calls _ ih =>
    simp only [liveAlong, liveBefore, ih, calls.def?_eq, calls.values_eq, calls.canThrow_eq]

lemma conflictsAlong_alike (alike : Alike (Stmt.Recalled d d') flag stmts stmts')
    (after : List LocalSet) : conflictsAlong stmts after = conflictsAlong stmts' after := by
  induction alike generalizing after with
  | nil => rfl
  | same s _ ih =>
    cases after with
    | nil => rfl
    | cons live after => simp only [conflictsAlong, ih]
  | swap calls _ ih =>
    cases after with
    | nil => rfl
    | cons live after => simp only [conflictsAlong, ih, calls.def?_eq]

variable (alike : m.Alike d d' swapped blocks)
include alike

lemma blockLiveness_alike {b block block'}
    (same : Block.Alike d d' (swapped b) block block') (live : LiveIn) :
    blockLiveness m live b block = blockLiveness { m with blocks := blocks } live b block' := by
  unfold blockLiveness
  rw [alike.exceptionalSuccessors_eq, alike.successors_eq, same.terminator, liveAlong_alike same.stmts]

lemma livenessRound_alike (live : LiveIn) :
    livenessRound m live = livenessRound { m with blocks := blocks } live := by
  unfold livenessRound
  congr 1
  funext state b
  rcases alike.cases b with ⟨here, there⟩ | ⟨block, block', here, there, same⟩
  · simp only [here, there]
  · simp only [here, there, blockLiveness_alike alike same]

lemma liveIn_alike : liveIn m = liveIn { m with blocks := blocks } := by
  have rounds (fuel : Nat) (live : LiveIn) :
      livenessWith m fuel live = livenessWith { m with blocks := blocks } fuel live := by
    induction fuel generalizing live with
    | zero => rfl
    | succ fuel ih => simp only [livenessWith, livenessRound_alike alike, ih]
  unfold liveIn
  rw [rounds, alike.size]

/-! ## Slots -/

lemma conflicts_alike : conflicts m = conflicts { m with blocks := blocks } := by
  unfold conflicts
  rw [← liveIn_alike alike]
  dsimp only
  congr 2
  funext b
  rcases alike.cases b with ⟨here, there⟩ | ⟨block, block', here, there, same⟩
  · simp only [here, there]
  · simp only [here, there, blockLiveness_alike alike same, conflictsAlong_alike same.stmts]

omit alike in
lemma stmtLocals_recalled {s t : Stmt} (calls : Stmt.Recalled d d' s t) : stmtLocals s = stmtLocals t := by
  rw [stmtLocals, stmtLocals, calls.def?_eq, calls.values_eq]

lemma appearances_alike : appearances m = appearances { m with blocks := blocks } := by
  have along (bs : List BlockId) :
      ((bs.filterMap m.block?).flatMap fun block =>
        block.stmts.flatMap stmtLocals ++ localsOf block.terminator.values) =
      (bs.filterMap { m with blocks := blocks }.block?).flatMap fun block =>
        block.stmts.flatMap stmtLocals ++ localsOf block.terminator.values := by
    induction bs with
    | nil => rfl
    | cons b bs ih =>
      rcases alike.cases b with ⟨here, there⟩ | ⟨block, block', here, there, same⟩
      · simp only [filterMap_cons, here, there, ih]
      · have locals := same.stmts.flatMap_eq fun _ _ => stmtLocals_recalled
        simp only [filterMap_cons, here, there, flatMap_cons, ih, locals, same.terminator]
  exact along m.layout

omit alike in
lemma pinParam_recalled {s t : Stmt} (calls : Stmt.Recalled d d' s t) (offsets : Array Nat)
    (slots : Slots) : pinParam offsets slots s = pinParam offsets slots t := by
  obtain ⟨dst, args, rfl, rfl⟩ := calls
  rfl

lemma pinParams_alike : pinParams m = pinParams { m with blocks := blocks } := by
  have statements {flag : Bool} {stmts stmts' : List Stmt}
      (alike : Alike (Stmt.Recalled d d') flag stmts stmts') (offsets : Array Nat) (slots : Slots) :
      stmts.foldlM (pinParam offsets) slots = stmts'.foldlM (pinParam offsets) slots := by
    induction alike generalizing slots with
    | nil => rfl
    | same s _ ih => simp only [foldlM_cons, ih]
    | swap calls _ ih => simp only [foldlM_cons, pinParam_recalled calls, ih]
  unfold pinParams
  dsimp only
  congr 1
  funext slots b
  rcases alike.cases b with ⟨here, there⟩ | ⟨block, block', here, there, same⟩
  · simp only [here, there]
  · simp only [here, there, same.phis, statements same.stmts]

lemma assignSlots_alike : assignSlots m = assignSlots { m with blocks := blocks } := by
  unfold assignSlots
  rw [pinParams_alike alike, conflicts_alike alike, appearances_alike alike]
  rfl

end Analyses

/-! ## Statements -/

/-- The calls of two methods in stack code. -/
def Recalled (d d' : MethodRef) (x y : Instruction) : Prop :=
  x = .method .invokestatic (internalName d.owner) d.name d.descriptor false ∧
    y = .method .invokestatic (internalName d'.owner) d'.name d'.descriptor false

section Code

variable {slots : Slots} {positions : Array (Option Nat)}

lemma stmtCode_blocks (blocks : Array (Option Block)) (s : Stmt) :
    stmtCode ⟨m, slots, positions⟩ s = stmtCode ⟨{ m with blocks := blocks }, slots, positions⟩ s := by
  cases s <;> rfl

lemma stmtCode_recalled {f s t} (calls : Stmt.Recalled d d' s t) :
    Both (Alike (Recalled d d') true) (stmtCode f s) (stmtCode f t) := by
  obtain ⟨dst, args, rfl, rfl⟩ := calls
  have call : Both (Alike (Recalled d d') true) (exprCode f (.invoke .static d args))
      (exprCode f (.invoke .static d' args)) :=
    .bind_same (args.mapM (load f)) fun pushes =>
      .ok ((Alike.refl pushes).append (.swap ⟨rfl, rfl⟩ .nil))
  exact call.bind fun _ _ code => .bind_same (store f dst) fun last => .ok (code.append (.refl [last]))

lemma stmtsCode_cons (f : Frame) (s : Stmt) (stmts : List Stmt) : stmtsCode f (s :: stmts) =
      stmtCode f s >>= fun code => stmtsCode f stmts >>= fun later => .ok (code ++ later) := by
  unfold stmtsCode
  rw [mapM_cons]
  cases stmtCode f s with
  | error e => rfl
  | ok code => cases stmts.mapM (stmtCode f) <;> rfl

lemma stmtsCode_alike {flag stmts stmts'} (alike : Alike (Stmt.Recalled d d') flag stmts stmts') :
    Both (Alike (Recalled d d') flag) (stmtsCode ⟨m, slots, positions⟩ stmts)
      (stmtsCode ⟨{ m with blocks := blocks }, slots, positions⟩ stmts') := by
  induction alike with
  | nil => exact .ok .nil
  | same s _ ih =>
    rw [stmtsCode_cons, stmtsCode_cons, stmtCode_blocks blocks]
    exact .bind_same _ fun code => ih.bind fun _ _ later => .ok ((Alike.refl code).append later)
  | swap calls _ ih =>
    rw [stmtsCode_cons, stmtsCode_cons, stmtCode_blocks blocks]
    exact (stmtCode_recalled calls).bind fun _ _ first => ih.bind fun _ _ later => .ok (first.append later)

/-! ## Blocks -/

lemma handlerEntry_alike {flag stmts stmts'} (position : Nat)
    (alike : Alike (Stmt.Recalled d d') flag stmts stmts') :
    Both (fun x y => x.1 = y.1 ∧ Alike (Stmt.Recalled d d') flag x.2 y.2)
      (handlerEntry ⟨m, slots, positions⟩ position stmts)
      (handlerEntry ⟨{ m with blocks := blocks }, slots, positions⟩ position stmts') := by
  cases alike with
  | nil => exact .ok ⟨rfl, .nil⟩
  | @same _ stmts stmts' s rest =>
    by_cases caught : ∃ dst, s = .assign dst .caught
    · obtain ⟨dst, rfl⟩ := caught
      exact .bind_same (store ⟨m, slots, positions⟩ dst) fun _ => .ok ⟨rfl, rest⟩
    · have plain (f : Frame) (stmts : List Stmt) : handlerEntry f position (s :: stmts) =
          .ok ([.label (exceptionLabel position), .simple .pop], s :: stmts) := by
        unfold handlerEntry
        split
        · rename_i same
          cases same
          exact absurd ⟨_, rfl⟩ caught
        · rfl
      rw [plain, plain]
      exact .ok ⟨rfl, rest.same s⟩
  | swap calls rest =>
    obtain ⟨dst, args, rfl, rfl⟩ := calls
    exact .ok ⟨rfl, rest.swap ⟨dst, args, rfl, rfl⟩⟩

/-- Codes of blocks that differ in calls only. -/
structure BlockCode.Alike (d d' : MethodRef) (flag : Bool) (c c' : BlockCode) : Prop where
  entry : c.entry = c'.entry
  guarded : c.guarded = c'.guarded
  parts : ∃ before behind, flag = (before || behind) ∧
    Restack.Alike (Recalled d d') before c.calm c'.calm ∧
    Restack.Alike (Recalled d d') behind c.rest c'.rest

lemma BlockCode.Alike.hasCalm_eq {flag c c'}
    (alike : BlockCode.Alike d d' flag c c') : c.hasCalm = c'.hasCalm := by
  obtain ⟨before, behind, -, calm, -⟩ := alike.parts
  have lengths := calm.length_eq
  have empty : c.calm.isEmpty = c'.calm.isEmpty := by
    rw [Bool.eq_iff_iff, isEmpty_iff_length_eq_zero, isEmpty_iff_length_eq_zero, lengths]
  rw [BlockCode.hasCalm, BlockCode.hasCalm, alike.guarded, empty]

lemma BlockCode.Alike.instructions {flag c c'} (alike : BlockCode.Alike d d' flag c c') (position : Nat) :
    Restack.Alike (Recalled d d') flag (c.instructions position) (c'.instructions position) := by
  obtain ⟨before, behind, rfl, calm, rest⟩ := alike.parts
  have start := (Alike.refl (S := Recalled d d') (c'.entry ++ [.label (startLabel position)])).append calm
  have throws := start.append (.refl (if c'.guarded then [.label (throwsLabel position)] else []))
  have whole := (throws.append rest).append (.refl [.label (endLabel position)])
  simpa [BlockCode.instructions, alike.entry, alike.guarded] using whole

section Layout

variable (alike : m.Alike d d' swapped blocks)
include alike

lemma blockCode_alike (b : BlockId) (position : Nat) (next : Option BlockId) :
    Both (BlockCode.Alike d d' (swapped b)) (blockCode ⟨m, slots, positions⟩ b position next)
      (blockCode ⟨{ m with blocks := blocks }, slots, positions⟩ b position next) := by
  unfold blockCode
  rcases alike.cases b with ⟨here, there⟩ | ⟨block, block', here, there, same⟩
  · simp only [here, there]
    exact .error _
  · simp only [here, there]
    have guarded : isGuarded m b block = isGuarded { m with blocks := blocks } b block' := by
      unfold isGuarded
      rw [same.canThrow_eq]
      rfl
    -- Both ways into a block, by its handler entry and by its start, go on alike.
    have proper {entry entry' : List Instruction} {stmts stmts' : List Stmt} (first : entry = entry')
        (alike : Alike (Stmt.Recalled d d') (swapped b) stmts stmts') :
        Both (BlockCode.Alike d d' (swapped b))
          (stmtsCode ⟨m, slots, positions⟩ (stmts.takeWhile (!Stmt.canThrow ·)) >>= fun calm =>
            stmtsCode ⟨m, slots, positions⟩ (stmts.dropWhile (!Stmt.canThrow ·)) >>= fun rest =>
            terminatorCode ⟨m, slots, positions⟩ next block.terminator >>= fun ending =>
            .ok ⟨entry, calm, rest ++ ending, isGuarded m b block⟩ : Except Failure BlockCode)
          (stmtsCode ⟨{ m with blocks := blocks }, slots, positions⟩
              (stmts'.takeWhile (!Stmt.canThrow ·)) >>= fun calm =>
            stmtsCode ⟨{ m with blocks := blocks }, slots, positions⟩
              (stmts'.dropWhile (!Stmt.canThrow ·)) >>= fun rest =>
            terminatorCode ⟨{ m with blocks := blocks }, slots, positions⟩ next block'.terminator >>=
              fun ending => .ok ⟨entry', calm, rest ++ ending,
                isGuarded { m with blocks := blocks } b block'⟩) := by
      obtain ⟨before, behind, parts, calm, rest⟩ := alike.span (p := (!Stmt.canThrow ·))
        fun _ _ calls => by rw [calls.canThrow_eq]
      refine (stmtsCode_alike calm).bind fun _ _ calm => (stmtsCode_alike rest).bind fun _ _ rest => ?_
      rw [same.terminator]
      exact .bind_same _ fun ending => .ok ⟨first, guarded, before, behind || false,
        by simpa using parts, calm, rest.append (.refl ending)⟩
    by_cases handler : m.isHandler b = true
    · have handler' : ({ m with blocks := blocks } : Method).isHandler b = true := handler
      rw [if_pos handler, if_pos handler']
      refine (handlerEntry_alike position same.stmts).bind ?_
      rintro ⟨entry, stmts⟩ ⟨entry', stmts'⟩ ⟨first, alike⟩
      exact (proper first alike).mapError _
    · have handler' : ¬ ({ m with blocks := blocks } : Method).isHandler b = true := handler
      rw [if_neg handler, if_neg handler']
      exact (proper rfl same.stmts).mapError _

/-- Codes of the blocks of a layout, each alike. -/
inductive CodesAlike (d d' : MethodRef) (swapped : BlockId → Bool) :
    List BlockId → List BlockCode → List BlockCode → Prop
  | nil : CodesAlike d d' swapped [] [] []
  | cons {b bs c c' cs cs'}
      (first : BlockCode.Alike d d' (swapped b) c c') (rest : CodesAlike d d' swapped bs cs cs') :
      CodesAlike d d' swapped (b :: bs) (c :: cs) (c' :: cs')

lemma blockCodes_alike (position : Nat) (bs : List BlockId) :
    Both (CodesAlike d d' swapped bs) (blockCodes ⟨m, slots, positions⟩ position bs)
      (blockCodes ⟨{ m with blocks := blocks }, slots, positions⟩ position bs) := by
  induction bs generalizing position with
  | nil => exact .ok .nil
  | cons b bs ih =>
    exact (blockCode_alike alike b position bs.head?).bind fun _ _ first =>
      (ih (position + 1)).bind fun _ _ rest => .ok (.cons first rest)

end Layout

lemma CodesAlike.hasCalm_eq {bs cs cs'}
    (alike : CodesAlike d d' swapped bs cs cs') : cs.map BlockCode.hasCalm = cs'.map BlockCode.hasCalm := by
  induction alike with
  | nil => rfl
  | cons first _ ih => rw [map_cons, map_cons, first.hasCalm_eq, ih]

lemma CodesAlike.instructions {bs : List BlockId} {cs cs' : List BlockCode}
    (alike : CodesAlike d d' swapped bs cs cs') (position : Nat) : Alike (Recalled d d') (bs.any swapped)
      ((cs.zipIdx position).map fun (c, i) => c.instructions i).flatten
      ((cs'.zipIdx position).map fun (c, i) => c.instructions i).flatten := by
  induction alike generalizing position with
  | nil => exact .nil
  | cons first _ ih =>
    exact (first.instructions position).append (ih (position + 1))

end Code

/-! ## Methods -/

lemma guardedPositions_alike {d d' swapped m blocks} (alike : m.Alike d d' swapped blocks) (t : Trap) :
    guardedPositions m t = guardedPositions { m with blocks := blocks } t := by
  unfold guardedPositions
  congr 1
  funext bi
  rcases alike.cases bi.1 with ⟨here, there⟩ | ⟨block, block', here, there, same⟩
  · simp only [here, there]
  · simp only [here, there, Option.any_some, same.canThrow_eq]

/-- Lowering fails alike, or it gives code that differs in the calls only. -/
lemma lower_alike {d d' swapped m blocks} (alike : m.Alike d d' swapped blocks) :
    Both (fun body body' => body.tryCatches = body'.tryCatches ∧
        Alike (Recalled d d') (m.layout.any swapped) body.instructions body'.instructions)
      (lower m) (lower { m with blocks := blocks }) := by
  unfold lower
  rw [← assignSlots_alike alike]
  refine .bind_same _ fun slots => ?_
  have positions : layoutPositions m = layoutPositions { m with blocks := blocks } := by
    unfold layoutPositions
    rw [← alike.size]
  rw [frameOf, frameOf, ← positions]
  refine (blockCodes_alike alike 0 m.layout).bind fun codes codes' same => .ok ⟨?_, same.instructions 0⟩
  dsimp only
  rw [same.hasCalm_eq]
  congr 1
  funext t
  unfold trapEntries
  rw [guardedPositions_alike alike]
  rfl

end Restack.Lowering
