/-
# What handlers find in the slots they load

An exception that is raised brings to its handler what the handler loads
(`handler_frames`, first part). A verifier asks for more: that every instruction in a
range of the exception table has in its slots what the handler of the range loads. A
range reaches behind the store of what the guarded statement gives and the copies for
the blocks that follow, and these have slots that need not be apart from what handlers
load.
-/
import Restack.Proofs.Lowering.Covering
import Restack.Proofs.SlotRuns

namespace Restack

open Ir
open Lowering
open Outcome
open Register (Code)
open Stack (Body Instruction)

variable {m n : Method} {slots : Slots}

lemma paramsFit_of_wellUsed (used : wellUsed n = true) : paramsFit n = true := by
  have typed := (WellUsed.of used).typed
  refine List.all_eq_true.2 fun s among => ?_
  unfold paramFits
  split
  · rename_i l i
    rw [Option.all_eq_true]
    intro d found
    rw [beq_iff_eq, ← width_category, typed l i d among found, width_category]
  · rfl

/-- Where a handler is entered, all holds that another handler loads before the entry
stores there. -/
def EntryHolds (f : Frame) (h b : BlockId) (code : List Instruction) : Prop :=
  ∀ slot k c, Loads f slot k (.entry h) → (∀ j ∈ code, Spares slot k j) → Flows f (.entry b) c →
    c.Holds slot k.width k

/-- Inside the guarded part of a block, behind some of its code, a slot holds what a
handler loads there if and only if that code settles it. -/
def GuardedHolds (f : Frame) (h b : BlockId) (block : Block) (since : List Instruction) : Prop :=
  ∀ slot k executed rest code done c, Loads f slot k (.entry h) →
    guardedPart (proper f.method b block) = executed ++ rest → stmtsCode f executed = .ok code →
    since = code ++ done → Flows f (.body b rest) c →
      ((c.run done).Holds slot k.width k ↔ Settles slot k since)

/-- What frames have to do with handlers. An exception that is raised finds what its
handler loads. In a range of the exception table stand labels, entries of handlers and
guarded parts of blocks. -/
structure Served (f : Frame) (body : Body) : Prop where
  code : (listing f).map (·.instruction) = body.instructions
  raised : ∀ h slot k c, Loads f slot k (.entry h) → Flows f (.entry h) c → c.Holds slot k.width k
  ranges : ∀ e ∈ body.tryCatches, ∃ h p, f.method.layout[p]? = some h ∧ e.handler = exceptionLabel p ∧
    ∀ i x, (listing f)[i]? = some x → covers body.instructions e i = true →
      x.part = .label ∨
      (∃ block code, AtEntry f i x.block block code ∧ EntryHolds f h x.block code) ∨
      ∃ block since, InGuarded f i x.block block since ∧ GuardedHolds f h x.block block since

/-- A handler finds what it loads; and in the ranges of the exception table too the
slots hold what the handler of the range loads, but for what the entry of a handler or
the guarded part of a block stores into them. -/
theorem handler_frames {method : Register.Method} {code : Code} {order : Lifting.ClosingOrder}
    {body : Body} (lifted : Lifting.lift method code order = .ok m) (run : Pipeline.standard.run m = .ok n)
    (lowered : lower n = .ok body) (used : wellUsed n = true) :
    ∃ slots, assignSlots n = .ok slots ∧ Served (frameOf n slots) body := by
  obtain ⟨slots, assigned, lowered⟩ := bind_ok.1 lowered
  obtain ⟨codes, made, lowered⟩ := bind_ok.1 lowered
  cases lowered
  obtain ⟨mark, pinned, fitted⟩ := standard_fitted lifted run assigned (paramsFit_of_wellUsed used)
  have used := WellUsed.of used
  have code := listingFrom_instructions made
  rw [← emitted_eq_flatten] at code
  refine ⟨slots, assigned, code, fun h slot k c loads flows => flows.holds fitted used loads, ?_⟩
  intro e member
  obtain ⟨t, trap, entry⟩ := List.mem_flatMap.1 member
  obtain ⟨-, h, handles, p, position, label⟩ := mem_trapEntries entry
  have place := position?_spec position
  have marks : ∀ n c, codes[n]? = some c →
      (codes.map BlockCode.hasCalm).toArray.getD n false = c.hasCalm := by
    intro n c found
    simp [Array.getD_eq_getD_getElem?, found]
  refine ⟨h.target, p, place, label, fun i x at_ hits => ?_⟩
  rw [← code] at hits
  have catches := catches_of_covers made at_ trap entry hits handles
  have listed := List.mem_of_getElem? place
  rcases covered_place made marks at_ trap entry hits with label | ⟨block, code, inside⟩ | ⟨block, since, inside⟩
  · exact .inl label
  · refine .inr (.inl ⟨block, code, inside, fun slot k c loads spared flows => ?_⟩)
    obtain ⟨_, stmts, _, _, -, here, entered, calm, -⟩ := inside
    exact flows.entry_holds fitted used here entered calm spared catches listed loads
  · refine .inr (.inr ⟨block, since, inside, ?_⟩)
    rintro slot k executed rest code done c loads part made rfl flows
    obtain ⟨_, _, _, _, _, _, -, here, -⟩ := inside
    exact flows.guarded_iff fitted used here part made catches listed loads

/-- A guarded call whose result shares the slot of what the handler returns, since the
handler needs nothing more behind the call; the range goes on to the jump. -/
def lateStore : Code where
  registers := 2
  instructions := [.invoke .static [] ⟨"LLate;", "kept", "()Ljava/lang/Object;"⟩, .moveResult .object 0,
    .mark ⟨"start"⟩, .invoke .static [] ⟨"LLate;", "count", "()I"⟩, .moveResult .single 1,
    .goto ⟨"next"⟩, .mark ⟨"stop"⟩, .mark ⟨"handler"⟩, .returnValue .object 0, .mark ⟨"next"⟩,
    .invoke .static [1] ⟨"LLate;", "use", "(I)V"⟩, .const 0 0, .returnValue .object 0]
  tries := [⟨⟨"start"⟩, ⟨"stop"⟩, [⟨none, ⟨"handler"⟩⟩]⟩]

def lateStoreMethod : Register.Method where
  access := 8
  ref := ⟨"LLate;", "run", "()Ljava/lang/Object;"⟩
  code := some lateStore

/-- What a block stores, where it leads and what its ending loads. -/
structure BlockView where
  stores : List (Option (Nat × Category))
  leads : List BlockId
  loads : List (Option (Nat × Category))
deriving DecidableEq

def blockView (f : Frame) (b : BlockId) : Option BlockView := do
  let block ← f.method.block? b
  let code ← (stmtsCode f (proper f.method b block)).toOption
  let ending ← (terminatorCode f none block.terminator).toOption
  some ⟨code.map stored?, block.terminator.successors, ending.map loaded?⟩

lemma blockView_some {f b view} (seen : blockView f b = some view) :
    ∃ block code ending, f.method.block? b = some block ∧ stmtsCode f (proper f.method b block) = .ok code ∧
      terminatorCode f none block.terminator = .ok ending ∧ code.map stored? = view.stores ∧
      block.terminator.successors = view.leads ∧ ending.map loaded? = view.loads := by
  obtain ⟨block, here, seen⟩ := Option.bind_eq_some_iff.1 seen
  obtain ⟨code, made, seen⟩ := Option.bind_eq_some_iff.1 seen
  obtain ⟨ending, ended, seen⟩ := Option.bind_eq_some_iff.1 seen
  cases seen
  exact ⟨block, code, ending, here, of_toOption made, of_toOption ended, rfl, rfl, rfl⟩

/-- At the jump the slot that the handler loads as a reference holds an int. -/
theorem lateStore_frames : ∃ m n body slots, Lifting.lift lateStoreMethod lateStore = .ok m ∧
    Pipeline.standard.run m = .ok n ∧ lower n = .ok body ∧ wellUsed n = true ∧
    assignSlots n = .ok slots ∧ Served (frameOf n slots) body ∧
    ∃ e ∈ body.tryCatches, e.handler = exceptionLabel 2 ∧ n.layout[2]? = some ⟨4⟩ ∧
      covers body.instructions e 8 = true ∧ Loads (frameOf n slots) 0 .ref (.entry ⟨4⟩) ∧
      ∃ c, Flows (frameOf n slots) (.body ⟨2⟩ []) c ∧ ¬ c.Holds 0 1 .ref := by
  have computed : (do
      let m ← Lifting.lift lateStoreMethod lateStore
      let n ← Pipeline.standard.run m
      let body ← lower n
      let slots ← assignSlots n
      .ok (wellUsed n && n.layout == [⟨0⟩, ⟨2⟩, ⟨4⟩, ⟨5⟩] && n.entry == ⟨0⟩ &&
        ((n.block? ⟨4⟩).map fun block => block.stmts.length) == some 0 && body.tryCatches.map (·.handler) == [exceptionLabel 2] &&
        body.tryCatches.all (covers body.instructions · 8) &&
        (([⟨0⟩, ⟨2⟩, ⟨4⟩] : List BlockId).map (blockView (frameOf n slots)) ==
          [some ⟨[none, some (0, .ref)], [⟨2⟩], [none]⟩, some ⟨[none, some (0, .int)], [⟨5⟩], [none]⟩,
            some ⟨[], [], [some (0, .ref), none]⟩])) : Except Failure Bool).toOption = some true := by
    decide +kernel
  obtain ⟨m, lifted, computed⟩ := bind_ok.1 (of_toOption computed)
  obtain ⟨n, run, computed⟩ := bind_ok.1 computed
  obtain ⟨body, lowered, computed⟩ := bind_ok.1 computed
  obtain ⟨slots, assigned, computed⟩ := bind_ok.1 computed
  replace computed := Except.ok.inj computed
  simp only [Bool.and_eq_true, beq_iff_eq, List.all_eq_true, List.map_cons, List.map_nil, List.cons.injEq,
    and_true] at computed
  obtain ⟨⟨⟨⟨⟨⟨used, layout⟩, entry⟩, bare⟩, handlers⟩, covered⟩, first, second, third⟩ := computed
  obtain ⟨slots', assigned', served⟩ := handler_frames lifted run lowered used
  cases assigned.symm.trans assigned'
  obtain ⟨e, single, label⟩ := List.map_eq_singleton_iff.1 handlers
  have member : e ∈ body.tryCatches := by rw [single]; exact List.mem_singleton_self e
  refine ⟨m, n, body, slots, lifted, run, lowered, used, assigned, served, e, member, label,
    by rw [layout]; rfl, covered e member, ?_, ?_⟩
  · obtain ⟨block, code, ending, here, -, ended, -, -, loads⟩ := blockView_some third
    obtain ⟨i, j, same, load, -⟩ : ∃ i j, ending = [i, j] ∧ loaded? i = some (0, .ref) ∧ loaded? j = none := by
      simpa [List.map_eq_cons_iff, eq_comm] using loads
    have none_ : block.stmts = [] := by simpa [show n.block? ⟨4⟩ = some block from here] using bare
    have entry : handlerEntry (frameOf n slots) 2 block.stmts =
        .ok ([.label (exceptionLabel 2), .simple .pop], []) := by
      rw [none_]
      rfl
    have last : i ∈ ending := by simp [same]
    exact .enter here entry (by simp [Spares, stored?]) (.terminator here ended last load)
  · obtain ⟨block, code, ending, here, made, ended, -, leads, -⟩ := blockView_some first
    obtain ⟨block', code', -, here', made', -, stores, -, -⟩ := blockView_some second
    have start : Flows (frameOf n slots) (.body ⟨0⟩ (proper n ⟨0⟩ block ++ []))
        (.arguments (argumentKinds n) n.params.toList) := by
      rw [List.append_nil, ← entry]
      exact .start (f := frameOf n slots) (by simp [entry, layout]) (by rw [← here, ← entry])
    have arrives := Flows.jump (start.stmts made) here ended (by rw [leads]; exact List.mem_singleton_self _)
      (by simp [layout]) here'
    rw [← List.append_nil (proper _ _ _)] at arrives
    refine ⟨_, arrives.stmts made', ?_⟩
    obtain ⟨i, j, rfl, -, store⟩ : ∃ i j, code' = [i, j] ∧ stored? i = none ∧
        stored? j = some (0, .int) := by
      simpa [List.map_eq_cons_iff, eq_comm] using stores
    rw [Contents.run_cons, Contents.run_stored store]
    intro holds
    cases (Contents.put_touching_iff (k := .ref) (by decide)).1 holds

end Restack
