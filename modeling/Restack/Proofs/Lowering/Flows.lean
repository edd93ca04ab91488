/-
# Flows of categories through the code of a method

`Flows` follows control through the code of a method and keeps the category of what
each slot holds, as a verifier does. Where some path on loads a slot before it stores
there (`Loads`), a local that is live has the slot, or a parameter arrives in it
(`Loads.needs`), and so the slot holds what is loaded (`Flows.holds`).
-/
import Mathlib.Data.List.TakeWhile
import Restack.Proofs.Ir.Live
import Restack.Proofs.Lowering.Categories

namespace Restack.Lowering

open List Outcome Ir
open Stack (Instruction)
open Pass (caughtHead behindCaught)

/-! ## Places and paths -/

/-- A place that control comes to. -/
inductive Spot where
  /-- In front of the entry of a handler, with the exception on the stack. -/
  | entry (b : BlockId)
  /-- In front of statements of a block, behind its entry. -/
  | body (b : BlockId) (rest : List Stmt)

/-- The statements of a block behind its entry. -/
def proper (m : Method) (b : BlockId) (block : Block) : List Stmt :=
  if m.isHandler b then behindCaught block.stmts else block.stmts

/-- The categories of the locals. -/
def kinds (m : Method) (l : Local) : Option Category := some (category (m.localType l))

/-- The categories of the arguments. -/
def argumentKinds (m : Method) (i : Nat) : Category :=
  (m.params.toList[i]?.map fun d => category (.ofDescriptor d)).getD .int

/-- What the slots can hold at a place. -/
inductive Flows (f : Frame) : Spot → Contents Category → Prop where
  | start {block} (listed : f.method.entry ∈ f.method.layout)
      (here : f.method.block? f.method.entry = some block) :
      Flows f (.body f.method.entry (proper f.method f.method.entry block))
        (.arguments (argumentKinds f.method) f.method.params.toList)
  | stmt {b s rest code c}
      (flows : Flows f (.body b (s :: rest)) c) (made : stmtCode f s = .ok code) :
      Flows f (.body b rest) (c.run code)
  | jump {b t block target behind code c} (flows : Flows f (.body b []) c) (here : f.method.block? b = some block)
      (made : terminatorCode f behind block.terminator = .ok code)
      (leads : t ∈ block.terminator.successors) (listed : t ∈ f.method.layout)
      (there : f.method.block? t = some target) :
      Flows f (.body t (proper f.method t target)) (c.run code)
  | raise {b h rest done c}
      (flows : Flows f (.body b rest) c) (raises : Raises f (⟨b, rest, kinds f.method, c⟩) done)
      (catches : h ∈ f.method.exceptionalSuccessors b) (listed : h ∈ f.method.layout) :
      Flows f (.entry h) (c.run done)
  | enter {h handler position code stmts c} (flows : Flows f (.entry h) c)
      (there : f.method.block? h = some handler)
      (made : handlerEntry f position handler.stmts = .ok (code, stmts)) :
      Flows f (.body h stmts) (c.run code)

/-- Some path from a place loads a slot as a value of a category before it stores into
the slots of the value. -/
inductive Loads (f : Frame) (slot : Nat) (k : Category) : Spot → Prop where
  | stmt {b s rest done more i}
      (made : stmtCode f s = .ok (done ++ i :: more)) (spared : ∀ j ∈ done, Spares slot k j)
      (loads : loaded? i = some (slot, k)) : Loads f slot k (.body b (s :: rest))
  | skip {b s rest code} (made : stmtCode f s = .ok code) (spared : ∀ j ∈ code, Spares slot k j)
      (later : Loads f slot k (.body b rest)) : Loads f slot k (.body b (s :: rest))
  | terminator {b block behind code i} (here : f.method.block? b = some block)
      (made : terminatorCode f behind block.terminator = .ok code) (among : i ∈ code)
      (loads : loaded? i = some (slot, k)) : Loads f slot k (.body b [])
  | jump {b t block target} (here : f.method.block? b = some block)
      (leads : t ∈ block.terminator.successors) (listed : t ∈ f.method.layout)
      (there : f.method.block? t = some target)
      (later : Loads f slot k (.body t (proper f.method t target))) : Loads f slot k (.body b [])
  | raise {b h rest done c}
      (raises : Raises f (⟨b, rest, kinds f.method, c⟩) done) (spared : ∀ j ∈ done, Spares slot k j)
      (catches : h ∈ f.method.exceptionalSuccessors b) (listed : h ∈ f.method.layout)
      (later : Loads f slot k (.entry h)) : Loads f slot k (.body b rest)
  | enter {h handler position code stmts} (there : f.method.block? h = some handler)
      (made : handlerEntry f position handler.stmts = .ok (code, stmts))
      (spared : ∀ j ∈ code, Spares slot k j) (later : Loads f slot k (.body h stmts)) :
      Loads f slot k (.entry h)

variable {code : List Instruction} {position : Nat} {spot : Spot} {before : List Stmt}

lemma Flows.stmts {f b stmts rest c}
    (flows : Flows f (.body b (stmts ++ rest)) c) (made : stmtsCode f stmts = .ok code) :
    Flows f (.body b rest) (c.run code) := by
  obtain ⟨parts, each, same⟩ := bind_ok.1 made
  cases same
  have related := mapM_ok.1 each
  clear each made
  induction related generalizing c with
  | nil => exact flows
  | cons here _ ih =>
    rw [flatten_cons, Contents.run_append]
    exact ih (.stmt flows here)

/-! ## Methods that use their locals well -/

/-- Whether a local that a parameter is read into has the category of the parameter. -/
def paramTyped (m : Method) : Stmt → Bool
  | .assign l (.param i) =>
    m.params.toList[i]?.all fun d => category (m.localType l) == category (.ofDescriptor d)
  | _ => true

/-- Whether nothing is needed at a block that a jump does not bring along: the block
does not begin with the read of an exception. -/
def entered (m : Method) (b : BlockId) : Bool :=
  (m.block? b).all fun block => (caughtHead block.stmts).isEmpty

/-- Whether parameters are typed as they arrive, no path reads what it has not
assigned, and exceptions are read in handlers that no jump leads to. -/
def wellUsed (m : Method) : Bool :=
  (layoutStmts m).all (paramTyped m) && ((liveIn m).of m.entry).isEmpty &&
    entered m m.entry && (m.layout.flatMap m.successors).all (entered m)

structure WellUsed (m : Method) : Prop where
  typed : ∀ l i d, .assign l (.param i) ∈ layoutStmts m → m.params.toList[i]? = some d →
    category (m.localType l) = category (.ofDescriptor d)
  assigned : (liveIn m).of m.entry = []
  entry : ∀ block, m.block? m.entry = some block → caughtHead block.stmts = []
  jumps : ∀ b ∈ m.layout, ∀ t ∈ m.successors b, ∀ block, m.block? t = some block → caughtHead block.stmts = []

lemma WellUsed.of {m} (used : wellUsed m = true) : WellUsed m := by
  simp only [wellUsed, Bool.and_eq_true, all_eq_true, List.isEmpty_iff] at used
  obtain ⟨⟨⟨typed, assigned⟩, entry⟩, jumps⟩ := used
  have quiet {b : BlockId} (fine : entered m b = true) (block : Block) (here : m.block? b = some block) :
      caughtHead block.stmts = [] := by
    simpa [entered, here] using fine
  refine ⟨fun l i d among found => ?_, assigned, quiet entry, fun b listed t leads => ?_⟩
  · simpa [paramTyped, found] using typed _ among
  · exact quiet (jumps t (mem_flatMap.2 ⟨b, listed, leads⟩))

/-! ## What the slots hold -/

section Arrival

variable {m : Method} {b : BlockId} {block : Block}

lemma proper_of_head (plain : caughtHead block.stmts = []) : proper m b block = block.stmts := by
  have whole := Pass.caughtHead_append block.stmts
  rw [plain, nil_append] at whole
  rw [proper, whole, ite_self]

/-- Statements are those of a block behind the read of an exception, or all of them. -/
def BehindEntry (block : Block) (stmts : List Stmt) : Prop :=
  (∃ l, block.stmts = .assign l .caught :: stmts) ∨ block.stmts = stmts

lemma proper_behind (m : Method) (b : BlockId) (block : Block) : BehindEntry block (proper m b block) := by
  rw [proper]
  split
  · have whole := Pass.caughtHead_append block.stmts
    rcases Pass.caughtHead_cases block.stmts with ⟨l, head⟩ | ⟨head, -⟩
    · exact .inl ⟨l, by rwa [head, eq_comm] at whole⟩
    · exact .inr (by rwa [head, eq_comm] at whole)
  · exact .inr rfl

lemma handlerEntry_behind {f stmts}
    (made : handlerEntry f position block.stmts = .ok (code, stmts)) : BehindEntry block stmts := by
  rcases handlerEntry_cases made with ⟨dst, i, first, -⟩ | ⟨-, same, -⟩
  · exact .inl ⟨dst, first⟩
  · exact .inr same.symm

lemma BehindEntry.split {stmts} (behind : BehindEntry block stmts) :
    ∃ front, block.stmts = front ++ stmts := by
  rcases behind with ⟨l, first⟩ | same
  · exact ⟨[.assign l .caught], first⟩
  · exact ⟨[], same⟩

lemma arrival_of_head {held} {c : Contents Category} (plain : caughtHead block.stmts = []) :
    arrival m b block held c = ⟨b, proper m b block, held, c⟩ := by
  have same : received none held block.stmts = held := by
    funext l
    simp [received, plain, defined]
  rw [arrival, proper, same]
  split <;> rfl

end Arrival

lemma handlerEntry_kinds {f stmts rest} {c : Contents Category}
    (made : handlerEntry f position stmts = .ok (code, rest)) :
    ∃ k, received (some k) (kinds f.method) stmts = kinds f.method ∧ c.run code = c.after k code := by
  rcases handlerEntry_cases made with ⟨dst, i, rfl, stores, rfl⟩ | ⟨plain, rfl, rfl⟩
  · refine ⟨category (f.method.localType dst), ?_, ?_⟩
    · funext l
      by_cases same : l = dst
      · subst same
        exact if_pos mem_cons_self
      · exact if_neg fun mem => same (mem_singleton.1 mem)
    · obtain ⟨x, placed, stored⟩ := store_stored stores
      obtain ⟨y, placed', put⟩ := Contents.after_store (c := c) (v := category (f.method.localType dst))
        [.label (exceptionLabel position)] (by simp [written?]) stores
      cases placed.symm.trans placed'
      rw [singleton_append] at put
      rw [put, ← width_category]
      exact Contents.run_stored stored
  · refine ⟨.ref, ?_, ?_⟩
    · funext l
      simp [received, plain, defined]
    · rw [Contents.run_still (by simp [stored?]), Contents.after_still (by simp [written?])]

/-- What is needed at a place is there. -/
def Sound (f : Frame) : Spot → Contents Category → Prop
  | .entry h, c => h ∈ f.method.layout ∧ Arrived f.method (argumentKinds f.method) c ∧
      ∀ l ∈ (liveIn f.method).of h, ∀ k, kinds f.method l = some k → ∀ x, f.slots.of? l = some x →
        c.Holds x (f.method.localType l).width k
  | .body b rest, c => ∃ block before,
      Upheld f (argumentKinds f.method) block before ⟨b, rest, kinds f.method, c⟩

variable {mark : Mark} {pinned : Slots} {f : Frame} (fitted : Fitted mark pinned f)
  (used : WellUsed f.method)

section Soundness

include fitted used

lemma argumentKinds_param {l i} (among : .assign l (.param i) ∈ layoutStmts f.method) :
    argumentKinds f.method i = category (f.method.localType l) := by
  obtain ⟨x, offset, -⟩ := fitted.param_slot among
  obtain ⟨d, found, -⟩ := paramOffsets_spec offset
  rw [argumentKinds, found, used.typed l i d among found]
  rfl

lemma assigned_kinds {s} (among : s ∈ layoutStmts f.method) :
    assigned (argumentKinds f.method) (kinds f.method) (kindOf f.method s) s = kinds f.method := by
  cases s with
  | assign dst e =>
    cases e with
    | value v =>
      cases v with
      | var src =>
        refine Function.update_eq_self_iff.2 ?_
        rw [kinds, kinds, fitted.copies dst src among]
      | const c => exact Function.update_eq_self dst _
    | param i =>
      refine Function.update_eq_self_iff.2 ?_
      rw [argumentKinds_param fitted used among]
      rfl
    | _ => exact Function.update_eq_self dst _
  | _ => rfl

lemma Flows.sound {c} (flows : Flows f spot c) : Sound f spot c := by
  induction flows with
  | @start block listed here =>
    have arrives : ∃ before, Upheld f (argumentKinds f.method) block before
        (arrival f.method f.method.entry block (kinds f.method)
          (.arguments (argumentKinds f.method) f.method.params.toList)) :=
      arrival_upheld fitted listed here (fun l live => by rw [used.assigned] at live; cases live)
        (fun i x d => Contents.arguments_hold _)
    rw [arrival_of_head (used.entry block here)] at arrives
    exact ⟨block, arrives⟩
  | @stmt b s rest code c _ made ih =>
    obtain ⟨block, before, upheld⟩ := ih
    have same := assigned_kinds fitted used (upheld.among rfl)
    have computes : Computes f (argumentKinds f.method) ⟨b, s :: rest, kinds f.method, c⟩ s
        (kindOf f.method s) (kindOf f.method s) := by
      intro _ dst k defines value
      rw [same] at value
      cases value
      rw [kindOf, defines]
    have next := upheld.stmt fitted rfl made computes
    rw [same, ← run_stmtCode made] at next
    exact ⟨block, _, next⟩
  | @jump b t block target behind code c _ here made leads listed there ih =>
    obtain ⟨block, before, upheld⟩ := ih
    have leads' : t ∈ f.method.successors b := by
      rw [Method.successors, here]
      exact leads
    rw [Contents.run_plain (terminatorCode_plain made)]
    have arrives := arrival_upheld fitted listed there (fun l live => upheld.live l (by
      rw [liveHere, liveAt_nil, endLive, mem_liveAtEnd]
      exact .inl (LiveIn.mem_union.2 ⟨t, leads', live⟩))) upheld.arrived
    rw [arrival_of_head (used.jumps b upheld.listed t leads' target there)] at arrives
    exact ⟨target, arrives⟩
  | @raise b h rest done c _ raises catches listed ih =>
    obtain ⟨block, before, upheld⟩ := ih
    rw [Contents.run_plain raises.plain]
    refine ⟨listed, upheld.arrived, fun l live => upheld.live l (raises.live upheld.here l ?_)⟩
    exact LiveIn.mem_union.2 ⟨h, catches, live⟩
  | @enter h handler position code stmts c _ there made ih =>
    obtain ⟨listed, arrived, live⟩ := ih
    obtain ⟨k, same, left⟩ := handlerEntry_kinds (c := c) made
    have entered := entry_upheld (x := k) fitted listed there live arrived made
    rw [same, ← left] at entered
    exact ⟨handler, entered⟩

end Soundness

/-! ## What is needed -/

/-- A slot is needed as a category where a local is live that has it and is of the
category, or where a parameter arrives in it. -/
def Needs (f : Frame) (slot : Nat) (k : Category) (live : LocalSet) : Prop :=
  (∃ (i : Nat) (d : String), (paramOffsets 0 f.method.params.toList)[i]? = some slot ∧
    f.method.params.toList[i]? = some d ∧ category (.ofDescriptor d) = k) ∨
  ∃ l ∈ live, f.slots.of? l = some slot ∧ category (f.method.localType l) = k

lemma Spares.not_self {slot k i} (spares : Spares slot k i)
    (stores : stored? i = some (slot, k)) : False := by
  have apart : slot + k.width ≤ slot ∨ slot + k.width ≤ slot := spares slot k stores
  have positive := k.width_pos
  omega

variable {slot : Nat} {k : Category} {b h : BlockId} {block : Block} {rest : List Stmt}

section Needing

variable {live live' : LocalSet} {s : Stmt}

lemma Needs.mono (needs : Needs f slot k live) (more : ∀ l ∈ live, l ∈ live') : Needs f slot k live' :=
  needs.imp id fun ⟨l, mem, placed⟩ => ⟨l, more l mem, placed⟩

lemma Needs.raise (needs : Needs f slot k ((liveIn f.method).of h))
    (catches : h ∈ f.method.exceptionalSuccessors b) :
    Needs f slot k (handlersLive f.method (liveIn f.method) b) :=
  needs.mono fun _ live => LiveIn.mem_union.2 ⟨h, catches, live⟩

lemma Needs.opening {stmts} (needs : Needs f slot k (handlersLive f.method (liveIn f.method) b))
    (throws : block.canThrow = true) (behind : BehindEntry block stmts) :
    Needs f slot k (liveHere f.method b block (guardedPart stmts)) := by
  cases part : guardedPart stmts with
  | cons s rest =>
    refine needs.mono fun l live => ?_
    rw [liveHere, liveAt_cons, mem_liveBefore]
    exact .inr (.inr ⟨guardedPart_head part, live⟩)
  | nil =>
    -- no statement throws, so the terminator does
    have ending : block.terminator.isThrow = true := by
      refine (Bool.or_eq_true_iff.1 throws).resolve_left fun some_ => ?_
      obtain ⟨s, among, raises⟩ := any_eq_true.1 some_
      have calm (late : s ∈ stmts) : False := by
        have quiet := dropWhile_eq_nil_iff.1 part s late
        simp [raises] at quiet
      rcases behind with ⟨l, split⟩ | split
      · rw [split] at among
        rcases mem_cons.1 among with rfl | late
        · cases raises
        · exact calm late
      · exact calm (split ▸ among)
    refine needs.mono fun l live => ?_
    rw [liveHere, liveAt_nil, endLive, mem_liveAtEnd]
    exact .inr (.inr ⟨ending, live⟩)

include fitted

lemma Needs.enter (needs : Needs f slot k (liveHere f.method h block rest))
    (listed : h ∈ f.method.layout) (there : f.method.block? h = some block)
    (made : handlerEntry f position block.stmts = .ok (code, rest))
    (spared : ∀ j ∈ code, Spares slot k j) : Needs f slot k ((liveIn f.method).of h) := by
  rcases needs with param | ⟨l, live, placed, typed⟩
  · exact .inl param
  refine .inr ⟨l, ?_, placed, typed⟩
  rcases handlerEntry_cases made with ⟨dst, i, first, stores, rfl⟩ | ⟨plain, rfl, -⟩
  · refine live_behind_entry fitted listed there (by rwa [first]) ?_
    rw [first]
    rintro mem
    obtain rfl := mem_singleton.1 mem
    obtain ⟨x, placed', stored⟩ := store_stored stores
    cases placed.symm.trans placed'
    rw [typed] at stored
    exact (spared i (by simp)).not_self stored
  · exact liveIn_closed fitted.numbered h listed block there l live

include used

lemma Needs.stmt (needs : Needs f slot k (liveHere f.method b block rest))
    (among : s ∈ layoutStmts f.method) (made : stmtCode f s = .ok code)
    (spared : ∀ j ∈ code, Spares slot k j) : Needs f slot k (liveHere f.method b block (s :: rest)) := by
  rcases needs with param | ⟨l, live, placed, typed⟩
  · exact .inl param
  by_cases defines : s.def? = some l
  · rcases stmtCode_pieces made with ⟨none_, -⟩ | ⟨dst, i, rfl, -⟩ | ⟨dst, src, rfl, shares, -⟩ |
      ⟨dst, e, body, i, rfl, -, -, -, stores, rfl⟩
    · rw [none_] at defines
      cases defines
    · cases defines
      obtain ⟨x, offset, placed'⟩ := fitted.param_slot among
      cases placed.symm.trans placed'
      obtain ⟨d, found, -⟩ := paramOffsets_spec offset
      exact .inl ⟨i, d, offset, found, (used.typed l i d among found).symm.trans typed⟩
    · cases defines
      simp only [sharesSlot, Bool.and_eq_true, beq_iff_eq] at shares
      refine .inr ⟨src, ?_, shares.2.symm.trans placed, ?_⟩
      · rw [liveHere, liveAt_cons, mem_liveBefore]
        exact .inr (.inl mem_cons_self)
      · rw [← fitted.copies l src among, typed]
    · cases defines
      obtain ⟨x, placed', stored⟩ := store_stored stores
      cases placed.symm.trans placed'
      rw [typed] at stored
      exact ((spared i (by simp)).not_self stored).elim
  · refine .inr ⟨l, ?_, placed, typed⟩
    rw [liveHere, liveAt_cons, mem_liveBefore]
    exact .inl ⟨live, defines⟩

lemma Needs.stmts {calm} (needs : Needs f slot k (liveHere f.method b block rest))
    (among : ∀ s ∈ calm, s ∈ layoutStmts f.method) (made : stmtsCode f calm = .ok code)
    (spared : ∀ j ∈ code, Spares slot k j) : Needs f slot k (liveHere f.method b block (calm ++ rest)) := by
  obtain ⟨parts, each, same⟩ := bind_ok.1 made
  cases same
  have related := mapM_ok.1 each
  clear each made
  induction related with
  | nil => exact needs
  | @cons s part calm parts made _ ih =>
    refine (ih (fun s mem => among s (mem_cons_of_mem _ mem)) fun j mem =>
      spared j (mem_append_right _ mem)).stmt fitted used (among s mem_cons_self) made ?_
    exact fun j mem => spared j (mem_append_left _ mem)

/-- What is needed at a place. -/
def Spot.Needs (f : Frame) (slot : Nat) (k : Category) : Spot → Prop
  | .entry h => h ∈ f.method.layout → Lowering.Needs f slot k ((liveIn f.method).of h)
  | .body b rest => b ∈ f.method.layout → ∀ block before, f.method.block? b = some block →
      block.stmts = before ++ rest → Lowering.Needs f slot k (liveHere f.method b block rest)

/-- What is loaded on some way is needed. -/
lemma Loads.needs (loads : Loads f slot k spot) : spot.Needs f slot k := by
  induction loads with
  | @stmt b s rest done more i made _ loads =>
    intro listed block before here split
    obtain ⟨l, read, placed⟩ := stmtCode_loads made (by simp) slot k loads
    refine .inr ⟨l, ?_, placed⟩
    rw [liveHere, liveAt_cons, mem_liveBefore]
    exact .inr (.inl read)
  | @skip b s rest code made spared _ ih =>
    intro listed block before here split
    have among : s ∈ layoutStmts f.method :=
      mem_layoutStmts.2 ⟨b, listed, block, here, by rw [split]; simp⟩
    exact (ih listed block (before ++ [s]) here (by simpa using split)).stmt fitted used among made spared
  | @terminator b found behind code i here made among loads =>
    intro listed block before here' split
    cases here.symm.trans here'
    obtain ⟨l, read, placed⟩ := terminatorCode_loads made among slot k loads
    refine .inr ⟨l, ?_, placed⟩
    rw [liveHere, liveAt_nil, endLive, mem_liveAtEnd]
    exact .inr (.inl read)
  | @jump b t found target here leads listed' there _ ih =>
    intro listed block before here' split
    have leads' : t ∈ f.method.successors b := by
      rw [Method.successors, here]
      exact leads
    have plain := used.jumps b listed t leads' target there
    have needs := ih listed' target [] there (proper_of_head plain).symm
    rw [proper_of_head plain] at needs
    refine needs.mono fun l live => ?_
    rw [liveHere, liveAt_nil, endLive, mem_liveAtEnd]
    refine .inl (LiveIn.mem_union.2 ⟨t, leads', ?_⟩)
    exact liveIn_closed fitted.numbered t listed' target there l live
  | @raise b h rest done c raises _ catches listed' _ ih =>
    intro listed block before here split
    exact ((ih listed').raise catches).mono (raises.live here)
  | @enter h handler position code stmts there made spared _ ih =>
    intro listed
    obtain ⟨before, split⟩ := (handlerEntry_behind made).split
    exact (ih listed handler before there split).enter fitted listed there made spared

end Needing

/-! ## Loads find what they load -/

section Holding

variable {c : Contents Category}

lemma Needs.holds {live} (needs : Needs f slot k live) (arrived : Arrived f.method (argumentKinds f.method) c)
    (there : ∀ l ∈ live, ∀ k, kinds f.method l = some k → ∀ x, f.slots.of? l = some x →
      c.Holds x (f.method.localType l).width k) : c.Holds slot k.width k := by
  rcases needs with ⟨i, d, offset, found, rfl⟩ | ⟨l, mem, placed, rfl⟩
  · have holds := arrived i slot d offset found
    rwa [argumentKinds, found, ← width_category] at holds
  · rw [width_category]
    exact there l mem _ rfl slot placed

lemma Upheld.holds (upheld : Upheld f (argumentKinds f.method) block before ⟨b, rest, kinds f.method, c⟩)
    (needs : Needs f slot k (liveHere f.method b block rest)) : c.Holds slot k.width k :=
  needs.holds upheld.arrived upheld.live

lemma stmtsCode_concat {stmts s more} (made : stmtsCode f stmts = .ok code) (last : stmtCode f s = .ok more) :
    stmtsCode f (stmts ++ [s]) = .ok (code ++ more) := by
  obtain ⟨parts, each, made⟩ := bind_ok.1 made
  cases made
  refine bind_ok.2 ⟨parts ++ [more], ?_, by simp⟩
  rw [mapM_ok] at each ⊢
  exact rel_append each (.cons last .nil)

include fitted used

/-- Whatever is loaded on some way is in its slots. -/
lemma Flows.holds (flows : Flows f spot c) (loads : Loads f slot k spot) : c.Holds slot k.width k := by
  have sound := flows.sound fitted used
  have needs := loads.needs fitted used
  cases spot with
  | entry h => exact (needs sound.1).holds sound.2.1 sound.2.2
  | body b rest =>
    obtain ⟨block, before, upheld⟩ := sound
    exact upheld.holds (needs upheld.listed block before upheld.here upheld.split)

/-! ## Guarded parts -/

/-- A statement behind the entry of a block has run when control is behind it. -/
lemma Flows.back {t} (flows : Flows f (.body b rest) c)
    (here : f.method.block? b = some block) (split : block.stmts = before ++ t :: rest)
    (behind : ∀ l, t = .assign l .caught → before ≠ []) :
    ∃ c₀ code, Flows f (.body b (t :: rest)) c₀ ∧ stmtCode f t = .ok code ∧ c = c₀.run code := by
  -- control is not right behind the entry
  have entered (front : BehindEntry block rest) : False := by
    rcases front with ⟨l, first⟩ | first
    · rw [split, append_cons] at first
      have same : before ++ [t] = [.assign l .caught] := append_cancel_right first
      cases before with
      | nil => exact behind l (singleton_inj.1 same) rfl
      | cons s before => simp at same
    · have lengths := congrArg length (split.symm.trans first)
      simp only [length_append, length_cons] at lengths
      omega
  cases flows with
  | start listed here' =>
    cases here.symm.trans here'
    exact (entered (proper_behind _ _ _)).elim
  | @stmt _ s _ code c₀ flows made =>
    obtain ⟨block', before', upheld⟩ := flows.sound fitted used
    cases here.symm.trans upheld.here
    have whole := upheld.split.symm.trans split
    rw [append_cons, append_cons before t] at whole
    obtain ⟨-, same⟩ := append_inj' (append_cancel_right whole) rfl
    obtain rfl := singleton_inj.1 same
    exact ⟨c₀, code, flows, made, rfl⟩
  | jump _ _ _ _ _ there =>
    cases here.symm.trans there
    exact (entered (proper_behind _ _ _)).elim
  | enter _ there made =>
    cases here.symm.trans there
    exact (entered (handlerEntry_behind made)).elim

lemma Flows.opened {executed} (flows : Flows f (.body b rest) c)
    (here : f.method.block? b = some block) (split : block.stmts = before ++ (executed ++ rest))
    (opens : ∀ s, executed.head? = some s → s.canThrow = true) :
    ∃ c₀ code, Flows f (.body b (executed ++ rest)) c₀ ∧ stmtsCode f executed = .ok code ∧
      c = c₀.run code := by
  induction executed using reverseRecOn generalizing rest c with
  | nil => exact ⟨c, [], flows, rfl, rfl⟩
  | append_singleton executed t ih =>
    have split' : block.stmts = (before ++ executed) ++ t :: rest := by simpa using split
    obtain ⟨c₁, last, flows', made, rfl⟩ := flows.back fitted used here split' (by
      rintro l rfl nothing
      obtain ⟨-, rfl⟩ := append_eq_nil_iff.1 nothing
      cases opens _ rfl)
    obtain ⟨c₀, code, start, executed', rfl⟩ := ih flows' (by simpa using split) (fun s first =>
      opens s (by rw [head?_append, first]; rfl))
    exact ⟨c₀, code ++ last, by simpa using start, stmtsCode_concat executed' made,
      Contents.run_append.symm⟩

lemma Flows.guarded_iff {executed done}
    (flows : Flows f (.body b rest) c) (here : f.method.block? b = some block)
    (part : guardedPart (proper f.method b block) = executed ++ rest)
    (made : stmtsCode f executed = .ok code) (catches : h ∈ f.method.exceptionalSuccessors b)
    (listed : h ∈ f.method.layout) (loads : Loads f slot k (.entry h)) :
    (c.run done).Holds slot k.width k ↔ Settles slot k (code ++ done) := by
  have needs := ((loads.needs fitted used listed).raise catches).opening
    ((Method.mem_exceptionalSuccessors here).1 catches).1 (proper_behind f.method b block)
  obtain ⟨front, split⟩ := (proper_behind f.method b block).split
  rw [← takeWhile_append_dropWhile (p := (!Stmt.canThrow ·)) (l := proper f.method b block),
    show dropWhile _ _ = executed ++ rest from part, ← append_assoc] at split
  obtain ⟨c₀, code', start, executed', rfl⟩ := flows.opened fitted used here split fun s first => by
    obtain ⟨later, rfl⟩ := head?_eq_some_iff.1 first
    exact guardedPart_head part
  cases made.symm.trans executed'
  obtain ⟨block', before, upheld⟩ := start.sound fitted used
  cases here.symm.trans upheld.here
  rw [part] at needs
  rw [← Contents.run_append]
  exact Contents.run_holds_iff (upheld.holds needs)

/-- At the entry of a handler that goes on with its guarded part, a slot that another
handler loads holds what it loads, unless the entry is to store there. -/
lemma Flows.entry_holds {stmts : List Stmt} (flows : Flows f (.entry b) c)
    (here : f.method.block? b = some block) (made : handlerEntry f position block.stmts = .ok (code, stmts))
    (calm : stmtsCode f (stmts.takeWhile (!Stmt.canThrow ·)) = .ok [])
    (spared : ∀ j ∈ code, Spares slot k j) (catches : h ∈ f.method.exceptionalSuccessors b)
    (listed : h ∈ f.method.layout) (loads : Loads f slot k (.entry h)) : c.Holds slot k.width k := by
  have behind := handlerEntry_behind made
  obtain ⟨listed', arrived, live⟩ := flows.sound fitted used
  have opening := ((loads.needs fitted used listed).raise catches).opening
    ((Method.mem_exceptionalSuccessors here).1 catches).1 behind
  obtain ⟨front, split⟩ := behind.split
  have among : ∀ s ∈ stmts, s ∈ layoutStmts f.method := fun s mem =>
    mem_layoutStmts.2 ⟨b, listed', block, here, by rw [split]; exact mem_append_right _ mem⟩
  have needs : Needs f slot k (liveHere f.method b block stmts) := by
    rw [← takeWhile_append_dropWhile (p := (!Stmt.canThrow ·)) (l := stmts)]
    exact opening.stmts fitted used (fun s mem => among s ((takeWhile_sublist _).subset mem))
      calm (by simp)
  exact (needs.enter fitted listed' here made spared).holds arrived live

end Holding

end Restack.Lowering
