/-
# What the slots hold along a run

A run goes through the statements of a method with two records at hand: what was last
assigned to each local, and what the slots of the frame hold (`Point`). Values and
branches are left open, so a fact about every point that is visited (`Visits`) holds
for every run. Operands that the slots do not hold may lead to any value. A normal
jump to a handler goes past the read of the exception, and the local that was to
receive it is left without a value.

A slot of a live local is written by nothing but its definitions (`Upheld`), so what
is read is there (`Visits.reads_kept`).
-/
import Restack.Proofs.Ir.Marks
import Restack.Proofs.Lowering.Segments
import Restack.Proofs.Lowering.Slots
import Restack.Proofs.Pass.PhiCopies

namespace Restack.Lowering

open List Ir
open Stack (Instruction Opcode)
open Pass (caughtHead behindCaught)

/-! ## Contents of slots -/

/-- A slot's share of a value, which is number zero in the first slot. -/
structure Share (V : Type) where
  value : V
  number : Nat

abbrev Contents (V : Type) := Nat → Option (Share V)

/-- The first slot that an instruction writes, and how many it writes. -/
def written? : Instruction → Option (Nat × Nat)
  | .var op slot =>
    if op.isStore then some (slot, if op = Opcode.lstore ∨ op = Opcode.dstore then 2 else 1)
    else none
  | .iinc slot _ => some (slot, 1)
  | _ => none

lemma isStore_of_isLoad {op : Opcode} (loads : op.isLoad = true) : op.isStore = false := by
  simp only [Opcode.isLoad, Bool.and_eq_true, decide_eq_true_eq] at loads
  have small : op.toNat ≤ 25 := loads.2
  have below : ¬ Opcode.istore ≤ op := fun above => by
    have large : 54 ≤ op.toNat := UInt8.le_iff_toNat_le.1 above
    omega
  simp [Opcode.isStore, below]

variable {i : Instruction} {code : List Instruction}

lemma written?_plain (plain : isPlain i = true) : written? i = none := by
  cases i with
  | var op slot => simp [written?, isStore_of_isLoad plain]
  | label | iinc => simp [isPlain] at plain
  | _ => rfl

namespace Contents

variable {V : Type} {c : Contents V} {slot width slot' width' : Nat} {v u : V}

def put (c : Contents V) (slot width : Nat) (v : V) : Contents V :=
  fun n => if slot ≤ n ∧ n < slot + width then some ⟨v, n - slot⟩ else c n

/-- The slots from one on hold a value of a width. -/
def Holds (c : Contents V) (slot width : Nat) (v : V) : Prop :=
  ∀ n < width, c (slot + n) = some ⟨v, n⟩

/-- What is left by code that stores a value wherever it stores. -/
def after (c : Contents V) (v : V) (code : List Instruction) : Contents V :=
  code.foldl (fun c i => match written? i with
    | some (slot, width) => c.put slot width v
    | none => c) c

lemma holds_put : (c.put slot width v).Holds slot width v := by
  intro n small
  rw [put, if_pos ⟨by omega, by omega⟩]
  simp

lemma Holds.put (holds : c.Holds slot width v) (apart : Apart slot' width' slot width) :
    (c.put slot' width' u).Holds slot width v := by
  intro n small
  rw [Contents.put, if_neg, holds n small]
  rcases apart with before | behind <;> omega

lemma after_append {code'} : c.after v (code ++ code') = (c.after v code).after v code' :=
  foldl_append

lemma after_still (still : ∀ i ∈ code, written? i = none) : c.after v code = c := by
  induction code with
  | nil => rfl
  | cons i code ih =>
    obtain ⟨first, rest⟩ := forall_mem_cons.1 still
    rw [after, foldl_cons, first]
    exact ih rest

lemma after_plain (plain : Plain code) : c.after v code = c :=
  after_still fun i mem => written?_plain (plain i mem)

/-- The shares of arguments, numbered from `n` on, in the order of the slots. -/
def shares (args : Nat → V) : Nat → List String → List (Share V)
  | _, [] => []
  | n, d :: rest => (List.range (Ty.ofDescriptor d).width).map (⟨args n, ·⟩) ++ shares args (n + 1) rest

/-- What the slots hold when the arguments have arrived. -/
def arguments (args : Nat → V) (ds : List String) : Contents V := fun n => (shares args 0 ds)[n]?

lemma shares_spec (args : Nat → V) {next n ds i x d}
    (offset : (paramOffsets next ds)[i]? = some x) (found : ds[i]? = some d) :
    next ≤ x ∧ ∀ k < (Ty.ofDescriptor d).width,
      (shares args n ds)[x - next + k]? = some ⟨args (n + i), k⟩ := by
  induction ds generalizing next n i with
  | nil => simp at found
  | cons e ds ih =>
    cases i with
    | zero =>
      cases offset
      cases found
      refine ⟨Nat.le_refl _, fun k small => ?_⟩
      rw [shares, getElem?_append_left (by simpa using small)]
      simp [small]
    | succ i =>
      obtain ⟨above, each⟩ := ih (n := n + 1) offset found
      refine ⟨by omega, fun k small => ?_⟩
      rw [shares, getElem?_append_right (by simp; omega)]
      have same : x - next + k - (Ty.ofDescriptor e).width =
          x - (next + (Ty.ofDescriptor e).width) + k := by omega
      simp only [length_map, length_range, same, each k small]
      rw [show n + 1 + i = n + (i + 1) by omega]

lemma arguments_hold (args : Nat → V) {ds i x d}
    (offset : (paramOffsets 0 ds)[i]? = some x) (found : ds[i]? = some d) :
    (arguments args ds).Holds x (Ty.ofDescriptor d).width (args i) := by
  intro k small
  have share := (shares_spec args (n := 0) offset found).2 k small
  rwa [Nat.zero_add] at share

end Contents

lemma store_written {f dst} (made : store f dst = .ok i) :
    ∃ x, f.slots.of? dst = some x ∧ written? i = some (x, (f.method.localType dst).width) := by
  obtain ⟨x, found, made⟩ := Outcome.bind_ok.1 made
  cases made
  refine ⟨x, slot_ok.1 found, ?_⟩
  cases f.method.localType dst <;> rfl

lemma Contents.after_store {V} {c : Contents V} {v f dst}
    (body : List Instruction) (still : ∀ i ∈ body, written? i = none) (made : store f dst = .ok i) :
    ∃ x, f.slots.of? dst = some x ∧ c.after v (body ++ [i]) = c.put x (f.method.localType dst).width v := by
  obtain ⟨x, placed, writes⟩ := store_written made
  refine ⟨x, placed, ?_⟩
  rw [after_append, after_still still, after, foldl_cons, foldl_nil, writes]

/-! ## Runs -/

section Runs

variable {V : Type}

/-- Where a run is, what was last assigned to each local, and what the slots hold. -/
structure Point (V : Type) where
  block : BlockId
  /-- The statements of the block still to come. -/
  rest : List Stmt
  held : Local → Option V
  contents : Contents V

/-- The slots of a local hold a value. -/
def Kept (f : Frame) (c : Contents V) (l : Local) (v : V) : Prop :=
  ∃ x, f.slots.of? l = some x ∧ c.Holds x (f.method.localType l).width v

/-- What locals hold behind a statement. An expression other than a parameter or a
copy yields `r`. -/
def assigned (args : Nat → V) (held : Local → Option V) (r : V) : Stmt → Local → Option V
  | .assign dst (.param i) => Function.update held dst (some (args i))
  | .assign dst (.value (.var src)) => Function.update held dst (held src)
  | .assign dst _ => Function.update held dst (some r)
  | _ => held

lemma assigned_param (args : Nat → V) (held : Local → Option V) (r : V) (dst : Local) (i : Nat) :
    assigned args held r (.assign dst (.param i)) dst = some (args i) :=
  Function.update_self dst _ _

lemma assigned_copy (args : Nat → V) (held : Local → Option V) (r : V) (dst src : Local) :
    assigned args held r (.assign dst (.value (.var src))) dst = held src :=
  Function.update_self dst _ _

lemma assigned_of_ne {args held} {r : V} {s l}
    (other : s.def? ≠ some l) : assigned args held r s l = held l := by
  cases s with
  | assign dst e =>
    have ne : l ≠ dst := fun same => other (same ▸ rfl)
    cases e with
    | value v => cases v <;> exact Function.update_of_ne ne _ _
    | _ => exact Function.update_of_ne ne _ _
  | _ => rfl

/-- Code that finds the operands of a statement in their slots stores what the
statement assigns. -/
def Computes (f : Frame) (args : Nat → V) (p : Point V) (s : Stmt) (r stored : V) : Prop :=
  (∀ l v, .var l ∈ s.values → p.held l = some v → Kept f p.contents l v) →
    ∀ dst v, s.def? = some dst → assigned args p.held r s dst = some v → stored = v

/-- The next thing to do can raise an exception in the middle of its code, of which
`done` has run then. -/
inductive Raises (f : Frame) (p : Point V) (done : List Instruction) : Prop where
  | stmt {s rest i more} (next : p.rest = s :: rest) (throws : s.canThrow = true)
      (made : stmtCode f s = .ok (done ++ i :: more))
  | throw {block behind i more} (next : p.rest = []) (here : f.method.block? p.block = some block)
      (throws : block.terminator.isThrow = true)
      (made : terminatorCode f behind block.terminator = .ok (done ++ i :: more))

lemma Raises.plain {f} {p : Point V} {done} (raises : Raises f p done) : Plain done := by
  cases raises with
  | stmt _ _ made =>
    rcases stmtCode_pieces made with ⟨-, parts⟩ | ⟨_, _, -, empty⟩ | ⟨_, _, -, -, empty⟩ |
      ⟨_, _, body, j, -, -, -, parts, -, whole⟩
    · exact fun k mem => parts.plain k (mem_append_left _ mem)
    · simp at empty
    · simp at empty
    · rcases append_eq_append_iff.1 whole with ⟨mid, rfl, -⟩ | ⟨mid, rfl, last⟩
      · exact fun k mem => parts.plain k (mem_append_left _ mem)
      · cases mid with
        | nil => simpa only [append_nil] using parts.plain
        | cons k mid => simp at last
  | throw _ _ _ made => exact fun k mem => terminatorCode_plain made k (mem_append_left _ mem)

/-- What locals hold behind the entry of a block that begins with statements. -/
def received (taken : Option V) (held : Local → Option V) (stmts : List Stmt) : Local → Option V :=
  fun l => if l ∈ defined (caughtHead stmts) then taken else held l

/-- A block entered by a jump. -/
def arrival (m : Method) (b : BlockId) (block : Block) (held : Local → Option V)
    (contents : Contents V) : Point V :=
  if m.isHandler b then ⟨b, behindCaught block.stmts, received none held block.stmts, contents⟩
  else ⟨b, block.stmts, held, contents⟩

/-- The points that runs with given arguments come to. -/
inductive Visits (f : Frame) (args : Nat → V) : Point V → Prop where
  | start {block} (listed : f.method.entry ∈ f.method.layout)
      (here : f.method.block? f.method.entry = some block) :
      Visits f args (arrival f.method f.method.entry block (fun _ => none)
        (.arguments args f.method.params.toList))
  | stmt {p s rest code r stored}
      (visited : Visits f args p) (next : p.rest = s :: rest) (made : stmtCode f s = .ok code)
      (computes : Computes f args p s r stored) :
      Visits f args ⟨p.block, rest, assigned args p.held r s, p.contents.after stored code⟩
  | jump {p block target t behind code stored} (visited : Visits f args p) (next : p.rest = [])
      (here : f.method.block? p.block = some block)
      (made : terminatorCode f behind block.terminator = .ok code)
      (leads : t ∈ block.terminator.successors) (listed : t ∈ f.method.layout)
      (there : f.method.block? t = some target) :
      Visits f args (arrival f.method t target p.held (p.contents.after stored code))
  | raise {p done entry h handler position stmts stored x} (visited : Visits f args p)
      (raises : Raises f p done) (catches : h ∈ f.method.exceptionalSuccessors p.block)
      (listed : h ∈ f.method.layout) (there : f.method.block? h = some handler)
      (made : handlerEntry f position handler.stmts = .ok (entry, stmts)) :
      Visits f args ⟨h, stmts, received (some x) p.held handler.stmts,
        (p.contents.after stored done).after x entry⟩

/-- The locals that the next thing to do reads. -/
def Point.Reads (f : Frame) (p : Point V) (l : Local) : Prop :=
  match p.rest with
  | s :: _ => .var l ∈ s.values
  | [] => ∃ block, f.method.block? p.block = some block ∧ .var l ∈ block.terminator.values

/-! ## What every point upholds -/

/-- What is live in front of statements of a block. -/
def liveHere (m : Method) (b : BlockId) (block : Block) (rest : List Stmt) : LocalSet :=
  liveAt (handlersLive m (liveIn m) b) (endLive m (liveIn m) b block) rest

lemma Raises.live {f} {p : Point V} {done} (raises : Raises f p done)
    {block} (here : f.method.block? p.block = some block) :
    ∀ l ∈ handlersLive f.method (liveIn f.method) p.block, l ∈ liveHere f.method p.block block p.rest := by
  intro l mem
  cases raises with
  | stmt next throws _ =>
    rw [next, liveHere, liveAt_cons, mem_liveBefore]
    exact .inr (.inr ⟨throws, mem⟩)
  | throw next here' throws _ =>
    cases here.symm.trans here'
    rw [next, liveHere, liveAt_nil, endLive, mem_liveAtEnd]
    exact .inr (.inr ⟨throws, mem⟩)

/-- The slots of the parameters hold the arguments. -/
def Arrived (m : Method) (args : Nat → V) (c : Contents V) : Prop :=
  ∀ i x d, (paramOffsets 0 m.params.toList)[i]? = some x → m.params.toList[i]? = some d →
    c.Holds x (Ty.ofDescriptor d).width (args i)

/-- The slots hold what is live, and the arguments. -/
structure Upheld (f : Frame) (args : Nat → V) (block : Block) (before : List Stmt) (p : Point V) :
    Prop where
  listed : p.block ∈ f.method.layout
  here : f.method.block? p.block = some block
  split : block.stmts = before ++ p.rest
  live : ∀ l ∈ liveHere f.method p.block block p.rest, ∀ v, p.held l = some v →
    ∀ x, f.slots.of? l = some x → p.contents.Holds x (f.method.localType l).width v
  arrived : Arrived f.method args p.contents

/-- A frame with the slots assigned to a method whose parameters have locals of their
own, of the width they arrive with, and whose copies are between locals of one type. -/
structure Fitted (mark : Mark) (pinned : Slots) (f : Frame) : Prop where
  marked : f.method.Marked mark
  copies : ∀ dst src, .assign dst (.value (.var src)) ∈ layoutStmts f.method →
    f.method.localType dst = f.method.localType src
  widths : ∀ l i d, .assign l (.param i) ∈ layoutStmts f.method → f.method.params.toList[i]? = some d →
    (f.method.localType l).width = (Ty.ofDescriptor d).width
  pins : pinParams f.method = .ok pinned
  allotted : Allotted f.method pinned f.slots
  placed : ∀ l ∈ appearances f.method, (f.slots.of? l).isSome = true

variable {mark : Mark} {pinned : Slots} {f : Frame} (fitted : Fitted mark pinned f) {b : BlockId}
  {block : Block} {before rest : List Stmt} {s : Stmt} {l : Local} {c : Contents V} {args : Nat → V}

namespace Fitted

variable {dst : Local} {x : Nat} {v : V}

include fitted

lemma stmt_marked (among : s ∈ layoutStmts f.method) : s.Marked f.method.locals.size mark := by
  obtain ⟨b, -, block, here, mem⟩ := mem_layoutStmts.1 among
  exact (fitted.marked.blocks b block here).stmts s mem

lemma numbered : Numbered f.method := by
  intro b listed block here
  have marked := fitted.marked.blocks b block here
  refine ⟨fun s mem l mentioned => ?_, fun l read => marked.terminator _ read l rfl⟩
  rcases mentioned with defines | read
  · exact ((marked.stmts s mem).defines l defines).1
  · exact (marked.stmts s mem).reads _ read l rfl

lemma unpinned (among : s ∈ layoutStmts f.method) (defines : s.def? = some dst)
    (plain : s.param? = none) : pinned.of? dst = none := by
  by_contra placed
  obtain ⟨x, found⟩ := Option.ne_none_iff_exists'.1 placed
  obtain ⟨i, pins, -⟩ := pinParams_pinned fitted.pins found
  have one := ((fitted.stmt_marked among).defines dst defines).2
  have other := ((fitted.stmt_marked pins).defines dst rfl).2
  rw [one, plain] at other
  cases other

lemma store_apart (listed : b ∈ f.method.layout) (here : f.method.block? b = some block)
    (split : block.stmts = before ++ s :: rest) (defines : s.def? = some dst) (plain : s.param? = none)
    (live : l ∈ liveHere f.method b block rest) (other : l ≠ dst) {y}
    (at_dst : f.slots.of? dst = some x) (at_l : f.slots.of? l = some y) :
    Apart x (f.method.localType dst).width y (f.method.localType l).width := by
  have among : s ∈ layoutStmts f.method :=
    mem_layoutStmts.2 ⟨b, listed, block, here, by rw [split]; simp⟩
  have inside : dst.index < f.method.locals.size :=
    ((fitted.stmt_marked among).defines dst defines).1
  refine fitted.allotted.apart dst l x y at_dst at_l (.inl (fitted.unpinned among defines plain)) ?_
  exact (mem_conflicts inside).2 (.inl (mem_conflictPairs listed here split defines live other))

lemma arrived_put (arrived : Arrived f.method args c) (among : s ∈ layoutStmts f.method)
    (defines : s.def? = some dst) (plain : s.param? = none) (at_dst : f.slots.of? dst = some x)
    (width : Nat) : Arrived f.method args (c.put x width v) := by
  intro i y d offset found
  have behind := fitted.allotted.behind dst x at_dst (fitted.unpinned among defines plain)
  obtain ⟨d', found', -, below⟩ := paramOffsets_spec offset
  rw [found] at found'
  cases found'
  rw [Nat.zero_add] at below
  exact (arrived i y d offset found).put (.inr (Nat.le_trans below behind))

lemma param_slot {i} (among : .assign l (.param i) ∈ layoutStmts f.method) :
    ∃ x, (paramOffsets 0 f.method.params.toList)[i]? = some x ∧ f.slots.of? l = some x := by
  have marked := (fitted.stmt_marked among).defines l rfl
  obtain ⟨x, found⟩ := Option.isSome_iff_exists.1 (pinParams_pins fitted.pins marked.1 among)
  obtain ⟨j, pins, offset⟩ := pinParams_pinned fitted.pins found
  cases marked.2.symm.trans ((fitted.stmt_marked pins).defines l rfl).2
  exact ⟨x, offset, fitted.allotted.kept l x found⟩

lemma slot_of_read (among : s ∈ layoutStmts f.method) (read : .var l ∈ s.values) :
    ∃ x, f.slots.of? l = some x := by
  obtain ⟨b, listed, block, here, mem⟩ := mem_layoutStmts.1 among
  refine Option.isSome_iff_exists.1 (fitted.placed l (mem_flatMap.2 ⟨block, ?_, ?_⟩))
  · exact mem_filterMap.2 ⟨b, listed, here⟩
  · refine mem_append_left _ (mem_flatMap.2 ⟨s, mem, ?_⟩)
    exact mem_append_right _ (mem_localsOf.2 read)

lemma slot_of_ending (listed : b ∈ f.method.layout) (here : f.method.block? b = some block)
    (read : .var l ∈ block.terminator.values) : ∃ x, f.slots.of? l = some x := by
  refine Option.isSome_iff_exists.1 (fitted.placed l (mem_flatMap.2 ⟨block, ?_, ?_⟩))
  · exact mem_filterMap.2 ⟨b, listed, here⟩
  · exact mem_append_right _ (mem_localsOf.2 read)

end Fitted

namespace Upheld

variable {p : Point V}

lemma among (upheld : Upheld f args block before p) (next : p.rest = s :: rest) :
    s ∈ layoutStmts f.method := by
  refine mem_layoutStmts.2 ⟨p.block, upheld.listed, block, upheld.here, ?_⟩
  rw [upheld.split, next]
  simp

lemma live_of_read (next : p.rest = s :: rest) (read : .var l ∈ s.values) :
    l ∈ liveHere f.method p.block block p.rest := by
  rw [next, liveHere, liveAt_cons, mem_liveBefore]
  exact .inr (.inl read)

lemma operands (upheld : Upheld f args block before p) (fitted : Fitted mark pinned f)
    (next : p.rest = s :: rest) (l : Local) (v : V) (read : .var l ∈ s.values)
    (held : p.held l = some v) : Kept f p.contents l v := by
  obtain ⟨x, placed⟩ := fitted.slot_of_read (upheld.among next) read
  exact ⟨x, placed, upheld.live l (live_of_read next read) v held x placed⟩

lemma stmt (upheld : Upheld f args block before p) (fitted : Fitted mark pinned f)
    (next : p.rest = s :: rest) (made : stmtCode f s = .ok code) {r stored}
    (computes : Computes f args p s r stored) : Upheld f args block (before ++ [s])
      ⟨p.block, rest, assigned args p.held r s, p.contents.after stored code⟩ := by
  have split : block.stmts = before ++ s :: rest := by rw [upheld.split, next]
  have whole : block.stmts = (before ++ [s]) ++ rest := by simpa using split
  have among := upheld.among next
  have older : ∀ l ∈ liveHere f.method p.block block rest, s.def? ≠ some l → ∀ v,
      assigned args p.held r s l = some v → ∀ x, f.slots.of? l = some x →
        p.contents.Holds x (f.method.localType l).width v := by
    intro l live other v held
    rw [assigned_of_ne other] at held
    refine upheld.live l ?_ v held
    rw [next, liveHere, liveAt_cons, mem_liveBefore]
    exact .inl ⟨live, other⟩
  have other {dst l : Local} (ne : l ≠ dst) : some dst ≠ some l := fun same => ne (Option.some.inj same).symm
  have right := computes (upheld.operands fitted next)
  rcases stmtCode_pieces made with ⟨none_, parts⟩ | ⟨dst, i, rfl, rfl⟩ | ⟨dst, src, rfl, shares, rfl⟩ |
    ⟨dst, e, body, i, rfl, plain, -, parts, stores, rfl⟩
  · rw [Contents.after_plain parts.plain]
    exact ⟨upheld.listed, upheld.here, whole, fun l live => older l live (by simp [none_]), upheld.arrived⟩
  · refine ⟨upheld.listed, upheld.here, whole, fun l live v held x placed => ?_, upheld.arrived⟩
    by_cases same : l = dst
    · subst same
      obtain ⟨y, offset, at_l⟩ := fitted.param_slot among
      cases at_l.symm.trans placed
      obtain ⟨d, descriptor, -⟩ := paramOffsets_spec offset
      cases (assigned_param args p.held r l i).symm.trans held
      rw [fitted.widths l i d among descriptor]
      exact upheld.arrived i x d offset descriptor
    · exact older l live (other same) v held x placed
  · refine ⟨upheld.listed, upheld.here, whole, fun l live v held x placed => ?_, upheld.arrived⟩
    by_cases same : l = dst
    · subst same
      have source : p.held src = some v := (assigned_copy args p.held r l src).symm.trans held
      obtain ⟨y, at_src, holds⟩ := upheld.operands fitted next src v mem_cons_self source
      simp only [sharesSlot, Bool.and_eq_true, beq_iff_eq] at shares
      cases at_src.symm.trans (shares.2.symm.trans placed)
      rw [fitted.copies l src among]
      exact holds
    · exact older l live (other same) v held x placed
  · have free : (Stmt.assign dst e).param? = none := by
      cases e <;> first | rfl | exact absurd rfl (plain _)
    obtain ⟨y, at_dst, put⟩ := Contents.after_store (c := p.contents) (v := stored) body
      (fun i mem => written?_plain (parts i mem).plain) stores
    rw [put]
    refine ⟨upheld.listed, upheld.here, whole, fun l live v held x placed => ?_,
      fitted.arrived_put upheld.arrived among rfl free at_dst _⟩
    by_cases same : l = dst
    · subst same
      cases at_dst.symm.trans placed
      rw [right l v rfl held]
      exact Contents.holds_put
    · have apart := fitted.store_apart upheld.listed upheld.here split rfl free live same at_dst placed
      exact (older l live (other same) v held x placed).put apart

end Upheld

/-! ## Entries of blocks -/

lemma handlerEntry_cases {f position stmts rest entry} (made : handlerEntry f position stmts = .ok (entry, rest)) :
    (∃ dst i, stmts = .assign dst .caught :: rest ∧ store f dst = .ok i ∧
      entry = [.label (exceptionLabel position), i]) ∨ caughtHead stmts = [] ∧ rest = stmts ∧
      entry = [.label (exceptionLabel position), .simple .pop] := by
  unfold handlerEntry at made
  split at made
  · obtain ⟨i, stores, made⟩ := Outcome.bind_ok.1 made
    cases made
    exact .inl ⟨_, i, rfl, stores, rfl⟩
  · rename_i plain
    cases made
    refine .inr ⟨?_, rfl, rfl⟩
    unfold caughtHead
    split
    · exact absurd rfl (plain _ _)
    · rfl

section Entry

variable {held : Local → Option V} (listed : b ∈ f.method.layout) (here : f.method.block? b = some block)

include fitted listed here

lemma live_behind_entry {l} (live : l ∈ liveHere f.method b block (behindCaught block.stmts))
    (other : l ∉ defined (caughtHead block.stmts)) : l ∈ (liveIn f.method).of b := by
  refine liveIn_closed fitted.numbered b listed block here l ?_
  rw [entryLive, ← Pass.caughtHead_append block.stmts]
  rcases Pass.caughtHead_cases block.stmts with ⟨dst, head⟩ | ⟨head, -⟩
  · rw [head] at other ⊢
    rw [singleton_append, liveAt_cons, mem_liveBefore]
    refine .inl ⟨live, fun defines => other ?_⟩
    cases defines
    simp [defined, Stmt.def?]
  · rw [head]
    exact live

variable (live : ∀ l ∈ (liveIn f.method).of b, ∀ v, held l = some v → ∀ x, f.slots.of? l = some x →
    c.Holds x (f.method.localType l).width v) (arrived : Arrived f.method args c)

include live arrived

lemma arrival_upheld : ∃ before, Upheld f args block before (arrival f.method b block held c) := by
  unfold arrival
  split
  · refine ⟨caughtHead block.stmts, listed, here, (Pass.caughtHead_append _).symm, ?_, arrived⟩
    intro l alive v value
    simp only [received] at value
    split at value
    · cases value
    · rename_i other
      exact live l (live_behind_entry fitted listed here alive other) v value
  · exact ⟨[], listed, here, rfl,
      fun l alive => live l (liveIn_closed fitted.numbered b listed block here l alive), arrived⟩

lemma entry_upheld {position entry stmts x}
    (made : handlerEntry f position block.stmts = .ok (entry, stmts)) : ∃ before, Upheld f args block before
      ⟨b, stmts, received (some x) held block.stmts, c.after x entry⟩ := by
  have older := fun l => live_behind_entry fitted (l := l) listed here
  rcases handlerEntry_cases made with ⟨dst, i, first, stores, rfl⟩ | ⟨plain, rfl, rfl⟩
  · have among : .assign dst .caught ∈ layoutStmts f.method :=
      mem_layoutStmts.2 ⟨b, listed, block, here, by rw [first]; exact mem_cons_self⟩
    obtain ⟨y, at_dst, put⟩ := Contents.after_store (c := c) (v := x)
      [.label (exceptionLabel position)] (by simp [written?]) stores
    have split : block.stmts = [] ++ .assign dst .caught :: stmts := first
    rw [singleton_append] at put
    rw [put, first]
    rw [first] at older
    refine ⟨[.assign dst .caught], listed, here, first, fun l alive v value z placed => ?_,
      fitted.arrived_put arrived among rfl rfl at_dst _⟩
    by_cases same : l = dst
    · subst same
      cases at_dst.symm.trans placed
      cases (if_pos mem_cons_self : received (some x) held (.assign l .caught :: stmts) l = _).symm.trans
        value
      exact Contents.holds_put
    · have other : l ∉ defined (caughtHead (.assign dst .caught :: stmts)) :=
        fun mem => same (mem_singleton.1 mem)
      have value : held l = some v := (if_neg other).symm.trans value
      exact (live l (older l alive other) v value z placed).put
        (fitted.store_apart listed here split rfl rfl alive same at_dst placed)
  · have none_ (l : Local) : l ∉ defined (caughtHead block.stmts) := by simp [plain, defined]
    have proper : behindCaught block.stmts = block.stmts := by
      conv_rhs => rw [← Pass.caughtHead_append block.stmts, plain, nil_append]
    refine ⟨[], listed, here, rfl, fun l alive v value => ?_, arrived⟩
    have value : held l = some v := (if_neg (none_ l)).symm.trans value
    rw [proper] at older
    exact live l (older l alive (none_ l)) v value

end Entry

/-! ## Every point -/

lemma Visits.upheld {mark pinned f} (fitted : Fitted mark pinned f)
    {args} {p : Point V} (visited : Visits f args p) : ∃ block before, Upheld f args block before p := by
  induction visited with
  | @start block listed here =>
    refine ⟨block, arrival_upheld fitted listed here (fun _ _ v value => by cases value) ?_⟩
    exact fun i x d => Contents.arguments_hold args
  | stmt _ next made computes ih =>
    obtain ⟨block, before, upheld⟩ := ih
    exact ⟨block, _, upheld.stmt fitted next made computes⟩
  | @jump p found target t behind code stored _ next here made leads listed there ih =>
    obtain ⟨block, before, upheld⟩ := ih
    rw [Contents.after_plain (terminatorCode_plain made)]
    refine ⟨target, arrival_upheld fitted listed there (fun l live => upheld.live l ?_) upheld.arrived⟩
    rw [next, liveHere, liveAt_nil, endLive, mem_liveAtEnd]
    refine .inl (LiveIn.mem_union.2 ⟨t, ?_, live⟩)
    rw [Method.successors, here]
    exact leads
  | @raise p done entry h handler position stmts stored x _ raises catches listed there made ih =>
    obtain ⟨block, before, upheld⟩ := ih
    rw [Contents.after_plain raises.plain]
    refine ⟨handler, entry_upheld fitted listed there (fun l live => upheld.live l ?_) upheld.arrived made⟩
    exact raises.live upheld.here l (LiveIn.mem_union.2 ⟨h, catches, live⟩)

/-- What is read is in its slots. -/
lemma Visits.reads_kept {mark pinned f} (fitted : Fitted mark pinned f)
    {args p} (visited : Visits f args p) {l} {v : V}
    (reads : p.Reads f l) (held : p.held l = some v) : Kept f p.contents l v := by
  obtain ⟨block, before, upheld⟩ := visited.upheld fitted
  unfold Point.Reads at reads
  split at reads
  · rename_i s rest next
    exact upheld.operands fitted next l v reads held
  · rename_i next
    obtain ⟨found, here, read⟩ := reads
    cases upheld.here.symm.trans here
    obtain ⟨x, placed⟩ := fitted.slot_of_ending upheld.listed here read
    refine ⟨x, placed, upheld.live l ?_ v held x placed⟩
    rw [next, liveHere, liveAt_nil, endLive, mem_liveAtEnd]
    exact .inr (.inl read)

end Runs

end Restack.Lowering
