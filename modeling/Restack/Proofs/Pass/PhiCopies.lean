/-
# Where the copies for phis stand

A block becomes (`spreadBlock`) its read of a caught exception, one copy per phi out of
the phi's carrier, its other statements, and the copies into the carriers of its
successors: those for handlers in front of the last statement that can throw, the others
at the end. Carriers are new locals, one per phi (`Method.carrier`), so no copy reads what
another one writes.
-/
import Restack.Pass.PhiCopies
import Restack.Proofs.Ir.Valid

namespace Restack.Pass

open List Ir

/-! ## Places in a block -/

/-- The read of a caught exception, if a block begins with it. -/
def caughtHead : List Stmt → List Stmt
  | .assign l .caught :: _ => [.assign l .caught]
  | _ => []

def behindCaught : List Stmt → List Stmt
  | .assign _ .caught :: rest => rest
  | stmts => stmts

/-- Splits statements in front of the last one that can throw. -/
def splitAtThrow : List Stmt → List Stmt × List Stmt
  | [] => ([], [])
  | s :: rest =>
    if rest.any Stmt.canThrow then (s :: (splitAtThrow rest).1, (splitAtThrow rest).2)
    else if s.canThrow then ([], s :: rest)
    else (s :: rest, [])

lemma caughtHead_append (stmts : List Stmt) : caughtHead stmts ++ behindCaught stmts = stmts := by
  unfold caughtHead behindCaught
  split <;> rfl

lemma caughtHead_cases (stmts : List Stmt) : (∃ l, caughtHead stmts = [.assign l .caught]) ∨
      caughtHead stmts = [] ∧ ∀ l, stmts.head? ≠ some (.assign l .caught) := by
  unfold caughtHead
  split
  · exact .inl ⟨_, rfl⟩
  · rename_i other
    refine .inr ⟨rfl, fun l first => ?_⟩
    obtain ⟨rest, rfl⟩ := head?_eq_some_iff.1 first
    exact other l rest rfl

lemma caughtHead_calm (stmts : List Stmt) : ∀ s ∈ caughtHead stmts, s.canThrow = false := by
  intro s mem
  rcases caughtHead_cases stmts with ⟨l, same⟩ | ⟨same, -⟩
  · rw [same, mem_singleton] at mem
    subst mem
    rfl
  · rw [same] at mem
    cases mem

lemma splitAtThrow_append (stmts : List Stmt) : (splitAtThrow stmts).1 ++ (splitAtThrow stmts).2 = stmts := by
  induction stmts with
  | nil => rfl
  | cons s rest ih =>
    rw [splitAtThrow]
    split
    · rw [cons_append, ih]
    · split
      · rfl
      · exact append_nil _

lemma splitAtThrow_cases (stmts : List Stmt) :
    (∃ s rest, (splitAtThrow stmts).2 = s :: rest ∧ s.canThrow = true ∧ ∀ r ∈ rest, r.canThrow = false) ∨
      (splitAtThrow stmts).2 = [] ∧ ∀ s ∈ stmts, s.canThrow = false := by
  induction stmts with
  | nil => exact .inr ⟨rfl, by simp⟩
  | cons s rest ih =>
    rw [splitAtThrow]
    split
    · rename_i later
      refine ih.imp id fun ⟨_, calm⟩ => ?_
      obtain ⟨r, mem, throws⟩ := any_eq_true.1 later
      rw [calm r mem] at throws
      cases throws
    · rename_i quiet
      have calm : ∀ r ∈ rest, r.canThrow = false := by simpa using quiet
      split
      · rename_i throws
        exact .inl ⟨s, rest, rfl, throws, calm⟩
      · rename_i still
        refine .inr ⟨rfl, fun r mem => ?_⟩
        rcases mem_cons.1 mem with rfl | later
        · simpa using still
        · exact calm r later

lemma insertBeforeLastThrow_eq (copy : Stmt) (before : List Stmt) {s rest}
    (throws : s.canThrow = true) (calm : ∀ r ∈ rest, r.canThrow = false) :
    insertBeforeLastThrow copy (before ++ s :: rest) = before ++ copy :: s :: rest := by
  have after : (((before ++ s :: rest).reverse.takeWhile (!Stmt.canThrow ·)).length) = rest.length := by
    rw [reverse_append, reverse_cons, append_assoc, takeWhile_append_of_pos]
    · simp [throws]
    · intro r mem
      rw [calm r (mem_reverse.1 mem)]
      rfl
  have less : rest.length ≠ (before ++ s :: rest).length := by
    rw [length_append, length_cons]
    omega
  have place : (before ++ s :: rest).length - rest.length - 1 = before.length := by
    rw [length_append, length_cons]
    omega
  simp only [insertBeforeLastThrow, after, place, beq_eq_false_iff_ne.2 less, Bool.false_eq_true,
    if_false, take_left, drop_left]

lemma insertHeads_of_other (heads : List Stmt) {stmts}
    (other : ∀ l, stmts.head? ≠ some (.assign l .caught)) : insertHeads heads stmts = heads ++ stmts := by
  unfold insertHeads
  split
  · exact absurd rfl (other _)
  · rfl

/-! ## Copies -/

/-- What a predecessor assigns for a phi of a block. -/
structure Copy where
  source : BlockId
  target : BlockId
  carrier : Local
  value : Value

def Copy.stmt (c : Copy) : Stmt := .assign c.carrier (.value c.value)

/-- Whether copies for a block stand in front of what throws. -/
def goesEarly (m : Method) (b : BlockId) (block : Block) (t : BlockId) : Bool :=
  (m.exceptionalSuccessors b).contains t && !block.terminator.isThrow

def earlyCopies (m : Method) (copies : List Copy) (b : BlockId) (block : Block) : List Copy :=
  copies.filter fun c => c.source == b && goesEarly m b block c.target

def lateCopies (m : Method) (copies : List Copy) (b : BlockId) (block : Block) : List Copy :=
  copies.filter fun c => c.source == b && !goesEarly m b block c.target

/-- A block with copies, and with the heads of its own phis once they are replaced. -/
def weave (m : Method) (copies : List Copy) (heads : BlockId → Option (List Stmt)) (b : BlockId)
    (block : Block) : Block where
  phis := if (heads b).isSome then [] else block.phis
  stmts := caughtHead block.stmts ++ ((heads b).getD [] ++
    ((splitAtThrow (behindCaught block.stmts)).1 ++ ((earlyCopies m copies b block).map Copy.stmt ++
      ((splitAtThrow (behindCaught block.stmts)).2 ++ (lateCopies m copies b block).map Copy.stmt))))
  terminator := block.terminator

/-- A method with copies and heads put into its blocks. -/
structure Woven (m m' : Method) (copies : List Copy) (heads : BlockId → Option (List Stmt)) : Prop where
  blocks : ∀ b, m'.block? b = (m.block? b).map (weave m copies heads b)
  calm : ∀ b stmts, heads b = some stmts → ∀ s ∈ stmts, s.canThrow = false
  layout : m'.layout = m.layout
  entry : m'.entry = m.entry
  traps : m'.traps = m.traps

section Weaving

variable {m m' : Method} {copies : List Copy} {heads : BlockId → Option (List Stmt)} {b : BlockId}
  {block : Block}

lemma copies_calm (copies : List Copy) : ∀ s ∈ copies.map Copy.stmt, s.canThrow = false := by
  intro s mem
  obtain ⟨c, -, rfl⟩ := mem_map.1 mem
  rfl

lemma stmts_any_eq (stmts : List Stmt) :
    ((splitAtThrow (behindCaught stmts)).1 ++ (splitAtThrow (behindCaught stmts)).2).any Stmt.canThrow =
      stmts.any Stmt.canThrow := by
  rw [splitAtThrow_append]
  conv_rhs => rw [← caughtHead_append stmts, any_append]
  have calm : (caughtHead stmts).any Stmt.canThrow = false := by simpa using caughtHead_calm _
  rw [calm, Bool.false_or]

lemma goesEarly_throws (found : m.block? b = some block) {t}
    (early : goesEarly m b block t = true) : t ∈ m.exceptionalSuccessors b ∧
      ∃ s rest, (splitAtThrow (behindCaught block.stmts)).2 = s :: rest ∧ s.canThrow = true ∧
        ∀ r ∈ rest, r.canThrow = false := by
  obtain ⟨caught, goes⟩ := Bool.and_eq_true_iff.1 (show (_ && _) = true from early)
  rw [contains_iff_mem] at caught
  rw [Bool.not_eq_true'] at goes
  have throws := ((Method.mem_exceptionalSuccessors found).1 caught).1
  rw [Block.canThrow, goes, Bool.or_false, ← stmts_any_eq, splitAtThrow_append, any_eq_true] at throws
  obtain ⟨s, mem, raises⟩ := throws
  refine ⟨caught, (splitAtThrow_cases _).resolve_right fun calm => ?_⟩
  rw [calm.2 s mem] at raises
  cases raises

lemma insert_early (found : m.block? b = some block) {t} (early : goesEarly m b block t = true)
    (carrier : Local) (v : Value) :
    insertBeforeLastThrow (.assign carrier (.value v)) (weave m copies heads b block).stmts =
      (weave m (copies ++ [⟨b, t, carrier, v⟩]) heads b block).stmts := by
  obtain ⟨-, s, rest, back, raises, calm⟩ := goesEarly_throws found early
  have quiet : ∀ r ∈ rest ++ (lateCopies m copies b block).map Copy.stmt, r.canThrow = false := by
    intro r mem
    rcases mem_append.1 mem with one | other
    · exact calm r one
    · exact copies_calm _ r other
  have placed := insertBeforeLastThrow_eq (.assign carrier (.value v))
    (caughtHead block.stmts ++ ((heads b).getD [] ++ ((splitAtThrow (behindCaught block.stmts)).1 ++
      (earlyCopies m copies b block).map Copy.stmt))) raises quiet
  simpa [weave, back, earlyCopies, lateCopies, early, Copy.stmt] using placed

lemma weave_update {c stmts} (other : c ≠ b) :
    weave m copies (Function.update heads b stmts) c block = weave m copies heads c block := by
  simp [weave, Function.update_of_ne other]

lemma insertHeads_weave (none_yet : (heads b).getD [] = []) (stmts : List Stmt) :
    insertHeads stmts (weave m copies heads b block).stmts =
      (weave m copies (Function.update heads b (some stmts)) b block).stmts := by
  simp only [weave, none_yet, nil_append, Function.update_self, Option.getD_some]
  rcases caughtHead_cases block.stmts with ⟨l, first⟩ | ⟨first, other⟩
  · rw [first]
    rfl
  · have whole := caughtHead_append block.stmts
    rw [first, nil_append] at whole
    rw [first, nil_append, nil_append, whole, insertHeads_of_other]
    intro l
    rw [← splitAtThrow_append block.stmts] at other
    have copy (cs : List Copy) : (cs.map Copy.stmt).head? ≠ some (.assign l .caught) := by
      cases cs <;> simp [Copy.stmt]
    have := other l
    simp only [head?_append] at this ⊢
    cases front : (splitAtThrow block.stmts).1.head? with
    | some s => simpa [front] using this
    | none =>
      cases early : ((earlyCopies m copies b block).map Copy.stmt).head? with
      | some s => simpa [early] using copy (earlyCopies m copies b block)
      | none =>
        cases back : (splitAtThrow block.stmts).2.head? with
        | some s => simpa [front, back] using this
        | none => simpa using copy (lateCopies m copies b block)

lemma Woven.init (m : Method) : Woven m m [] fun _ => none := by
  refine ⟨fun b => ?_, by simp, rfl, rfl, rfl⟩
  cases m.block? b with
  | none => rfl
  | some block =>
    rw [Option.map_some, weave]
    simp only [earlyCopies, lateCopies, filter_nil, map_nil, nil_append,
      append_nil, Option.getD_none, splitAtThrow_append, caughtHead_append]
    rfl

namespace Woven

variable (woven : Woven m m' copies heads)

include woven

lemma heads_calm (b : BlockId) : ∀ s ∈ (heads b).getD [], s.canThrow = false := by
  intro s mem
  cases found : heads b with
  | none => simp [found] at mem
  | some stmts => exact woven.calm b stmts found s (by simpa [found] using mem)

lemma canThrow : (weave m copies heads b block).canThrow = block.canThrow := by
  have first : (caughtHead block.stmts).any Stmt.canThrow = false := by simpa using caughtHead_calm _
  have second : ((heads b).getD []).any Stmt.canThrow = false := by simpa using woven.heads_calm b
  have early : ((earlyCopies m copies b block).map Copy.stmt).any Stmt.canThrow = false := by
    simpa using copies_calm (earlyCopies m copies b block)
  have late : ((lateCopies m copies b block).map Copy.stmt).any Stmt.canThrow = false := by
    simpa using copies_calm (lateCopies m copies b block)
  rw [Block.canThrow, Block.canThrow, ← stmts_any_eq block.stmts]
  simp only [weave, any_append, first, second, early, late, Bool.false_or, Bool.or_false]

lemma exceptionalSuccessors : m'.exceptionalSuccessors b = m.exceptionalSuccessors b := by
  rw [Method.exceptionalSuccessors, Method.exceptionalSuccessors, woven.blocks b, woven.traps]
  cases m.block? b with
  | none => rfl
  | some block =>
    rw [Option.map_some]
    simp only [woven.canThrow]

lemma copyIn (t source : BlockId) (carrier : Local) (v : Value) :
    Woven m (copyIn t carrier m' source v) (copies ++ [⟨source, t, carrier, v⟩]) heads := by
  refine ⟨fun b => ?_, woven.calm, woven.layout, woven.entry, woven.traps⟩
  rw [Pass.copyIn, Method.block?_modifyBlock, woven.blocks b, woven.exceptionalSuccessors]
  by_cases same : b = source
  · subst same
    rw [if_pos rfl, Option.map_map]
    refine Option.map_congr fun block found => ?_
    have place : ((m.exceptionalSuccessors b).contains t && !block.terminator.isThrow) =
        goesEarly m b block t := rfl
    simp only [Function.comp_apply]
    rw [show (weave m copies heads b block).terminator = block.terminator from rfl, place]
    cases early : goesEarly m b block t with
    | false => simp [weave, earlyCopies, lateCopies, early, Copy.stmt]
    | true =>
      rw [insert_early found early]
      rfl
  · rw [if_neg same]
    have other : (source == b) = false := by simpa using Ne.symm same
    refine Option.map_congr fun block _ => ?_
    simp [weave, earlyCopies, lateCopies, filter_append, other]

lemma calm_update {stmts} (calm : ∀ s ∈ stmts, s.canThrow = false) (c : BlockId)
    (stmts' : List Stmt) (same : Function.update heads b (some stmts) c = some stmts') :
    ∀ s ∈ stmts', s.canThrow = false := by
  by_cases at_ : c = b
  · subst at_
    rw [Function.update_self, Option.some.injEq] at same
    exact same ▸ calm
  · rw [Function.update_of_ne at_] at same
    exact woven.calm c stmts' same

lemma noHeads (none_ : m.phisOf b = []) (open_ : heads b = none) :
    Woven m m' copies (Function.update heads b (some [])) := by
  refine ⟨fun c => ?_, woven.calm_update (by simp), woven.layout, woven.entry, woven.traps⟩
  rw [woven.blocks]
  refine Option.map_congr fun block here => ?_
  by_cases same : c = b
  · subst same
    rw [Method.phisOf_eq here] at none_
    simp [weave, open_, none_]
  · exact (weave_update same).symm

lemma setHeads (here : m.block? b = some block) (open_ : heads b = none) :
    Woven m (m'.setBlock b { weave m copies heads b block with phis := [] }) copies
      (Function.update heads b (some [])) := by
  have found : m'.block? b = some (weave m copies heads b block) := by rw [woven.blocks, here]; rfl
  refine ⟨fun c => ?_, woven.calm_update (by simp), woven.layout, woven.entry, woven.traps⟩
  rw [Method.block?_setBlock (Method.index_lt_of_block? found)]
  by_cases same : c = b
  · subst same
    rw [here]
    simp [weave, open_]
  · rw [if_neg same, woven.blocks]
    exact Option.map_congr fun block _ => (weave_update same).symm

lemma insertHeads {stmts} (open_ : heads b = some []) (calm : ∀ s ∈ stmts, s.canThrow = false) :
    Woven m (m'.modifyBlock b fun block => { block with stmts := insertHeads stmts block.stmts }) copies
      (Function.update heads b (some stmts)) := by
  refine ⟨fun c => ?_, woven.calm_update calm, woven.layout, woven.entry, woven.traps⟩
  rw [Method.block?_modifyBlock, woven.blocks]
  by_cases same : c = b
  · subst same
    rw [if_pos rfl, Option.map_map]
    refine Option.map_congr fun block _ => ?_
    simp only [Function.comp_apply]
    rw [insertHeads_weave (by rw [open_]; rfl)]
    simp [weave, open_]
  · rw [if_neg same]
    exact Option.map_congr fun block _ => (weave_update same).symm

lemma spreadPhi (p : Phi) : ∃ m'', spreadPhi b m' p = (.assign p.dst (.value (.var ⟨m'.locals.size⟩)), m'') ∧
    Woven m m'' (copies ++ p.operands.map fun o => ⟨o.1, b, ⟨m'.locals.size⟩, o.2⟩) heads ∧
    m''.locals.size = m'.locals.size + 1 := by
  have spread (carrier : Local) (operands : List (BlockId × Value)) {m'' : Method} {copies : List Copy}
      (woven : Woven m m'' copies heads) :
      Woven m (operands.foldl (fun m o => Pass.copyIn b carrier m o.1 o.2) m'')
        (copies ++ operands.map fun o => ⟨o.1, b, carrier, o.2⟩) heads ∧
      (operands.foldl (fun m o => Pass.copyIn b carrier m o.1 o.2) m'').locals = m''.locals := by
    induction operands generalizing m'' copies with
    | nil => exact ⟨by simpa using woven, rfl⟩
    | cons o rest ih =>
      obtain ⟨done, locals⟩ := ih (woven.copyIn b o.1 carrier o.2)
      exact ⟨by simpa using done, locals⟩
  have fresh : Woven m m'.freshLocal.2 copies heads :=
    ⟨woven.blocks, woven.calm, woven.layout, woven.entry, woven.traps⟩
  obtain ⟨done, locals⟩ := spread ⟨m'.locals.size⟩ p.operands fresh
  refine ⟨_, rfl, done, ?_⟩
  exact (congrArg Array.size locals).trans (Array.size_push _)

lemma spreadPhis {carrier : Local → Local} (phis : List Phi) (carriers : phis.map (fun p => carrier p.dst) =
      (List.range' m'.locals.size phis.length).map Local.mk) : ∃ m'', spreadPhis b m' phis =
        (phis.map fun p => .assign p.dst (.value (.var (carrier p.dst))), m'') ∧
      Woven m m'' (copies ++ phis.flatMap fun p => p.operands.map fun o =>
        ⟨o.1, b, carrier p.dst, o.2⟩) heads ∧ m''.locals.size = m'.locals.size + phis.length := by
  induction phis generalizing m' copies with
  | nil => exact ⟨m', rfl, by simpa using woven, rfl⟩
  | cons p phis ih =>
    rw [map_cons, length_cons, range'_succ, map_cons, cons.injEq] at carriers
    obtain ⟨first, rest⟩ := carriers
    obtain ⟨m₁, spread, woven₁, size⟩ := woven.spreadPhi (b := b) p
    rw [← size] at rest
    obtain ⟨m₂, spread', woven₂, size'⟩ := ih woven₁ rest
    refine ⟨m₂, ?_, ?_, ?_⟩
    · simp only [Pass.spreadPhis, spread, spread', map_cons, first]
    · rw [← first] at woven₂
      simpa using woven₂
    · rw [length_cons]
      omega

end Woven

end Weaving

/-! ## All phis -/

/-- Destinations of the phis of some blocks. -/
def dstsOf (m : Method) (bs : List BlockId) : List Local :=
  bs.flatMap fun b => (m.phisOf b).map (·.dst)

/-- The new local that carries the value of a phi. -/
def carrier (m : Method) (d : Local) : Local := ⟨m.locals.size + (dstsOf m m.layout).idxOf d⟩

def copiesInto (m : Method) (b : BlockId) : List Copy :=
  (m.phisOf b).flatMap fun p => p.operands.map fun o => ⟨o.1, b, carrier m p.dst, o.2⟩

def headsOf (m : Method) (b : BlockId) : List Stmt :=
  (m.phisOf b).map fun p => .assign p.dst (.value (.var (carrier m p.dst)))

def copiesOf (m : Method) : List Copy := m.layout.flatMap (copiesInto m)

/-- A block with its phis and those of its successors replaced. -/
def spreadBlock (m : Method) (b : BlockId) (block : Block) : Block where
  phis := []
  stmts := caughtHead block.stmts ++ (headsOf m b ++ ((splitAtThrow (behindCaught block.stmts)).1 ++
      ((earlyCopies m (copiesOf m) b block).map Copy.stmt ++ ((splitAtThrow (behindCaught block.stmts)).2 ++
          (lateCopies m (copiesOf m) b block).map Copy.stmt))))
  terminator := block.terminator

/-- A method with the phis of some blocks replaced. -/
structure Replaced (m m' : Method) (bs : List BlockId) : Prop where
  woven : Woven m m' (bs.flatMap (copiesInto m)) fun b => if b ∈ bs then some (headsOf m b) else none
  size : m'.locals.size = m.locals.size + (dstsOf m bs).length

variable {m m' : Method} {b : BlockId} {block : Block} {bs : List BlockId}

lemma headsOf_calm : ∀ s ∈ headsOf m b, s.canThrow = false := by
  intro s mem
  obtain ⟨p, -, rfl⟩ := mem_map.1 mem
  rfl

lemma carriers_eq (distinct : (dstsOf m m.layout).Nodup) {later} (layout : m.layout = bs ++ b :: later) :
    (m.phisOf b).map (fun p => carrier m p.dst) =
      (List.range' (m.locals.size + (dstsOf m bs).length) (m.phisOf b).length).map Local.mk := by
  have split : dstsOf m m.layout = dstsOf m bs ++ ((m.phisOf b).map (·.dst) ++ dstsOf m later) := by
    rw [layout]
    simp [dstsOf]
  refine ext_getElem (by simp) fun i low high => ?_
  have inside : i < (m.phisOf b).length := by simpa using low
  have place : (dstsOf m m.layout)[(dstsOf m bs).length + i]? = some (m.phisOf b)[i].dst := by
    rw [split, getElem?_append_right (Nat.le_add_right _ _), Nat.add_sub_cancel_left,
      getElem?_append_left (by simpa using inside)]
    simp [inside]
  obtain ⟨bound, at_⟩ := List.getElem?_eq_some_iff.1 place
  have index : (dstsOf m m.layout).idxOf (m.phisOf b)[i].dst = (dstsOf m bs).length + i := by
    rw [← at_, distinct.idxOf_getElem]
  simp only [getElem_map, carrier, getElem_range', Local.mk.injEq]
  omega

lemma Replaced.step (replaced : Replaced m m' bs) (distinct : (dstsOf m m.layout).Nodup)
    {later} (layout : m.layout = bs ++ b :: later) (fresh : b ∉ bs) :
    Replaced m (replacePhisOf m' b).1 (bs ++ [b]) := by
  have woven := replaced.woven
  have open_ : (if b ∈ bs then some (headsOf m b) else none) = none := if_neg fresh
  have heads : (fun c => if c ∈ bs ++ [b] then some (headsOf m c) else none) =
      Function.update (fun c => if c ∈ bs then some (headsOf m c) else none) b (some (headsOf m b)) := by
    funext c
    by_cases same : c = b
    · subst same
      simp
    · simp [same]
  have copies : (bs ++ [b]).flatMap (copiesInto m) = bs.flatMap (copiesInto m) ++ copiesInto m b := by
    simp
  have size : (dstsOf m (bs ++ [b])).length = (dstsOf m bs).length + (m.phisOf b).length := by
    simp [dstsOf]
  have empty (none_ : m.phisOf b = []) : Replaced m m' (bs ++ [b]) := by
    refine ⟨?_, by rw [size, none_]; exact replaced.size⟩
    rw [copies, heads, copiesInto, headsOf, none_, flatMap_nil, append_nil]
    exact woven.noHeads none_ open_
  rw [replacePhisOf, woven.blocks b]
  cases here : m.block? b with
  | none => exact empty (by rw [Method.phisOf, here]; rfl)
  | some block =>
    have phis : (weave m (bs.flatMap (copiesInto m))
        (fun c => if c ∈ bs then some (headsOf m c) else none) b block).phis = m.phisOf b := by
      rw [Method.phisOf_eq here]
      simp [weave, fresh]
    simp only [Option.map_some, phis]
    by_cases none_ : m.phisOf b = []
    · simpa [none_] using empty none_
    · have carriers := carriers_eq distinct layout
      rw [← replaced.size] at carriers
      obtain ⟨m₁, spread, woven₁, grown⟩ :=
        (woven.setHeads here open_).spreadPhis (b := b) (m.phisOf b) carriers
      rw [if_neg (by simpa using none_)]
      simp only [spread]
      refine ⟨?_, ?_⟩
      · rw [copies, heads]
        have done := woven₁.insertHeads (Function.update_self ..) (headsOf_calm (m := m) (b := b))
        rw [Function.update_idem] at done
        exact done
      · rw [size, ← Nat.add_assoc, ← replaced.size]
        exact grown

/-- What replacing phis does with one block. -/
def replaceStep (state : Method × Bool) (b : BlockId) : Method × Bool :=
  ((replacePhisOf state.1 b).1, state.2 || (replacePhisOf state.1 b).2)

lemma replacePhis_replaced (distinct : (dstsOf m m.layout).Nodup) (once : m.layout.Nodup) :
    Replaced m (replacePhis m).1 m.layout := by
  have walk : ∀ (later bs : List BlockId) (m' : Method) (changed : Bool), m.layout = bs ++ later →
      Replaced m m' bs → Replaced m (later.foldl replaceStep (m', changed)).1 m.layout := by
    intro later
    induction later with
    | nil =>
      intro bs m' changed layout replaced
      rw [layout, append_nil]
      exact replaced
    | cons b later ih =>
      intro bs m' changed layout replaced
      have fresh : b ∉ bs := fun mem =>
        (nodup_append.1 (layout ▸ once)).2.2 b mem b mem_cons_self rfl
      exact ih (bs ++ [b]) _ _ (by rw [layout]; simp) (replaced.step distinct layout fresh)
  refine walk m.layout [] m false rfl ⟨?_, rfl⟩
  simpa using Woven.init m

lemma dstsOf_nodup (loose : m.Loose) : (dstsOf m m.layout).Nodup := by
  have defs {c : BlockId} {l : Local} (mem : l ∈ (m.phisOf c).map (·.dst)) :
      ∃ block, m.block? c = some block ∧ l ∈ block.defs := by
    obtain ⟨p, merged, rfl⟩ := mem_map.1 mem
    obtain ⟨block, here, phi⟩ := Method.mem_phisOf merged
    exact ⟨block, here, mem_append_left _ (mem_map_of_mem phi)⟩
  rw [dstsOf, nodup_flatMap]
  refine ⟨fun c _ => ?_, loose.layout_nodup.imp fun {c d} ne l one other => ?_⟩
  · cases found : m.block? c with
    | none => simp [Method.phisOf, found]
    | some block =>
      rw [Method.phisOf_eq found]
      exact (loose.block_defs c block found).sublist (sublist_append_left _ _)
  · obtain ⟨block, here, mine⟩ := defs one
    obtain ⟨block', there, theirs⟩ := defs other
    exact ne (loose.defs_apart c d block block' l here there mine theirs)

lemma block?_replacePhis (loose : m.Loose) :
    (replacePhis m).1.block? b = (m.block? b).map (spreadBlock m b) := by
  have woven := (replacePhis_replaced (dstsOf_nodup loose) loose.layout_nodup).woven
  rw [woven.blocks]
  refine Option.map_congr fun block here => ?_
  have listed : b ∈ m.layout := (loose.mem_layout b).2 (by rw [here]; rfl)
  simp only [weave, listed]
  rfl

end Restack.Pass
