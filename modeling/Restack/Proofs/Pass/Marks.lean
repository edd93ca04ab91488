/-
# Passes and the locals of parameters

No pass defines the local of a parameter in another way, and none uses a local that the
method does not count (`Pass.keeps_marked`). The statements that passes put in are copies,
constructed objects, array literals and direct allocations, so what every statement has
survives where these have it (`Stable`).
-/
import Restack.Proofs.Ir.Marks
import Restack.Proofs.Pass.Jumps
import Restack.Proofs.Pass.Reflection
import Restack.Proofs.Pass.Throwing

namespace Restack.Pass

open List Ir
open Outcome

/-- A property that survives what passes do to statements, and that the statements have which
passes put in. -/
structure Stable (P : Stmt → Prop) : Prop where
  withValues : ∀ s vs, P s → P (s.withValues vs)
  /-- A result is dropped only where there is an effect to keep. -/
  effect : ∀ dst e, e.isPure = false → P (.assign dst e) → P (.effect e)
  copy : ∀ dst v, P (.assign dst (.value v))
  object : ∀ dst type constructor args, P (.assign dst (.newObject type constructor args))
  literal : ∀ dst type vs, P (.assign dst (.filledArray type vs))
  allocation : ∀ dst element dims, dims ≠ [] → P (.assign dst (allocation element dims))

lemma stable_trivial : Stable fun _ => True := by
  constructor <;> simp

variable {m m' : Method} {mark : Mark} {count : Nat}

/-! ## Jumps -/

lemma skip_marked (marked : m.Marked mark) (b target : BlockId) (sources : List BlockId) :
    (skip m b target sources).Marked mark := by
  have retargeted : (sources.foldl (fun m source => m.modifyBlock source fun block =>
      { block with terminator := block.terminator.retarget b target }) m).Marked mark := by
    induction sources generalizing m with
    | nil => exact marked
    | cons source sources ih =>
      refine ih (marked.modifyBlock fun block old => ?_)
      refine ⟨old.phis, old.stmts, ?_⟩
      rw [values_retarget]
      exact old.terminator
  refine (Method.Marked.eraseBlock (retargeted.modifyBlock fun block old => ?_)).pruneEdges
  refine ⟨fun p mem => ?_, old.stmts, old.terminator⟩
  obtain ⟨p', among, rfl⟩ := mem_map.1 mem
  have phi := old.phis p' among
  unfold Phi.reroute
  split
  · exact phi
  · rename_i v found
    refine ⟨phi.dst, phi.free, fun o mem => ?_⟩
    rcases mem_append.1 mem with kept | routed
    · exact phi.reads o (mem_of_mem_eraseP kept)
    · obtain ⟨source, -, rfl⟩ := mem_map.1 routed
      exact phi.reads (b, v) (Lookup.mem_of_lookup found)

variable {b : BlockId} {σ : Substitution} {v : Value} {s : Stmt}

lemma glue_marked (marked : m.Marked mark) {next absorbed}
    (can : Gluable m b next absorbed) : (glue m b next absorbed).Marked mark := by
  have gone := marked.blocks next absorbed can.behind
  have joined := (marked.eraseBlock (b := next)).modifyBlock (b := b) (g := fun block =>
      { block with stmts := block.stmts ++ absorbed.stmts, terminator := absorbed.terminator })
    fun block old => ⟨old.phis, fun s mem => (mem_append.1 mem).elim (old.stmts s) (gone.stmts s),
      gone.terminator⟩
  rw [glue]
  refine joined.mapBlocks fun _ block old => ?_
  refine ⟨fun p mem => ?_, old.stmts, old.terminator⟩
  obtain ⟨p', among, rfl⟩ := mem_map.1 mem
  refine ⟨(old.phis p' among).dst, (old.phis p' among).free, fun o mem => ?_⟩
  obtain ⟨o', among', rfl⟩ := mem_map.1 mem
  have below := (old.phis p' among).reads o' among'
  split <;> exact below

lemma cleanLabels_marked (marked : m.Marked mark) : (cleanLabels m).1.Marked mark :=
  cleanLabels_preserves (P := (·.Marked mark))
    (fun _ b target sources marked _ _ => skip_marked marked b target sources)
    (fun _ _ _ _ marked _ can => glue_marked marked can) marked

/-! ## Dead code, copies and constants -/

variable (stable : Stable mark.has)

include stable

lemma removeDead_marked (marked : m.Marked mark) : (removeDead m).1.Marked mark := by
  rw [removeDead_fst]
  refine marked.removeUnreachable.pruneEdges.mapBlocks fun _ block old => ?_
  refine ⟨fun p mem => old.phis p (mem_filter.1 mem).1, fun s mem => ?_, old.terminator⟩
  obtain ⟨s', among, kept⟩ := mem_filterMap.1 mem
  have stmt := old.stmts s' among
  rcases trimmed_eq_some kept with ⟨rfl, -⟩ | ⟨dst, e, rfl, rfl, effectful⟩
  · exact stmt
  · exact .effect stmt.reads (stable.effect dst e effectful stmt.has)

omit stable in
lemma extract_marked (marked : m.Marked mark) {pick : Stmt → Option (Local × Value)}
    (picks : Picks pick) : (extract m pick).1.Marked mark ∧
      ∀ e ∈ (extract m pick).2, e.2.Below (extract m pick).1.locals.size := by
  rw [extract]
  dsimp only
  refine ⟨marked.mapBlocks fun _ block old => ?_, fun e mem => ?_⟩
  · exact ⟨old.phis, fun s mem => old.stmts s (mem_filter.1 mem).1, old.terminator⟩
  · obtain ⟨s, among, found⟩ := mem_filterMap.1 (mem_reverse.1 mem)
    obtain ⟨b, block, here, inside⟩ := Method.mem_stmts.1 among
    obtain rfl := picks s e.1 e.2 found
    exact ((marked.blocks b block here).stmts _ inside).reads _ mem_cons_self

omit stable in
lemma merged_below {p : Phi} (phi : p.Marked count mark) (below : ∀ e ∈ σ, e.2.Below count) :
    ∀ v ∈ merged σ p, v.Below count := by
  intro v mem
  have walk : ∀ (xs acc : List Value), v ∈ xs.foldl addDistinct acc → v ∈ acc ∨ v ∈ xs := by
    intro xs
    induction xs with
    | nil => exact fun acc mem => .inl mem
    | cons x xs ih =>
      intro acc mem
      rcases ih _ mem with early | late
      · unfold addDistinct at early
        split at early
        · exact .inl early
        · exact (mem_append.1 early).imp id fun last => mem_cons.2 (.inl (by simpa using last))
      · exact .inr (mem_cons_of_mem _ late)
  have resolved := (walk _ _ mem).resolve_left (by simp)
  obtain ⟨o, among, rfl⟩ := mem_map.1 (mem_filter.1 resolved).1
  exact Substitution.resolve_below below (phi.reads o among)

omit stable in
lemma dropPhis_marked {phis : List Phi} (all : ∀ p ∈ phis, p.Marked count mark)
    (below : ∀ e ∈ σ, e.2.Below count) :
    (∀ p ∈ (dropPhis σ phis).1, p ∈ phis) ∧ ∀ e ∈ (dropPhis σ phis).2, e.2.Below count := by
  induction phis generalizing σ with
  | nil => exact ⟨by simp [dropPhis], below⟩
  | cons p phis ih =>
    obtain ⟨first, rest⟩ := forall_mem_cons.1 all
    unfold dropPhis
    split
    · rename_i v single
      have value := merged_below first below v (by rw [single]; exact mem_cons_self)
      obtain ⟨kept, below'⟩ := ih (σ := (p.dst, v) :: σ) rest (forall_mem_cons.2 ⟨value, below⟩)
      exact ⟨fun q mem => mem_cons_of_mem _ (kept q mem), below'⟩
    · obtain ⟨kept, below'⟩ := ih rest below
      refine ⟨fun q mem => ?_, below'⟩
      rcases mem_cons.1 mem with rfl | later
      · exact mem_cons_self
      · exact mem_cons_of_mem _ (kept q later)

/-- Marked, with a substitution that puts what is numbered. -/
def MarkedWith (mark : Mark) (state : Method × Substitution) : Prop :=
  state.1.Marked mark ∧ ∀ e ∈ state.2, e.2.Below state.1.locals.size

omit stable in
lemma dropRound_marked (marked : MarkedWith mark (m, σ)) : MarkedWith mark (dropRound m σ) := by
  refine (foldlRecOn (motive := fun s => MarkedWith mark s ∧ s.1.locals = m.locals) m.numbered
    dropStep (b := (m, σ)) ⟨marked, rfl⟩ fun s old e mem => ?_).1
  obtain ⟨marked', same⟩ := old
  have block := marked.1.blocks e.1 e.2 (Method.mem_numbered.1 mem)
  rw [← same] at block
  obtain ⟨kept, below⟩ := dropPhis_marked block.phis marked'.2
  refine ⟨⟨marked'.1.setBlock ?_, below⟩, same⟩
  exact ⟨fun p mem => block.phis p (kept p mem), block.stmts, block.terminator⟩

omit stable in
lemma dropRounds_marked (fuel : Nat) (marked : MarkedWith mark (m, σ)) :
    MarkedWith mark (dropRounds fuel m σ) :=
  dropRounds_preserves (P := fun n σ => MarkedWith mark (n, σ)) (fun _ _ => dropRound_marked) fuel marked

lemma removeCopies_marked (marked : m.Marked mark) : (removeCopies m).1.Marked mark := by
  rw [removeCopies]
  obtain ⟨left, below⟩ := dropRounds_marked (phiCount (extract m (copy? (defCounts m))).1 + 1)
    (extract_marked marked (copy?_picks _))
  exact left.substitute below stable.withValues

lemma removeConstants_marked (marked : m.Marked mark) : (removeConstants m).1.Marked mark := by
  obtain ⟨left, below⟩ := extract_marked marked (constant?_picks _)
  exact left.substitute below stable.withValues

/-! ## Null references -/

lemma mapTypedUses_marked (marked : m.Marked mark) {g}
    (keeps : ∀ v t, v.Below m.locals.size → (g v t).Below m.locals.size) :
    (m.mapTypedUses g).Marked mark := by
  have zipped {vs : List Value} (types : List (Option Ty)) (below : ∀ v ∈ vs, v.Below m.locals.size) :
      ∀ v ∈ vs.zipWith g types, v.Below m.locals.size := by
    intro v mem
    rw [← map_uncurry_zip_eq_zipWith, mem_map] at mem
    obtain ⟨⟨v', t⟩, among, rfl⟩ := mem
    exact keeps v' t (below v' (of_mem_zip among).1)
  refine marked.mapBlocks fun _ block old => ?_
  refine ⟨old.phis, fun s mem => ?_, ?_⟩
  · obtain ⟨s', among, rfl⟩ := mem_map.1 mem
    exact (old.stmts s' among).withValues (by simp [stmtExpectations_length])
      (zipped _ (old.stmts s' among).reads) (stable.withValues _ _ (old.stmts s' among).has)
  · rw [Terminator.values_withValues _ (by simp [terminatorExpectations_length])]
    exact zipped _ old.terminator

omit stable in
lemma maybeNull_below {v' : Value} (maybe : MaybeNull v v') (below : v.Below count) : v'.Below count := by
  rcases maybe with rfl | rfl
  · exact below
  · exact .const _

omit stable in
lemma nullIfZero_below (below : v.Below count) : (nullIfZero v).Below count := by
  unfold nullIfZero
  split
  · exact .const _
  · exact below

lemma placeNulls_marked (marked : m.Marked mark) : (placeNulls m).1.Marked mark := by
  rw [placeNulls_fst]
  have expected : (nullExpected m).Marked mark := by
    refine mapTypedUses_marked stable marked fun v t below => ?_
    split
    · exact nullIfZero_below below
    · exact below
  refine expected.mapBlocks fun _ block old => ?_
  refine ⟨fun p mem => ?_, old.stmts, fun v mem => ?_⟩
  · obtain ⟨p', among, rfl⟩ := mem_map.1 mem
    unfold Phi.withNulls
    split
    · exact (old.phis p' among).mapValues fun v => nullIfZero_below
    · exact old.phis p' among
  · obtain ⟨v', read, maybe⟩ := values_withNulls mem
    exact maybeNull_below maybe (old.terminator v' read)

lemma cutAtNull_marked (marked : m.Marked mark) (b : BlockId) : (cutAtNull m b).1.Marked mark := by
  rw [cutAtNull]
  split
  · exact marked
  · rename_i block here
    split
    · exact marked
    · obtain ⟨larger, free, inside⟩ := marked.freshLocal
      refine larger.setBlock ?_
      have old := larger.blocks b block here
      refine ⟨old.phis, fun s mem => ?_, fun v mem => ?_⟩
      · rcases mem_append.1 mem with kept | new
        · exact old.stmts s (takeWhile_sublist _ |>.mem kept)
        · cases mem_singleton.1 new
          exact .assign inside free (by simp [newNullPointerException, Expr.values]) (stable.object ..)
      · cases mem_singleton.1 mem
        rintro l ⟨⟩
        exact inside

lemma throwOnNull_marked (marked : m.Marked mark) : (throwOnNull m).1.Marked mark := by
  have all : (cutAll m m.layout).1.Marked mark :=
    foldlRecOn (motive := fun s : Method × Bool => s.1.Marked mark) m.layout _ marked
      fun _ marked b _ => cutAtNull_marked stable marked b
  rw [throwOnNull_fst]
  split
  · exact all.removeUnreachable.pruneEdges
  · exact all

/-! ## Objects and arrays -/

omit stable in
lemma constructorCall?_values {l : Local} {constructor : Register.MethodRef} {args : List Value}
    (found : constructorCall? l s = some (constructor, args)) : ∀ v ∈ args, v ∈ s.values := by
  unfold constructorCall? at found
  split at found
  · split at found
    · cases found
      exact fun v mem => mem_cons_of_mem _ mem
    · cases found
  · cases found

lemma constructAt?_marked (marked : m.Marked mark) {edges i}
    (made : constructAt? m edges b i = some m') : m'.Marked mark := by
  obtain ⟨block, target, l, type, s, site, here, at_, there, at', call, rfl⟩ := constructAt?_made made
  have new := ((marked.blocks b block here).stmts _ (mem_of_getElem? at_)).defines l rfl
  have stmt := (marked.blocks _ target there).stmts s (mem_of_getElem? at')
  have joined : (Stmt.assign l (.newObject type site.constructor site.args)).Marked
      m.locals.size mark :=
    .assign new.1 new.2 (fun v mem => stmt.reads v (constructorCall?_values call v mem))
      (stable.object ..)
  have replaced := marked.modifyStmts (b := site.block)
    (g := fun stmts => stmts.set site.index (.assign l (.newObject type site.constructor site.args)))
    fun stmts all s mem =>
      (mem_or_eq_of_mem_set mem).elim (all s) fun same => same ▸ joined
  exact replaced.modifyStmts (g := fun stmts => stmts.eraseIdx i)
    fun stmts all s mem => all s (mem_of_mem_eraseIdx mem)

lemma constructObjects_marked (marked : m.Marked mark) : (constructObjects m).1.Marked mark :=
  constructObjects_preserves (P := fun n => n.Marked mark)
    (fun _ _ _ _ _ marked made => constructAt?_marked stable marked made) marked

lemma fillFirst_marked {stmts stmts'} (all : ∀ s ∈ stmts, s.Marked count mark)
    (made : fillFirst m b stmts = .ok (some stmts')) : ∀ s ∈ stmts', s.Marked count mark := by
  obtain ⟨front, s, rest, a, vs, split, -, sized, kept, stored⟩ := fillFirst_made made
  obtain ⟨c, rfl⟩ := sizedArray?_eq sized
  have new := (all (.assign a.dst (.newArray a.type (.const c))) (by simp [split])).defines a.dst rfl
  intro s' mem
  rcases kept s' mem with old | rfl
  · exact all s' old
  · refine .assign new.1 new.2 (fun v among => ?_) (stable.literal ..)
    rcases stored v among with ⟨s, old, reads⟩ | ⟨c, rfl⟩
    · exact (all s old).reads v reads
    · exact .const c

lemma fillArrays_marked {changed} (marked : m.Marked mark)
    (made : fillArrays m = .ok (m', changed)) : m'.Marked mark := by
  refine fillArrays_preserves (fun n b block stmts marked here filled => ?_) marked made
  have old := marked.blocks b block here
  exact marked.setBlock ⟨old.phis, fillFirst_marked stable old.stmts filled, old.terminator⟩

/-! ## Phis as copies -/

omit stable in
lemma mem_insertBeforeLastThrow {copy : Stmt} {stmts : List Stmt}
    (mem : s ∈ insertBeforeLastThrow copy stmts) : s = copy ∨ s ∈ stmts := by
  unfold insertBeforeLastThrow at mem
  dsimp only at mem
  split at mem
  · exact (mem_append.1 mem).elim .inr fun last => .inl (mem_singleton.1 last)
  · rcases mem_append.1 mem with front | back
    · exact .inr (mem_of_mem_take front)
    · exact (mem_cons.1 back).imp id mem_of_mem_drop

lemma copyIn_marked (marked : m.Marked mark) {carrier}
    (bound : carrier.index < m.locals.size) (free : mark.param carrier = none)
    (below : v.Below m.locals.size) (b source : BlockId) : (copyIn b carrier m source v).Marked mark := by
  have copy : (Stmt.assign carrier (.value v)).Marked m.locals.size mark :=
    .assign bound free (fun w mem => mem_singleton.1 mem ▸ below) (stable.copy ..)
  refine marked.modifyBlock fun block old => ?_
  refine ⟨old.phis, fun s mem => ?_, old.terminator⟩
  split at mem
  · exact (mem_insertBeforeLastThrow mem).elim (fun same => same ▸ copy) (old.stmts s)
  · exact (mem_append.1 mem).elim (old.stmts s) fun last => mem_singleton.1 last ▸ copy

lemma spreadPhi_marked (marked : m.Marked mark) (b : BlockId) {p} (phi : p.Marked m.locals.size mark) :
    (spreadPhi b m p).2.Marked mark ∧ m.locals.size ≤ (spreadPhi b m p).2.locals.size ∧
      (spreadPhi b m p).1.Marked (spreadPhi b m p).2.locals.size mark := by
  obtain ⟨larger, free, inside⟩ := marked.freshLocal
  have grows : m.locals.size ≤ m.freshLocal.2.locals.size := by simp [Method.freshLocal]
  have walk : ∀ (operands : List (BlockId × Value)) (n : Method), n.Marked mark →
      n.locals = m.freshLocal.2.locals → (∀ o ∈ operands, o.2.Below n.locals.size) →
      (operands.foldl (fun n o => copyIn b m.freshLocal.1 n o.1 o.2) n).Marked mark ∧
        (operands.foldl (fun n o => copyIn b m.freshLocal.1 n o.1 o.2) n).locals = n.locals := by
    intro operands
    induction operands with
    | nil => exact fun n marked _ _ => ⟨marked, rfl⟩
    | cons o operands ih =>
      intro n marked same below
      obtain ⟨first, rest⟩ := forall_mem_cons.1 below
      exact ih _ (copyIn_marked stable marked (same ▸ inside) free first b o.1) same rest
  obtain ⟨spread, same⟩ := walk p.operands m.freshLocal.2 larger rfl fun o mem =>
    (phi.reads o mem).mono grows
  refine ⟨spread, ?_, .assign ?_ phi.free (fun v mem => ?_) (stable.copy ..)⟩
  · exact Nat.le_trans grows (Nat.le_of_eq (congrArg Array.size same.symm))
  · exact Nat.lt_of_lt_of_le phi.dst (Nat.le_trans grows (Nat.le_of_eq (congrArg Array.size same.symm)))
  · cases mem_singleton.1 mem
    rintro l ⟨⟩
    exact Nat.lt_of_lt_of_le inside (Nat.le_of_eq (congrArg Array.size same.symm))

lemma spreadPhis_marked (marked : m.Marked mark) (b : BlockId) {phis}
    (all : ∀ p ∈ phis, p.Marked m.locals.size mark) :
    (spreadPhis b m phis).2.Marked mark ∧ m.locals.size ≤ (spreadPhis b m phis).2.locals.size ∧
      ∀ s ∈ (spreadPhis b m phis).1, s.Marked (spreadPhis b m phis).2.locals.size mark := by
  induction phis generalizing m with
  | nil => exact ⟨marked, Nat.le_refl _, by simp [spreadPhis]⟩
  | cons p phis ih =>
    obtain ⟨first, rest⟩ := forall_mem_cons.1 all
    obtain ⟨marked', grows, head⟩ := spreadPhi_marked stable marked b first
    obtain ⟨marked'', grows', heads⟩ := ih marked' fun q mem => (rest q mem).mono grows
    exact ⟨marked'', Nat.le_trans grows grows', forall_mem_cons.2 ⟨head.mono grows', heads⟩⟩

lemma replacePhisOf_marked (marked : m.Marked mark) (b : BlockId) : (replacePhisOf m b).1.Marked mark := by
  rw [replacePhisOf]
  split
  · exact marked
  · rename_i block here
    split
    · exact marked
    · have old := marked.blocks b block here
      have bare : (m.setBlock b { block with phis := [] }).Marked mark :=
        marked.setBlock ⟨by simp, old.stmts, old.terminator⟩
      obtain ⟨spread, -, heads⟩ := spreadPhis_marked stable bare b old.phis
      refine spread.modifyStmts fun stmts all s mem => ?_
      unfold insertHeads at mem
      split at mem
      · rcases mem_append.1 mem with front | back
        · rcases mem_cons.1 front with rfl | head
          · exact all _ mem_cons_self
          · exact heads s head
        · exact all s (mem_cons_of_mem _ back)
      · exact (mem_append.1 mem).elim (heads s) (all s)

lemma replacePhis_marked (marked : m.Marked mark) : (replacePhis m).1.Marked mark :=
  List.foldlRecOn (motive := fun s : Method × Bool => s.1.Marked mark) m.layout _ marked
    fun _ marked b _ => replacePhisOf_marked stable marked b

/-! ## Reflective allocations and calls without a result -/

lemma Direct.marked {before s' ls} (direct : Direct m before s s' ls) (marked : m.Marked mark)
    (stmt : s.Marked m.locals.size mark) : s'.Marked m.locals.size mark := by
  cases direct with
  | @call dst dims element type sizes more ls names literal nonempty =>
    obtain ⟨b, block, here, inside⟩ := Method.mem_stmts.1 literal.mem
    have reads := ((marked.blocks b block here).stmts _ inside).reads
    have new := stmt.defines dst rfl
    refine .assign new.1 (new.2.trans ?_)
      (fun v mem => reads v (by rwa [allocation_values] at mem)) (stable.allocation _ _ _ nonempty)
    unfold allocation
    split <;> rfl

lemma foldReflection_marked (marked : m.Marked mark) : (foldReflection m).1.Marked mark := by
  rw [foldReflection_eq]
  refine marked.mapBlocks fun _ block old => ?_
  refine ⟨old.phis, fun s mem => ?_, old.terminator⟩
  rcases (directForms_directs m block.stmts).mem (mem_filter.1 mem).1 with kept | ⟨_, t, _, among, direct⟩
  · exact old.stmts s kept
  · exact direct.marked stable marked (old.stmts t among)

omit stable in
lemma isPure_of_isVoidCall {e : Expr} (void : isVoidCall e = true) : e.isPure = false := by
  cases e <;> first | rfl | simp [isVoidCall, Expr.callReturn?] at void

lemma splitVoidCalls_marked (marked : m.Marked mark) : (splitVoidCalls m).1.Marked mark := by
  rw [splitVoidCalls]
  dsimp only
  refine marked.mapBlocks fun _ block old => ?_
  refine ⟨old.phis, fun s mem => ?_, old.terminator⟩
  obtain ⟨s', among, made⟩ := mem_flatMap.1 mem
  have stmt := old.stmts s' among
  cases s' with
  | assign dst e =>
    simp only [splitVoid] at made
    split at made
    · rename_i void
      rcases mem_cons.1 made with rfl | zero
      · exact .effect stmt.reads (stable.effect dst e (isPure_of_isVoidCall void) stmt.has)
      · split at zero
        · cases mem_singleton.1 zero
          have new := stmt.defines dst rfl
          have plain : (Stmt.assign dst e).param? = none := by
            cases e <;> first | rfl | cases void
          rw [plain] at new
          exact .assign new.1 new.2 (fun v mem => mem_singleton.1 mem ▸ .const _) (stable.copy ..)
        · cases zero
    · cases mem_singleton.1 made
      exact stmt
  | _ =>
    cases mem_singleton.1 made
    exact stmt

/-! ## Types -/

/-- Finding types changes the types only. -/
structure Retyped (m m' : Method) : Prop where
  same : m' = { m with locals := m'.locals }
  size : m'.locals.size = m.locals.size

omit stable in
lemma Retyped.trans {m'' : Method} (first : Retyped m m') (second : Retyped m' m'') : Retyped m m'' :=
  ⟨second.same.trans (by rw [first.same]), second.size.trans first.size⟩

omit stable in
lemma assignTypes_retyped (c : Classes) (types : Array Ty) : Retyped m (assignTypes c types m) :=
  ⟨rfl, by simp [assignTypes]⟩

omit stable in
lemma inferRounds_retyped (c : Classes) (fuel : Nat) (types : Array Ty) :
    Retyped m (inferRounds c fuel types m) := by
  induction fuel generalizing m types with
  | zero => exact ⟨rfl, rfl⟩
  | succ fuel ih =>
    rw [inferRounds]
    split
    · exact assignTypes_retyped c _
    · exact (assignTypes_retyped c _).trans (ih _)

omit stable in
lemma withDefaults_retyped (c : Classes) : Retyped m (withDefaults c m) :=
  ⟨rfl, by simp [withDefaults]⟩

omit stable in
lemma Retyped.marked (retyped : Retyped m m') (marked : m.Marked mark) : m'.Marked mark := by
  refine marked.of_blocks (Nat.le_of_eq retyped.size.symm) fun b block here => ?_
  rw [retyped.same] at here
  exact retyped.size ▸ marked.blocks b block here

omit stable in
lemma typedValue_below {expected : Option Ty} (below : v.Below count) :
    (typedValue v expected).Below count := by
  unfold typedValue
  split
  · exact .const _
  · exact below

lemma typeFlows_marked (marked : m.Marked mark) : (typeFlows m).Marked mark := by
  refine marked.mapBlocks fun _ block old => ?_
  refine ⟨fun p mem => ?_, fun s mem => ?_, old.terminator⟩
  · obtain ⟨p', among, rfl⟩ := mem_map.1 mem
    exact (old.phis p' among).mapValues fun v => typedValue_below
  · obtain ⟨s', among, rfl⟩ := mem_map.1 mem
    have stmt := old.stmts s' among
    split
    · have new := stmt.defines _ rfl
      refine .assign new.1 new.2 (fun v mem => ?_) (stable.copy ..)
      rw [mem_singleton.1 mem]
      exact typedValue_below (stmt.reads _ mem_cons_self)
    · exact stmt

/-- A method with the types that are found for its locals. -/
def withTypes (m : Method) : Method :=
  withDefaults (classesOf m)
    (inferRounds (classesOf m) 8 (Array.replicate m.locals.size .unknown) m)

omit stable in
lemma inferTypes_fst (m : Method) :
    (inferTypes m).1 = (typeFlows (withTypes m)).mapTypedUses typedValue := rfl

omit stable in
lemma withTypes_retyped : Retyped m (withTypes m) :=
  (inferRounds_retyped _ _ _).trans (withDefaults_retyped _)

lemma inferTypes_marked (marked : m.Marked mark) : (inferTypes m).1.Marked mark := by
  exact mapTypedUses_marked stable (typeFlows_marked stable (withTypes_retyped.marked marked))
    fun v t => typedValue_below

/-! ## Every pass -/

lemma keeps_marked {p : Pass} {changed} (marked : m.Marked mark)
    (run : p.apply m = .ok (m', changed)) : m'.Marked mark := by
  have result {r : Method × Bool} := apply_made (r := r) run
  cases p with
  | fillArray => exact fillArrays_marked stable marked (apply_ok.1 run)
  | cleanLabel => exact result rfl ▸ cleanLabels_marked marked
  | deadCode => exact result rfl ▸ removeDead_marked stable marked
  | removeLocal => exact result rfl ▸ removeCopies_marked stable marked
  | removeConstant => exact result rfl ▸ removeConstants_marked stable marked
  | zero => exact result rfl ▸ placeNulls_marked stable marked
  | npe => exact result rfl ▸ throwOnNull_marked stable marked
  | newObject => exact result rfl ▸ constructObjects_marked stable marked
  | unssa => exact result rfl ▸ replacePhis_marked stable marked
  | multiArray => exact result rfl ▸ foldReflection_marked stable marked
  | voidInvoke => exact result rfl ▸ splitVoidCalls_marked stable marked
  | typeInfer => exact result rfl ▸ inferTypes_marked stable marked

lemma run_marked {p : Pipeline} (marked : m.Marked mark) (run : p.run m = .ok m') : m'.Marked mark :=
  Pipeline.run_preserves (fun _ _ _ _ => keeps_marked stable) marked run

end Restack.Pass
