/-
# What the removal of copies and constants does

Both passes take statements `l := v` out and let `v` stand for `l`; the removal
of copies then drops phis that merge one value. A phi that is dropped stands for a
constant or for what each of its operands stands for (`Merges`), so whatever a path
passed has its stand-in among what the path passed (`Taken.closed`), and no use loses
its definition.
-/
import Mathlib.Data.List.Induction
import Restack.Pass.Copies
import Restack.Proofs.Ir.Rewriting

namespace Restack.Pass

open List Ir
open Ir.Substitution (Grounded Leads)
open Lookup

/-! ## Growing substitutions -/

structure Grows (σ σ' : Substitution) : Prop where
  same : ∀ v w, σ.resolve v = σ.resolve w → σ'.resolve v = σ'.resolve w
  keys : ∀ l v, σ.lookup l = some v → σ'.lookup l = some v

lemma Grows.refl (σ : Substitution) : Grows σ σ := ⟨fun _ _ h => h, fun _ _ h => h⟩

lemma Grows.trans {σ σ' σ''} (first : Grows σ σ') (second : Grows σ' σ'') : Grows σ σ'' :=
  ⟨fun v w h => second.same v w (first.same v w h), fun l v h => second.keys l v (first.keys l v h)⟩

lemma Grows.cons {σ l v} (grounded : Grounded σ)
    (absent : σ.lookup l = none) (resolved : σ.resolve v = v) (other : v ≠ .var l) :
    Grows σ ((l, v) :: σ) := by
  refine ⟨fun x y same => ?_, fun k w found => ?_⟩
  · rw [grounded.resolve_cons absent resolved other, grounded.resolve_cons absent resolved other, same]
  · have ne : k ≠ l := by
      rintro rfl
      rw [absent] at found
      cases found
    rw [lookup_cons_ne ne, found]

/-- A phi stands for a constant, or for what each of its operands stands for. -/
def Merges (σ : Substitution) (p : Phi) : Prop :=
  (∃ c, σ.resolve (.var p.dst) = .const c) ∨
    ∀ o ∈ p.operands, σ.resolve o.2 = σ.resolve (.var p.dst)

lemma Merges.grow {σ σ' p} (merges : Merges σ p) (grows : Grows σ σ') : Merges σ' p := by
  rcases merges with ⟨c, constant⟩ | same
  · exact .inl ⟨c, grows.same (.var p.dst) (.const c) constant⟩
  · exact .inr fun o mem => grows.same _ _ (same o mem)

/-! ## Phis that merge one value -/

lemma mem_foldl_addDistinct (xs acc : List Value) : (∀ w ∈ acc, w ∈ xs.foldl addDistinct acc) ∧
      (∀ x ∈ xs, x ∈ xs.foldl addDistinct acc ∨ ∃ w ∈ xs.foldl addDistinct acc, x.agrees w = true) ∧
      ∀ w ∈ xs.foldl addDistinct acc, w ∈ acc ∨ w ∈ xs := by
  induction xs generalizing acc with
  | nil => exact ⟨fun _ h => h, by simp, fun w h => .inl h⟩
  | cons x xs ih =>
    obtain ⟨kept, found, origin⟩ := ih (addDistinct acc x)
    have older (w : Value) (mem : w ∈ acc) : w ∈ addDistinct acc x := by
      rw [addDistinct]
      split
      · exact mem
      · exact mem_append_left _ mem
    refine ⟨fun w mem => kept w (older w mem), fun y mem => ?_, fun w mem => ?_⟩
    · rcases mem_cons.1 mem with rfl | later
      · by_cases known : (acc.any fun w => y.agrees w) = true
        · obtain ⟨w, among, agrees⟩ := any_eq_true.1 known
          exact .inr ⟨w, kept w (older w among), agrees⟩
        · refine .inl (kept y ?_)
          rw [addDistinct, if_neg known]
          exact mem_append_right _ mem_cons_self
      · exact found y later
    · rcases origin w mem with h | h
      · rw [addDistinct] at h
        split at h
        · exact .inl h
        · rcases mem_append.1 h with h | h
          · exact .inl h
          · exact .inr (mem_cons.2 (.inl (mem_singleton.1 h)))
      · exact .inr (mem_cons_of_mem _ h)

lemma Value.agrees_var {v : Value} {l} (agrees : v.agrees (.var l) = true) : v = .var l := by
  cases v with
  | var k => simpa [Value.agrees] using agrees
  | const c => simp [Value.agrees] at agrees

/-- Dropping a phi that merges one value. -/
lemma merged_single {σ p v} (grounded : Grounded σ)
    (absent : σ.lookup p.dst = none) (single : merged σ p = [v]) :
    Grounded ((p.dst, v) :: σ) ∧ Grows σ ((p.dst, v) :: σ) ∧ Merges ((p.dst, v) :: σ) p := by
  rw [merged] at single
  obtain ⟨-, found, origin⟩ := mem_foldl_addDistinct
    ((p.operands.map fun o => σ.resolve o.2).filter fun v => !v.isVar p.dst) []
  rw [single] at found origin
  obtain ⟨among, apart⟩ := mem_filter.1 ((origin v mem_cons_self).resolve_left (by simp))
  obtain ⟨o, -, rfl⟩ := mem_map.1 among
  have resolved : σ.resolve (σ.resolve o.2) = σ.resolve o.2 := grounded.resolve_resolve o.2
  have other : σ.resolve o.2 ≠ .var p.dst := by
    intro same
    rw [same] at apart
    simp [Value.isVar, Value.local?] at apart
  refine ⟨grounded.cons absent resolved other, .cons grounded absent resolved other, ?_⟩
  have self : Substitution.resolve ((p.dst, σ.resolve o.2) :: σ) (.var p.dst) = σ.resolve o.2 := by
    rw [grounded.resolve_cons absent resolved other, if_pos (Substitution.resolve_of_lookup_none absent)]
  cases standin : σ.resolve o.2 with
  | const c =>
    rw [standin] at self
    exact .inl ⟨c, self⟩
  | var y =>
    refine .inr fun o' mem => ?_
    rw [← standin, self, grounded.resolve_cons absent resolved other]
    split
    · rfl
    · rename_i ne
      have kept : σ.resolve o'.2 ∈
          (p.operands.map fun o => σ.resolve o.2).filter fun v => !v.isVar p.dst := by
        refine mem_filter.2 ⟨mem_map.2 ⟨o', mem, rfl⟩, ?_⟩
        cases value : σ.resolve o'.2 with
        | const c => rfl
        | var k =>
          rw [value] at ne
          have : k ≠ p.dst := fun same => ne (by rw [same])
          simpa [Value.isVar, Value.local?] using this
      rcases found _ kept with same | ⟨w, same, agrees⟩
      · exact mem_singleton.1 same
      · rw [mem_singleton.1 same, standin] at agrees
        rw [standin]
        exact Value.agrees_var agrees

/-- The phis of a block that a substitution has nothing for. -/
def remaining (σ : Substitution) (phis : List Phi) : List Phi :=
  phis.filter fun p => (σ.lookup p.dst).isNone

lemma dropPhis_spec {σ} {phis : List Phi} (grounded : Grounded σ)
    (distinct : (phis.map (·.dst)).Nodup) (absent : ∀ p ∈ phis, σ.lookup p.dst = none) :
    (dropPhis σ phis).1 = remaining (dropPhis σ phis).2 phis ∧ Grounded (dropPhis σ phis).2 ∧
      Grows σ (dropPhis σ phis).2 ∧ (∀ l, l ∉ phis.map (·.dst) → (dropPhis σ phis).2.lookup l = σ.lookup l) ∧
      ∀ p ∈ phis, ((dropPhis σ phis).2.lookup p.dst).isSome = true → Merges (dropPhis σ phis).2 p := by
  induction phis generalizing σ with
  | nil => exact ⟨rfl, grounded, .refl σ, fun _ _ => rfl, by simp⟩
  | cons p phis ih =>
    rw [map_cons, nodup_cons] at distinct
    have fresh := absent p mem_cons_self
    rw [dropPhis]
    split
    · rename_i v single
      obtain ⟨grounded', grows, merges⟩ := merged_single grounded fresh single
      obtain ⟨kept, grounded'', grows', keys, each⟩ := ih grounded' distinct.2 fun q mem => by
        have ne : q.dst ≠ p.dst := fun same => distinct.1 (mem_map.2 ⟨q, mem, same⟩)
        rw [lookup_cons_ne ne]
        exact absent q (mem_cons_of_mem _ mem)
      have found : (dropPhis ((p.dst, v) :: σ) phis).2.lookup p.dst = some v :=
        grows'.keys p.dst v lookup_cons_self
      refine ⟨?_, grounded'', grows.trans grows', fun l outside => ?_, fun q mem dropped => ?_⟩
      · rw [remaining, filter_cons_of_neg (by simp [found])]
        exact kept
      · rw [map_cons, mem_cons, not_or] at outside
        rw [keys l outside.2, lookup_cons_ne outside.1]
      · rcases mem_cons.1 mem with rfl | later
        · exact merges.grow grows'
        · exact each q later dropped
    · obtain ⟨kept, grounded', grows, keys, each⟩ := ih grounded distinct.2 fun q mem =>
        absent q (mem_cons_of_mem _ mem)
      have none_ : (dropPhis σ phis).2.lookup p.dst = none := (keys p.dst distinct.1).trans fresh
      refine ⟨?_, grounded', grows, fun l outside => ?_, fun q mem dropped => ?_⟩
      · rw [remaining, filter_cons_of_pos (by simp [none_])]
        exact congrArg (p :: ·) kept
      · rw [map_cons, mem_cons, not_or] at outside
        exact keys l outside.2
      · rcases mem_cons.1 mem with rfl | later
        · simp only [none_] at dropped
          cases dropped
        · exact each q later dropped

/-! ## Rounds -/

/-- A method without the phis that a substitution replaces, and what is known of
them; the substitution grew from `σ₀`. -/
structure Dropped (m : Method) (σ₀ : Substitution) (n : Method) (σ : Substitution) : Prop where
  layout : n.layout = m.layout
  entry : n.entry = m.entry
  traps : n.traps = m.traps
  locals : n.locals = m.locals
  blocks : ∀ b, n.block? b = (m.block? b).map fun block =>
    { block with phis := remaining σ block.phis }
  grounded : Grounded σ
  grows : Grows σ₀ σ
  keys : ∀ l, (∀ b block, m.block? b = some block → l ∉ block.phis.map (·.dst)) →
    σ.lookup l = σ₀.lookup l
  merges : ∀ b block p, m.block? b = some block → p ∈ block.phis →
    (σ.lookup p.dst).isSome = true → Merges σ p

/-- Each phi of a method has a local of its own. -/
structure PhisApart (m : Method) : Prop where
  block : ∀ b block, m.block? b = some block → (block.phis.map (·.dst)).Nodup
  apart : ∀ b c block block' l, m.block? b = some block → m.block? c = some block' →
    l ∈ block.phis.map (·.dst) → l ∈ block'.phis.map (·.dst) → b = c

variable {m n : Method} {σ₀ σ : Substitution}

lemma remaining_grow {σ σ'} (grows : Grows σ σ') (phis : List Phi) :
    remaining σ' (remaining σ phis) = remaining σ' phis := by
  rw [remaining, remaining, filter_filter]
  refine filter_congr fun p _ => ?_
  cases found : σ.lookup p.dst with
  | none => simp
  | some v => simp [grows.keys p.dst v found]

/-- One block of a round; `found` holds the block as it was at the start of the round. -/
lemma Dropped.block (apart : PhisApart m) (dropped : Dropped m σ₀ n σ) {b block}
    {found : List Phi} (here : m.block? b = some block)
    (older : ∃ σ₁, found = remaining σ₁ block.phis ∧ Grows σ₁ σ)
    (absent : ∀ p ∈ found, σ.lookup p.dst = none) :
    Dropped m σ₀ (n.setBlock b { block with phis := (dropPhis σ found).1 }) (dropPhis σ found).2 ∧
      Grows σ (dropPhis σ found).2 ∧
      ∀ l, l ∉ block.phis.map (·.dst) → (dropPhis σ found).2.lookup l = σ.lookup l := by
  obtain ⟨σ₁, rfl, grew⟩ := older
  have sub : ((remaining σ₁ block.phis).map (·.dst)).Sublist (block.phis.map (·.dst)) :=
    filter_sublist.map _
  obtain ⟨kept, grounded, grows, keys, each⟩ := dropPhis_spec dropped.grounded
    ((apart.block b block here).sublist sub) absent
  generalize dropPhis σ (remaining σ₁ block.phis) = result at kept grounded grows keys each
  obtain ⟨phis, σ'⟩ := result
  have keys' (l : Local) (outside : l ∉ block.phis.map (·.dst)) : σ'.lookup l = σ.lookup l :=
    keys l fun mem => outside (sub.subset mem)
  have found : n.block? b = some { block with phis := remaining σ block.phis } := by
    rw [dropped.blocks, here]
    rfl
  have inside := Method.index_lt_of_block? found
  refine ⟨{
    layout := dropped.layout
    entry := dropped.entry
    traps := dropped.traps
    locals := dropped.locals
    blocks := fun c => ?_
    grounded := grounded
    grows := dropped.grows.trans grows
    keys := fun l outside => (keys' l (outside b block here)).trans (dropped.keys l outside)
    merges := fun c block' p here' mem gone => ?_ }, grows, keys'⟩
  · rw [Method.block?_setBlock inside]
    split
    · rename_i same
      subst same
      rw [here, Option.map_some, kept, remaining_grow (grew.trans grows)]
    · rename_i ne
      rw [dropped.blocks]
      cases here' : m.block? c with
      | none => rfl
      | some block' =>
        have phis : remaining σ' block'.phis = remaining σ block'.phis := by
          refine filter_congr fun p mem => ?_
          rw [keys' p.dst fun other => ne (apart.apart c b block' block p.dst here' here
            (mem_map.2 ⟨p, mem, rfl⟩) other)]
        rw [Option.map_some, Option.map_some, phis]
  · by_cases same : c = b
    · subst same
      rw [here] at here'
      cases here'
      cases before : σ.lookup p.dst with
      | some v => exact (dropped.merges c block p here mem (by rw [before]; rfl)).grow grows
      | none =>
        have among : p ∈ remaining σ₁ block.phis := by
          refine mem_filter.2 ⟨mem, ?_⟩
          cases old : σ₁.lookup p.dst with
          | none => rfl
          | some v =>
            rw [grew.keys p.dst v old] at before
            cases before
        exact each p among gone
    · have outside : p.dst ∉ block.phis.map (·.dst) := fun other =>
        same (apart.apart c b block' block p.dst here' here (mem_map.2 ⟨p, mem, rfl⟩) other)
      rw [keys' p.dst outside] at gone
      exact (dropped.merges c block' p here' mem gone).grow grows

/-- What a round does with one block. -/
def dropStep (state : Method × Substitution) (e : BlockId × Block) : Method × Substitution :=
  (state.1.setBlock e.1 { e.2 with phis := (dropPhis state.2 e.2.phis).1 }, (dropPhis state.2 e.2.phis).2)

lemma dropRound_spec (apart : PhisApart m) (dropped : Dropped m σ₀ n σ) :
    Dropped m σ₀ (dropRound n σ).1 (dropRound n σ).2 := by
  -- each block is looked at as it was at the start of the round
  suffices ∀ (found : List (BlockId × Block)) (n' : Method) (σ' : Substitution),
      Dropped m σ₀ n' σ' → Grows σ σ' →
      (∀ b block', (b, block') ∈ found → ∃ block, m.block? b = some block ∧
        block' = { block with phis := remaining σ block.phis } ∧ ∀ p ∈ block'.phis, σ'.lookup p.dst = none) →
      (found.Pairwise fun x y => x.1 ≠ y.1) →
      Dropped m σ₀ (found.foldl dropStep (n', σ')).1 (found.foldl dropStep (n', σ')).2 by
    refine this n.numbered n σ dropped (.refl σ) (fun b block' mem => ?_) Method.numbered_distinct
    have here := Method.mem_numbered.1 mem
    rw [dropped.blocks, Option.map_eq_some_iff] at here
    obtain ⟨block, found, rfl⟩ := here
    refine ⟨block, found, rfl, fun p mem => ?_⟩
    simpa using (mem_filter.1 mem).2
  intro found
  induction found with
  | nil => exact fun n' σ' dropped _ _ _ => dropped
  | cons e found ih =>
    obtain ⟨b, block'⟩ := e
    intro n' σ' dropped' grows each distinct
    rw [pairwise_cons] at distinct
    obtain ⟨block, here, rfl, absent⟩ := each b block' mem_cons_self
    obtain ⟨dropped'', grows', keys⟩ := dropped'.block apart here ⟨σ, rfl, grows⟩ absent
    refine ih _ _ dropped'' (grows.trans grows') (fun c block₂ mem => ?_) distinct.2
    obtain ⟨block₁, here₁, rfl, absent₁⟩ := each c block₂ (mem_cons_of_mem _ mem)
    refine ⟨block₁, here₁, rfl, fun p among => ?_⟩
    rw [keys p.dst fun other => distinct.1 (c, _) mem ?_]
    · exact absent₁ p among
    · exact apart.apart b c block block₁ p.dst here here₁ other
        (mem_map.2 ⟨p, (mem_filter.1 among).1, rfl⟩)

lemma dropRounds_preserves {P : Method → Substitution → Prop}
    (step : ∀ n σ, P n σ → P (dropRound n σ).1 (dropRound n σ).2) (fuel : Nat) (start : P n σ) :
    P (dropRounds fuel n σ).1 (dropRounds fuel n σ).2 := by
  induction fuel generalizing n σ with
  | zero => exact start
  | succ fuel ih =>
    simp only [dropRounds]
    split
    · exact start
    · exact ih (step n σ start)

lemma dropRounds_spec (apart : PhisApart m) (fuel : Nat) (dropped : Dropped m σ₀ n σ) :
    Dropped m σ₀ (dropRounds fuel n σ).1 (dropRounds fuel n σ).2 :=
  dropRounds_preserves (fun _ _ => dropRound_spec apart) fuel dropped

/-! ## Statements taken out -/

/-- Statements that give a local a value, and nothing else, are picked. -/
def Picks (pick : Stmt → Option (Local × Value)) : Prop :=
  ∀ s l v, pick s = some (l, v) → s = .assign l (.value v)

lemma copy?_picks (defs : Array Nat) : Picks (copy? defs) := by
  intro s l v picked
  unfold copy? at picked
  split at picked
  · split at picked
    · cases picked
      rfl
    · cases picked
  · cases picked

lemma constant?_picks (defs : Array Nat) : Picks (constant? defs) := by
  intro s l v picked
  unfold constant? at picked
  split at picked
  · split at picked
    · cases picked
      rfl
    · cases picked
  · cases picked

lemma eq_of_nodup_filterMap {α β : Type} {f} {xs : List α}
    (nodup : (xs.filterMap f).Nodup) {x y} {a : β} (one : x ∈ xs) (other : y ∈ xs)
    (fx : f x = some a) (fy : f y = some a) : x = y := by
  induction xs with
  | nil => cases one
  | cons z xs ih =>
    have behind {w : α} (later : w ∈ xs) (fw : f w = some a) (fz : f z = some a) : False := by
      rw [filterMap_cons_some fz, nodup_cons] at nodup
      exact nodup.1 (mem_filterMap.2 ⟨w, later, fw⟩)
    rcases mem_cons.1 one with rfl | first <;> rcases mem_cons.1 other with rfl | second
    · rfl
    · exact (behind second fy fx).elim
    · exact (behind first fx fy).elim
    · refine ih ?_ first second
      rw [filterMap_cons] at nodup
      split at nodup
      · exact nodup
      · exact (nodup_cons.1 nodup).2

/-- What the statements taken out of a method stand for. -/
structure Taken (m : Method) (pick : Stmt → Option (Local × Value)) (σ : Substitution) : Prop where
  picks : Picks pick
  found : ∀ l v, σ.lookup l = some v → ∃ b block, m.block? b = some block ∧
    .assign l (.value v) ∈ block.stmts ∧ pick (.assign l (.value v)) = some (l, v)
  taken : ∀ b block s l v, m.block? b = some block → s ∈ block.stmts → pick s = some (l, v) →
    σ.lookup l = some v

section Taken

variable {pick : Stmt → Option (Local × Value)}

lemma block?_extract {b} : (extract m pick).1.block? b = (m.block? b).map fun block =>
    { block with stmts := block.stmts.filter fun s => (pick s).isNone } :=
  Method.block?_mapBlocks _

lemma extract_taken (sound : m.Sound) (picks : Picks pick) : Taken m pick (extract m pick).2 := by
  have keys : ((extract m pick).2.map (·.1)).Nodup := by
    simp only [extract]
    rw [map_reverse, nodup_reverse]
    have defs := sound.defs_nodup
    have sub : ((m.stmts.filterMap pick).map (·.1)).Sublist m.defs := by
      rw [Method.stmts, Method.defs]
      generalize m.blockList = blocks
      induction blocks with
      | nil => exact .slnil
      | cons block blocks ih =>
        rw [flatMap_cons, filterMap_append, map_append]
        refine Sublist.append ?_ ih
        refine Sublist.trans ?_ (sublist_append_right _ _)
        generalize block.stmts = stmts
        induction stmts with
        | nil => exact .slnil
        | cons s stmts ih =>
          rw [filterMap_cons, filterMap_cons]
          cases picked : pick s with
          | none =>
            cases s.def? with
            | none => exact ih
            | some l => exact ih.cons l
          | some p =>
            rw [picks s p.1 p.2 picked]
            exact ih.cons_cons p.1
    exact defs.sublist sub
  refine ⟨picks, fun l v found => ?_, fun b block s l v here mem picked => ?_⟩
  · have among := mem_of_lookup found
    simp only [extract] at among
    rw [mem_reverse, mem_filterMap] at among
    obtain ⟨s, mem, picked⟩ := among
    obtain ⟨b, block, here, mem⟩ := Method.mem_stmts.1 mem
    obtain rfl := picks s l v picked
    exact ⟨b, block, here, mem, picked⟩
  · rw [lookup_eq_some_iff_mem keys]
    simp only [extract]
    rw [mem_reverse, mem_filterMap]
    exact ⟨s, Method.mem_stmts.2 ⟨b, block, here, mem⟩, picked⟩

namespace Taken

variable {b : BlockId} {block : Block} (taken : Taken m pick σ₀) (sound : m.Sound)

include taken sound

lemma unpicked (here : m.block? b = some block) {s l} (mem : s ∈ block.stmts) (defines : s.def? = some l)
    (unpicked : pick s = none) : σ₀.lookup l = none := by
  cases found : σ₀.lookup l with
  | none => rfl
  | some v =>
    obtain ⟨c, block', here', mem', picked⟩ := taken.found l v found
    have one : l ∈ block.defs := mem_append_right _ (mem_filterMap.2 ⟨s, mem, defines⟩)
    have other : l ∈ block'.defs := mem_append_right _ (mem_filterMap.2 ⟨_, mem', rfl⟩)
    obtain rfl := sound.defs_apart b c block block' l here here' one other
    rw [here] at here'
    cases here'
    have nodup := (nodup_append.1 (sound.block_defs b block here)).2.1
    rw [eq_of_nodup_filterMap nodup mem mem' defines rfl, picked] at unpicked
    cases unpicked

lemma phi (here : m.block? b = some block) {l} (mem : l ∈ block.phis.map (·.dst)) : σ₀.lookup l = none := by
  cases found : σ₀.lookup l with
  | none => rfl
  | some v =>
    obtain ⟨c, block', here', mem', -⟩ := taken.found l v found
    exact (sound.phi_apart here here' mem (mem_filterMap.2 ⟨_, mem', rfl⟩)).elim

/-- A property of values that constants, untouched locals and replaced locals
have holds of all that a path passed, in front of any statement. -/
lemma passed {P : List Local → Local → Prop}
    (grows : ∀ ds ds' l, P ds l → (∀ k ∈ ds, k ∈ ds') → P ds' l) (free : ∀ ds l, l ∈ ds → σ₀.lookup l = none →
      (∀ b block, m.block? b = some block → l ∉ block.phis.map (·.dst)) → P ds l)
    (const : ∀ ds l c, σ₀.lookup l = some (.const c) → P ds l)
    (copy : ∀ ds l k, σ₀.lookup l = some (.var k) → P ds k → P ds l)
    (phi : ∀ b passed block before t target p, m.Enters b passed → m.block? b = some block →
      m.Leaves b block before t → m.block? t = some target → p ∈ target.phis →
      (∀ k ∈ defined before ++ passed, P (defined before ++ passed) k) →
      P (target.phis.map (·.dst) ++ (defined before ++ passed)) p.dst)
    {passed} (entered : m.Enters b passed) :
    (∀ l ∈ passed, P passed l) ∧ ∀ block before rest, m.block? b = some block →
      block.stmts = before ++ rest → ∀ l ∈ defined before ++ passed, P (defined before ++ passed) l := by
  have inner {b : BlockId} {passed : List Local} (entered : m.Enters b passed)
      (all : ∀ l ∈ passed, P passed l) (block : Block) (here : m.block? b = some block)
      (before rest : List Stmt) (split : block.stmts = before ++ rest) :
      ∀ l ∈ defined before ++ passed, P (defined before ++ passed) l := by
    induction before using reverseRecOn generalizing rest with
    | nil => exact all
    | append_singleton before s ih =>
      have split' : block.stmts = before ++ s :: rest := by
        rw [split, append_assoc, singleton_append]
      have ih := ih (s :: rest) split'
      have wider (k : Local) (mem : k ∈ defined before ++ passed) :
          k ∈ defined (before ++ [s]) ++ passed := by
        rw [defined_append, append_assoc]
        rcases mem_append.1 mem with h | h
        · exact mem_append_left _ h
        · exact mem_append_right _ (mem_append_right _ h)
      intro l mem
      have mem' : l ∈ defined before ++ passed ∨ s.def? = some l := by
        rw [defined_append, append_assoc, mem_append, mem_append] at mem
        rcases mem with h | h | h
        · exact .inl (mem_append_left _ h)
        · obtain ⟨s', among, defines⟩ := mem_filterMap.1 h
          rw [mem_singleton.1 among] at defines
          exact .inr defines
        · exact .inl (mem_append_right _ h)
      rcases mem' with older | defines
      · exact grows _ _ l (ih l older) wider
      · have among : s ∈ block.stmts := by simp [split']
        cases picked : pick s with
        | none =>
          exact free _ l mem (taken.unpicked sound here among defines picked)
            fun c block' here' phi => sound.phi_apart here' here phi
              (mem_filterMap.2 ⟨s, among, defines⟩)
        | some pair =>
          obtain ⟨k, v⟩ := pair
          obtain rfl := taken.picks s k v picked
          cases defines
          have found := taken.taken b block _ l v here among picked
          cases v with
          | const c => exact const _ l c found
          | var k =>
            have read := sound.uses b passed block before k entered here
              (.stmt split' mem_cons_self)
            exact copy _ l k found (grows _ _ k (ih k read) wider)
  have all : ∀ l ∈ passed, P passed l := by
    induction entered with
    | start => simp
    | @next b t passed block target before entered here leaves there ih =>
      obtain ⟨rest, split⟩ := leaves.split
      have before_ := inner entered ih block here before rest split
      intro l mem
      rcases mem_append.1 mem with merged | older
      · obtain ⟨p, among, rfl⟩ := mem_map.1 merged
        exact phi b passed block before t target p entered here leaves there among before_
      · exact grows _ _ l (before_ l older) fun k h => mem_append_right _ h
  exact ⟨all, fun block before rest here split => inner entered all block here before rest split⟩

lemma grounded (reached : m.AllReached) : Grounded σ₀ := by
  have ends {b : BlockId} {passed : List Local} (entered : m.Enters b passed) :=
    taken.passed sound (P := fun _ l => ∃ n w, Leads σ₀ n (.var l) w) (fun _ _ _ h _ => h)
      (fun _ _ _ absent _ => ⟨_, _, .free absent⟩) (fun _ _ c found => ⟨_, _, .next found (.const c)⟩)
      (fun _ _ _ found ⟨n, w, chain⟩ => ⟨n + 1, w, .next found chain⟩)
      (fun _ _ _ _ _ _ p _ _ _ there mem _ => ⟨_, _, .free (taken.phi sound there
        (mem_map.2 ⟨p, mem, rfl⟩))⟩) entered
  intro v
  cases v with
  | const c => exact ⟨0, _, .const c⟩
  | var l =>
    cases found : σ₀.lookup l with
    | none => exact ⟨0, _, .free found⟩
    | some v =>
      obtain ⟨b, block, here, mem, -⟩ := taken.found l v found
      obtain ⟨passed, entered⟩ := reached b (by rw [here]; rfl)
      exact (ends entered).2 block block.stmts [] here (append_nil _).symm l
        (mem_append_left _ (mem_filterMap.2 ⟨_, mem, rfl⟩))

/-- What stands for a local that a path passed, if a local, was passed too. -/
lemma closed (grounded : Grounded σ₀) (dropped : Dropped (extract m pick).1 σ₀ n σ) {passed}
    (entered : m.Enters b passed) (here : m.block? b = some block) {before rest}
    (split : block.stmts = before ++ rest) {l x} (mem : l ∈ defined before ++ passed)
    (standin : σ.resolve (.var l) = .var x) : x ∈ defined before ++ passed := by
  have extracted {b : BlockId} {block : Block} (here : m.block? b = some block) :
      ∃ block', (extract m pick).1.block? b = some block' ∧ block'.phis = block.phis := by
    rw [block?_extract, here]
    exact ⟨_, rfl, rfl⟩
  have replaced {l : Local} {v : Value} (found : σ₀.lookup l = some v) :
      σ.resolve (.var l) = σ.resolve v := by
    obtain ⟨n, chain⟩ := grounded.leads v
    exact dropped.grows.same _ _ (Leads.next found chain).resolve_eq
  refine (taken.passed sound (P := fun ds l => ∀ x, σ.resolve (.var l) = .var x → x ∈ ds)
    (fun ds ds' l closed wider x standin => wider x (closed x standin)) (fun ds l mem absent apart => ?_)
    (fun ds l c found x standin => ?_) (fun ds l k found closed x standin => ?_)
    (fun b passed block before t target p entered here leaves there mem closed x standin => ?_)
    entered).2 block before rest here split l mem x standin
  · intro x standin
    have same : σ.lookup l = none := by
      rw [dropped.keys l fun c block' found phi => ?_, absent]
      rw [block?_extract, Option.map_eq_some_iff] at found
      obtain ⟨block, here, rfl⟩ := found
      exact apart c block here phi
    rw [Substitution.resolve_of_lookup_none same] at standin
    cases standin
    exact mem
  · rw [replaced found] at standin
    cases standin
  · rw [replaced found] at standin
    exact closed x standin
  · obtain ⟨target', there', phis⟩ := extracted there
    cases gone : σ.lookup p.dst with
    | none =>
      rw [Substitution.resolve_of_lookup_none gone] at standin
      cases standin
      exact mem_append_left _ (mem_map.2 ⟨p, mem, rfl⟩)
    | some v =>
      rcases dropped.merges t target' p there' (phis ▸ mem) (by rw [gone]; rfl) with
        ⟨c, constant⟩ | same
      · rw [constant] at standin
        cases standin
      · obtain ⟨⟨q, v⟩, operand, rfl⟩ := mem_map.1
          (sound.phis_cover t target p b there mem (leaves.edge here))
        have merged := (same _ operand).trans standin
        cases v with
        | const c => cases merged
        | var k =>
          have read := sound.uses q passed block before k entered here
            (.phi leaves there mem operand)
          exact mem_append_right _ (closed k read x merged)

end Taken

/-- Statements taken out and phis dropped, with what stands for their locals put
everywhere. -/
lemma Taken.sound (taken : Taken m pick σ₀) (sound : m.Sound) (reached : m.AllReached)
    (dropped : Dropped (extract m pick).1 σ₀ n σ) : (n.substitute σ).Sound ∧
      ∀ b, ((n.substitute σ).block? b).isSome = true → (n.substitute σ).Reached b := by
  have grounded := taken.grounded sound reached
  have blocks (b : BlockId) : (n.substitute σ).block? b = (m.block? b).map fun block =>
      Block.mapValues σ.resolve { block with
        stmts := block.stmts.filter fun s => (pick s).isNone
        phis := remaining σ block.phis } := by
    rw [Method.block?_substitute, dropped.blocks, block?_extract]
    cases m.block? b <;> rfl
  have kept {b : BlockId} {block : Block} {s : Stmt} {l : Local} (here : m.block? b = some block)
      (mem : s ∈ block.stmts) (defines : s.def? = some l) (unpicked : pick s = none) :
      σ.lookup l = none := by
    rw [dropped.keys l fun c block' found phi => ?_, taken.unpicked sound here mem defines unpicked]
    rw [block?_extract, Option.map_eq_some_iff] at found
    obtain ⟨block'', here'', rfl⟩ := found
    exact sound.phi_apart here'' here phi (mem_filterMap.2 ⟨s, mem, defines⟩)
  have rewrites : m.Rewrites (n.substitute σ)
      (fun s => if (pick s).isNone then some (s.mapValues σ.resolve) else none)
      (fun l => (σ.lookup l).isNone) (fun v v' => v' = σ.resolve v) := by
    refine {
      layout := (Method.substitute_layout n σ).trans dropped.layout
      entry := (Method.substitute_entry n σ).trans dropped.entry
      traps := (Method.substitute_traps n σ).trans dropped.traps
      locals := by
        rw [Method.substitute_locals, dropped.locals]
        rfl
      exists_ := fun b => by rw [blocks, Option.isSome_map]
      blocks := fun b block' here' => ?_ }
    rw [blocks, Option.map_eq_some_iff] at here'
    obtain ⟨block, here, rfl⟩ := here'
    refine ⟨block, here, {
      stmts := ?_
      calm := fun s _ gone => ?_
      canThrow := fun s _ s' made => ?_
      def? := fun s mem => ?_
      values := fun s _ s' made v' mem => ?_
      successors := Terminator.successors_mapValues _ _
      isThrow := Terminator.isThrow_mapValues _ _
      terminator := fun v' mem => ?_
      phis := ?_
      operands := fun p' mem => ?_ }⟩
    · simp only [Block.mapValues, ← filterMap_eq_filter, ← filterMap_eq_map, filterMap_filterMap]
      refine filterMap_congr fun s _ => ?_
      cases picked : pick s <;> simp [Option.guard, picked]
    · cases picked : pick s with
      | none => simp [picked] at gone
      | some pair =>
        rw [taken.picks s pair.1 pair.2 picked]
        rfl
    · obtain ⟨-, made⟩ := Option.ite_none_right_eq_some.1 made
      cases made
      exact Stmt.canThrow_mapValues _ _
    · cases picked : pick s with
      | none =>
        simp only [Option.isNone_none, if_true, Option.bind_some, Stmt.def?_mapValues]
        cases defines : s.def? with
        | none => rfl
        | some l =>
          have stays := kept here mem defines picked
          simp [Option.filter, stays]
      | some pair =>
        have found := taken.taken b block s pair.1 pair.2 here mem picked
        rw [taken.picks s pair.1 pair.2 picked]
        simp [Stmt.def?, dropped.grows.keys _ _ found, Option.filter]
    · obtain ⟨-, made⟩ := Option.ite_none_right_eq_some.1 made
      cases made
      rw [Stmt.values_mapValues, mem_map] at mem
      obtain ⟨v, operand, rfl⟩ := mem
      exact ⟨v, operand, rfl⟩
    · simp only [Block.mapValues, Terminator.values_mapValues, mem_map] at mem
      obtain ⟨v, operand, rfl⟩ := mem
      exact ⟨v, operand, rfl⟩
    · simp only [Block.mapValues, map_map, filter_map]
      rfl
    · simp only [Block.mapValues, mem_map] at mem
      obtain ⟨p, among, rfl⟩ := mem
      refine ⟨p, (mem_filter.1 among).1, ?_, fun q v' operand => ?_⟩
      · simp [Phi.mapValues, Function.comp_def]
      · simp only [Phi.mapValues, mem_map] at operand
        obtain ⟨⟨q, v⟩, operand, same⟩ := operand
        cases same
        exact ⟨v, operand, rfl⟩
  refine ⟨rewrites.sound sound fun b passed block before v l entered here reads standin => ?_,
    fun b found => rewrites.reached (reached b ((rewrites.exists_ b).symm.trans found))⟩
  refine ⟨?_, by rw [dropped.grounded.lookup_resolve standin.symm]; rfl⟩
  obtain ⟨rest, split⟩ := reads.split
  cases v with
  | const c => cases standin
  | var k =>
    exact taken.closed sound grounded dropped entered here split
      (sound.uses b passed block before k entered here reads) standin.symm

lemma extract_dropped (sound : m.Sound) (taken : Taken m pick (extract m pick).2)
    (grounded : Grounded (extract m pick).2) :
    Dropped (extract m pick).1 (extract m pick).2 (extract m pick).1 (extract m pick).2 := by
  have absent {b : BlockId} {block : Block} {p : Phi}
      (found : (extract m pick).1.block? b = some block) (mem : p ∈ block.phis) :
      (extract m pick).2.lookup p.dst = none := by
    rw [block?_extract, Option.map_eq_some_iff] at found
    obtain ⟨block', here, rfl⟩ := found
    exact taken.phi sound here (mem_map.2 ⟨p, mem, rfl⟩)
  refine {
    layout := rfl
    entry := rfl
    traps := rfl
    locals := rfl
    blocks := fun b => ?_
    grounded := grounded
    grows := .refl _
    keys := fun _ _ => rfl
    merges := fun b block p found mem gone => ?_ }
  · cases found : (extract m pick).1.block? b with
    | none => rfl
    | some block =>
      have all : remaining (extract m pick).2 block.phis = block.phis :=
        filter_eq_self.2 fun p mem => by rw [absent found mem]; rfl
      rw [Option.map_some, all]
  · rw [absent found mem] at gone
    cases gone

lemma extract_phisApart (sound : m.Sound) : PhisApart (extract m pick).1 := by
  refine ⟨fun b block found => ?_, fun b c block block' l found found' mem mem' => ?_⟩
  · rw [block?_extract, Option.map_eq_some_iff] at found
    obtain ⟨_, here, rfl⟩ := found
    exact (nodup_append.1 (sound.block_defs b _ here)).1
  · rw [block?_extract, Option.map_eq_some_iff] at found found'
    obtain ⟨_, here, rfl⟩ := found
    obtain ⟨_, here', rfl⟩ := found'
    exact sound.defs_apart b c _ _ l here here' (mem_append_left _ mem) (mem_append_left _ mem')

end Taken

/-! ## The passes -/

lemma removeCopies_sound (sound : m.Sound) (reached : m.AllReached) :
    (removeCopies m).1.Sound ∧
      (removeCopies m).1.AllReached := by
  have taken := extract_taken sound (copy?_picks (defCounts m))
  have dropped := extract_dropped sound taken (taken.grounded sound reached)
  exact taken.sound sound reached
    (dropRounds_spec (extract_phisApart sound) (phiCount (extract m (copy? (defCounts m))).1 + 1) dropped)

lemma removeConstants_sound (sound : m.Sound) (reached : m.AllReached) :
    (removeConstants m).1.Sound ∧
      (removeConstants m).1.AllReached := by
  have taken := extract_taken sound (constant?_picks (defCounts m))
  exact taken.sound sound reached (extract_dropped sound taken (taken.grounded sound reached))

end Restack.Pass
