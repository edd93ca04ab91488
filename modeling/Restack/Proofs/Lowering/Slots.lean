/-
# Slots of locals in conflict are apart

`assignSlots` gives the parameters their slots first (`pinParams_pinned`) and then
places the other locals one by one, each apart from all it is in conflict with that
have a slot by then (`place_cases`). Conflict is symmetric, so in the end any two
locals in conflict are apart unless both are parameters (`assignSlots_allotted`).
-/
import Restack.Lowering.Slots
import Restack.Proofs.Lowering.Liveness
import Restack.Proofs.Outcome

namespace Restack.Lowering

open List Outcome Ir

variable {k l : Local} {m : Method} {pinned slots slots' : Slots}

/-! ## Conflicts -/

/-- The locals that a local is in conflict with. -/
def Conflicts.of (g : Conflicts) (l : Local) : List Local := g.getD l.index []

/-- Puts the two locals of a pair in conflict. -/
def Conflicts.add (g : Conflicts) (pair : Local × Local) : Conflicts :=
  (g.modify pair.1.index (pair.2 :: ·)).modify pair.2.index (pair.1 :: ·)

/-- The pairs of a local and another that is live where it is defined. -/
def conflictPairs (m : Method) : List (Local × Local) :=
  m.layout.flatMap fun b => match m.block? b with
    | some block => conflictsAlong block.stmts ((blockLiveness m (liveIn m) b block).drop 1)
    | none => []

lemma local_index_injective (same : l.index = k.index) : l = k := by
  cases l
  exact congrArg _ same

variable {s : Stmt} {slot width x : Nat}

section Conflicts

variable {a : Local}

lemma Conflicts.of_modify {g : Conflicts} {x f} (inside : a.index < g.size) :
    Conflicts.of (g.modify x.index f) a = if a = x then f (g.of a) else g.of a := by
  rw [Conflicts.of, Conflicts.of, Array.getD_eq_getD_getElem?, Array.getD_eq_getD_getElem?,
    Array.getElem?_modify]
  by_cases same : a = x
  · subst same
    simp [inside]
  · have other : x.index ≠ a.index := fun index => same (local_index_injective index.symm)
    simp [same, other]

lemma mem_conflicts (inside : a.index < m.locals.size) :
    k ∈ (conflicts m).of a ↔ (a, k) ∈ conflictPairs m ∨ (k, a) ∈ conflictPairs m := by
  have walk : ∀ (pairs : List (Local × Local)) (g : Conflicts), g.size = m.locals.size →
      (k ∈ Conflicts.of (pairs.foldl Conflicts.add g) a ↔ k ∈ g.of a ∨ (a, k) ∈ pairs ∨ (k, a) ∈ pairs) := by
    intro pairs
    induction pairs with
    | nil => simp
    | cons p pairs ih =>
      intro g size
      obtain ⟨x, y⟩ := p
      rw [foldl_cons, ih _ (by simp [Conflicts.add, size]), Conflicts.add,
        Conflicts.of_modify (by simp [size, inside]), Conflicts.of_modify (by rw [size]; exact inside)]
      by_cases first : a = x <;> by_cases second : a = y <;> subst_vars <;> simp_all <;> tauto
  have empty : Conflicts.of (Array.replicate m.locals.size []) a = [] := by
    simp [Conflicts.of, Array.getD_eq_getD_getElem?, inside]
  have made : conflicts m = (conflictPairs m).foldl Conflicts.add (Array.replicate m.locals.size []) := rfl
  rw [made, walk _ _ (by simp), empty]
  simp

lemma conflictsAlong_ne {stmts after} (mem : (a, k) ∈ conflictsAlong stmts after) : a ≠ k := by
  induction stmts generalizing after with
  | nil => simp [conflictsAlong] at mem
  | cons s stmts ih =>
    cases after with
    | nil => simp [conflictsAlong] at mem
    | cons live after =>
      rw [conflictsAlong, mem_append] at mem
      rcases mem with here | later
      · cases defines : s.def? with
        | none => simp [defines] at here
        | some dst =>
          simp only [defines, mem_map, mem_filter, bne_iff_ne] at here
          obtain ⟨l, ⟨-, other⟩, same⟩ := here
          cases same
          exact Ne.symm other
      · exact ih later

lemma conflictPairs_ne (mem : (a, k) ∈ conflictPairs m) : a ≠ k := by
  obtain ⟨b, -, among⟩ := mem_flatMap.1 mem
  cases here : m.block? b with
  | none => simp [here] at among
  | some block =>
    rw [here] at among
    exact conflictsAlong_ne among

lemma mem_conflictsAlong {handlers atEnd before rest}
    (defines : s.def? = some a) (live : k ∈ liveAt handlers atEnd rest) (other : k ≠ a) :
    (a, k) ∈ conflictsAlong (before ++ s :: rest)
      ((liveAlong handlers atEnd (before ++ s :: rest)).drop 1) := by
  induction before with
  | nil =>
    obtain ⟨later, along⟩ := liveAlong_eq handlers atEnd rest
    rw [nil_append, liveAlong_cons, drop_one, tail_cons, along, conflictsAlong, mem_append, defines]
    exact .inl (mem_map.2 ⟨k, mem_filter.2 ⟨live, by simpa using other⟩, rfl⟩)
  | cons r before ih =>
    obtain ⟨later, along⟩ := liveAlong_eq handlers atEnd (before ++ s :: rest)
    rw [along] at ih
    rw [cons_append, liveAlong_cons, drop_one, tail_cons, along, conflictsAlong, mem_append]
    exact .inr ih

lemma mem_conflictPairs {b block} (listed : b ∈ m.layout) (here : m.block? b = some block) {before rest}
    (split : block.stmts = before ++ s :: rest) (defines : s.def? = some a)
    (live : k ∈ liveAt (handlersLive m (liveIn m) b) (endLive m (liveIn m) b block) rest)
    (other : k ≠ a) : (a, k) ∈ conflictPairs m := by
  refine mem_flatMap.2 ⟨b, listed, ?_⟩
  rw [here]
  dsimp only
  rw [blockLiveness_eq, split]
  exact mem_conflictsAlong defines live other

end Conflicts

/-! ## Ranges of slots -/

/-- Two ranges of slots, given by first slot and width, do not overlap. -/
def Apart (slot width slot' width' : Nat) : Prop := slot + width ≤ slot' ∨ slot' + width' ≤ slot

lemma Apart.symm {slot' width'} (apart : Apart slot width slot' width') : Apart slot' width' slot width :=
  Or.symm apart

lemma overlaps_false {taken takenWidth} (made : overlaps slot width taken takenWidth = .ok false) :
    Apart slot width taken takenWidth := by
  unfold overlaps slotBehind at made
  obtain ⟨behind, found, made⟩ := bind_ok.1 made
  split at found
  · cases found
    split at made
    · obtain ⟨stop, found, made⟩ := bind_ok.1 made
      split at found
      · cases found
        have := of_decide_eq_false (Except.ok.inj made)
        exact .inl (by omega)
      · simp at found
    · exact .inr (by omega)
  · simp at found

lemma anyM_false {α : Type} {p : α → Except Failure Bool} {xs : List α}
    (made : xs.anyM p = .ok false) : ∀ x ∈ xs, p x = .ok false := by
  induction xs with
  | nil => simp
  | cons x xs ih =>
    obtain ⟨found, here, made⟩ := bind_ok.1 made
    cases found with
    | true => cases made
    | false =>
      intro y mem
      rcases mem_cons.1 mem with rfl | later
      · exact here
      · exact ih made y later

lemma firstFit_cases {taken fuel found} (made : firstFit width taken fuel slot = .ok found) :
    slot ≤ found ∧ ((∀ t ∈ taken, Apart found width t.1 t.2) ∨ found = slot + fuel) := by
  induction fuel generalizing slot with
  | zero =>
    cases made
    exact ⟨Nat.le_refl _, .inr rfl⟩
  | succ fuel ih =>
    obtain ⟨blocked, looked, made⟩ := bind_ok.1 made
    cases blocked with
    | true =>
      obtain ⟨above, fits⟩ := ih made
      exact ⟨by omega, fits.imp id fun last => by omega⟩
    | false =>
      cases made
      exact ⟨Nat.le_refl _, .inl fun t mem => overlaps_false (anyM_false looked t mem)⟩

lemma le_foldl_max {xs : List Nat} (mem : x ∈ xs) : x ≤ xs.foldl max 0 := by
  have walk : ∀ (xs : List Nat) (start : Nat), start ≤ xs.foldl max start ∧
      ∀ x ∈ xs, x ≤ xs.foldl max start := by
    intro xs
    induction xs with
    | nil => simp
    | cons y xs ih =>
      intro start
      obtain ⟨above, each⟩ := ih (max start y)
      refine ⟨Nat.le_trans (Nat.le_max_left _ _) above, fun x among => ?_⟩
      rcases mem_cons.1 among with rfl | later
      · exact Nat.le_trans (Nat.le_max_right _ _) above
      · exact each x later
  exact (walk xs 0).2 x mem

/-! ## Slots of parameters -/

lemma Slots.of?_set {x} (inside : l.index < slots.size) :
    Slots.of? (slots.setIfInBounds l.index x) k = if k = l then x else slots.of? k := by
  rw [Slots.of?, Slots.of?, Array.getD_eq_getD_getElem?, Array.getD_eq_getD_getElem?,
    Array.getElem?_setIfInBounds]
  by_cases same : k = l
  · subst same
    simp [inside]
  · have other : l.index ≠ k.index := fun index => same (local_index_injective index.symm)
    simp [same, other]

lemma Slots.index_lt (placed : slots.of? l = some x) : l.index < slots.size := by
  rw [Slots.of?] at placed
  by_contra outside
  simp [Array.getElem?_eq_none (Nat.le_of_not_lt outside)] at placed

/-- The statements of a method in the order of its layout. -/
def layoutStmts (m : Method) : List Stmt :=
  m.layout.flatMap fun b => match m.block? b with
    | some block => block.stmts
    | none => []

lemma mem_layoutStmts :
    s ∈ layoutStmts m ↔ ∃ b ∈ m.layout, ∃ block, m.block? b = some block ∧ s ∈ block.stmts := by
  rw [layoutStmts, mem_flatMap]
  refine exists_congr fun b => and_congr_right fun _ => ?_
  cases m.block? b <;> simp

lemma pinParams_ok (made : pinParams m = .ok pinned) :
    (∀ b ∈ m.layout, ∀ block, m.block? b = some block → block.phis = []) ∧
      (layoutStmts m).foldlM (pinParam (paramOffsets 0 m.params.toList).toArray)
        (Array.replicate m.locals.size none) = .ok pinned := by
  unfold pinParams at made
  unfold layoutStmts
  generalize Array.replicate m.locals.size (none : Option Nat) = slots at made ⊢
  generalize m.layout = layout at made ⊢
  induction layout generalizing slots with
  | nil => exact ⟨by simp, made⟩
  | cons b layout ih =>
    obtain ⟨next, first, rest⟩ := foldlM_cons_ok.1 made
    rw [flatMap_cons, foldlM_append, bind_ok, forall_mem_cons]
    cases here : m.block? b with
    | none =>
      rw [here] at first
      cases first
      obtain ⟨flat, folded⟩ := ih _ rest
      exact ⟨⟨by simp, flat⟩, _, rfl, folded⟩
    | some block =>
      rw [here] at first
      dsimp only at first
      split at first
      · rename_i empty
        obtain ⟨flat, folded⟩ := ih _ rest
        refine ⟨⟨?_, flat⟩, next, first, folded⟩
        rintro _ ⟨⟩
        exact isEmpty_iff.1 empty
      · simp at first

/-- A local has a slot from before, or that of a parameter that is read into it. -/
lemma pinAll_cases {offsets} {stmts : List Stmt} (made : stmts.foldlM (pinParam offsets) slots = .ok pinned) :
    pinned.size = slots.size ∧ ∀ l : Local, l.index < slots.size →
      pinned.of? l = slots.of? l ∧ (∀ i, .assign l (.param i) ∉ stmts) ∨
        ∃ i, .assign l (.param i) ∈ stmts ∧ ∃ x, offsets[i]? = some x ∧ pinned.of? l = some x := by
  induction stmts generalizing slots with
  | nil =>
    cases made
    exact ⟨rfl, fun l _ => .inl ⟨rfl, by simp⟩⟩
  | cons s stmts ih =>
    obtain ⟨next, first, rest⟩ := foldlM_cons_ok.1 made
    unfold pinParam at first
    split at first
    · rename_i dst i
      split at first
      · rename_i x offset
        cases first
        obtain ⟨size, each⟩ := ih rest
        rw [Array.size_setIfInBounds] at size each
        refine ⟨size, fun l inside => ?_⟩
        rcases each l inside with ⟨kept, absent⟩ | ⟨j, among, y, at_j, placed⟩
        · by_cases same : l = dst
          · subst same
            rw [Slots.of?_set inside, if_pos rfl] at kept
            exact .inr ⟨i, mem_cons_self, x, offset, kept⟩
          · refine .inl ⟨?_, fun j mem => ?_⟩
            · by_cases there : dst.index < slots.size
              · rw [kept, Slots.of?_set there, if_neg same]
              · rw [kept, Array.setIfInBounds_eq_of_size_le (Nat.le_of_not_lt there)]
            · rcases mem_cons.1 mem with head | later
              · cases head
                exact same rfl
              · exact absent j later
        · exact .inr ⟨j, mem_cons_of_mem _ among, y, at_j, placed⟩
      · simp at first
    · rename_i other
      cases first
      obtain ⟨size, each⟩ := ih rest
      refine ⟨size, fun l inside => (each l inside).imp ?_ ?_⟩
      · rintro ⟨kept, absent⟩
        refine ⟨kept, fun i mem => ?_⟩
        rcases mem_cons.1 mem with head | later
        · exact other l i head.symm
        · exact absent i later
      · rintro ⟨i, among, placed⟩
        exact ⟨i, mem_cons_of_mem _ among, placed⟩

/-- What has a slot among the parameters is read from one, which arrives there. -/
lemma pinParams_pinned (made : pinParams m = .ok pinned) (placed : pinned.of? l = some x) :
    ∃ i, .assign l (.param i) ∈ layoutStmts m ∧ (paramOffsets 0 m.params.toList)[i]? = some x := by
  obtain ⟨size, each⟩ := pinAll_cases (pinParams_ok made).2
  have inside := Slots.index_lt placed
  rw [size] at inside
  rcases each l inside with ⟨kept, -⟩ | ⟨i, among, y, offset, found⟩
  · rw [placed, Slots.of?] at kept
    rw [Array.size_replicate] at inside
    simp [inside] at kept
  · rw [placed] at found
    cases found
    exact ⟨i, among, by simpa using offset⟩

lemma pinParams_pins (made : pinParams m = .ok pinned)
    {i} (inside : l.index < m.locals.size) (among : .assign l (.param i) ∈ layoutStmts m) :
    (pinned.of? l).isSome = true := by
  obtain ⟨-, each⟩ := pinAll_cases (pinParams_ok made).2
  rcases each l (by simpa using inside) with ⟨-, absent⟩ | ⟨_, -, x, -, found⟩
  · exact absurd among (absent i)
  · rw [found]
    rfl

lemma paramOffsets_spec {next ds} {i : Nat} (offset : (paramOffsets next ds)[i]? = some x) :
    ∃ d, ds[i]? = some d ∧ next ≤ x ∧ x + (Ty.ofDescriptor d).width ≤
      next + total (ds.map fun d => (Ty.ofDescriptor d).width) := by
  induction ds generalizing next i with
  | nil => simp [paramOffsets] at offset
  | cons d ds ih =>
    cases i with
    | zero =>
      cases offset
      exact ⟨d, rfl, Nat.le_refl _, by simp only [map_cons, total_cons]; omega⟩
    | succ i =>
      obtain ⟨e, found, above, below⟩ := ih offset
      exact ⟨e, found, by omega, by simp only [map_cons, total_cons]; omega⟩

/-! ## Placing locals -/

/-- A local is placed already, or apart from all it is in conflict with. -/
lemma place_cases {g first} (made : place m g first slots l = .ok slots') :
    (slots.of? l).isSome = true ∧ slots' = slots ∨ slots.of? l = none ∧ ∃ x,
      slots' = slots.setIfInBounds l.index (some x) ∧ first ≤ x ∧ ∀ n ∈ g.of l, ∀ y, slots.of? n = some y →
        Apart x (m.localType l).width y (m.localType n).width := by
  unfold place at made
  split at made
  · rename_i placed
    cases made
    exact .inl ⟨placed, rfl⟩
  · rename_i open_
    rw [Bool.not_eq_true, Option.isSome_eq_false_iff, Option.isNone_iff_eq_none] at open_
    obtain ⟨x, fitted, made⟩ := bind_ok.1 made
    cases made
    refine .inr ⟨open_, x, rfl, ?_⟩
    obtain ⟨above, fits⟩ := firstFit_cases fitted
    refine ⟨above, fun n among y placed => ?_⟩
    have taken : (y, (m.localType n).width) ∈ (g.getD l.index []).filterMap fun n =>
        (slots.of? n).map fun slot => (slot, (m.localType n).width) :=
      mem_filterMap.2 ⟨n, among, by rw [placed]; rfl⟩
    rcases fits with apart | last
    · exact apart _ taken
    · have limit := le_foldl_max (mem_map_of_mem (f := fun t : Nat × Nat => t.1 + t.2) taken)
      exact .inr (by simp only at limit; omega)

/-- Parameters keep their slots, other locals lie behind them, and locals in conflict
are apart unless both are parameters. -/
structure Allotted (m : Method) (pinned slots : Slots) : Prop where
  size : slots.size = m.locals.size
  kept : ∀ l x, pinned.of? l = some x → slots.of? l = some x
  behind : ∀ l x, slots.of? l = some x → pinned.of? l = none → paramSlots m ≤ x
  apart : ∀ l k x y, slots.of? l = some x → slots.of? k = some y →
    pinned.of? l = none ∨ pinned.of? k = none → k ∈ (conflicts m).of l →
    Apart x (m.localType l).width y (m.localType k).width

lemma conflicts_symm (inside : l.index < m.locals.size) (other : k.index < m.locals.size)
    (mem : k ∈ (conflicts m).of l) : l ∈ (conflicts m).of k := by
  rw [mem_conflicts other]
  exact ((mem_conflicts inside).1 mem).symm

lemma Allotted.place (allotted : Allotted m pinned slots)
    (made : Lowering.place m (conflicts m) (paramSlots m) slots l = .ok slots') :
    Allotted m pinned slots' ∧ (l.index < m.locals.size → (slots'.of? l).isSome = true) ∧
      ∀ k x, slots.of? k = some x → slots'.of? k = some x := by
  rcases place_cases made with ⟨placed, rfl⟩ | ⟨absent, x, rfl, above, fits⟩
  · exact ⟨allotted, fun _ => placed, fun _ _ found => found⟩
  by_cases inside : l.index < m.locals.size
  case neg =>
    rw [Array.setIfInBounds_eq_of_size_le (allotted.size ▸ Nat.le_of_not_lt inside)]
    exact ⟨allotted, fun small => absurd small inside, fun _ _ found => found⟩
  have shows (k : Local) : Slots.of? (slots.setIfInBounds l.index (some x)) k =
      if k = l then some x else slots.of? k := Slots.of?_set (allotted.size ▸ inside)
  have grows : ∀ k y, slots.of? k = some y →
      Slots.of? (slots.setIfInBounds l.index (some x)) k = some y := by
    intro k y found
    rw [shows, if_neg, found]
    rintro rfl
    rw [absent] at found
    cases found
  refine ⟨⟨by simpa using allotted.size, fun k y found => grows k y (allotted.kept k y found), ?_, ?_⟩,
    fun _ => by rw [shows, if_pos rfl]; rfl, grows⟩
  · intro k y found free
    rw [shows] at found
    split at found
    · cases found
      exact above
    · exact allotted.behind k y found free
  · intro a k y z first second free conflict
    rw [shows] at first second
    split at first <;> split at second
    · subst_vars
      exact absurd conflict fun self => by
        rcases (mem_conflicts inside).1 self with pair | pair <;> exact conflictPairs_ne pair rfl
    · subst_vars
      cases first
      exact fits k conflict z second
    · subst_vars
      cases second
      have bound' : a.index < m.locals.size := allotted.size ▸ Slots.index_lt first
      exact (fits a (conflicts_symm bound' inside conflict) y first).symm
    · exact allotted.apart a k y z first second free conflict

lemma Allotted.placeAll (allotted : Allotted m pinned slots) {ls : List Local}
    (made : ls.foldlM (Lowering.place m (conflicts m) (paramSlots m)) slots = .ok slots') :
    Allotted m pinned slots' ∧ (∀ l ∈ ls, l.index < m.locals.size → (slots'.of? l).isSome = true) ∧
      ∀ k x, slots.of? k = some x → slots'.of? k = some x := by
  induction ls generalizing slots with
  | nil =>
    cases made
    exact ⟨allotted, by simp, fun _ _ found => found⟩
  | cons l ls ih =>
    obtain ⟨next, first, rest⟩ := foldlM_cons_ok.1 made
    obtain ⟨allotted', placed, grows⟩ := allotted.place first
    obtain ⟨done, all, grows'⟩ := ih allotted' rest
    refine ⟨done, forall_mem_cons.2 ⟨fun inside => ?_, all⟩, fun k x found => grows' k x (grows k x found)⟩
    obtain ⟨x, found⟩ := Option.isSome_iff_exists.1 (placed inside)
    rw [grows' l x found]
    rfl

lemma assignSlots_allotted (made : assignSlots m = .ok slots) :
    ∃ pinned, pinParams m = .ok pinned ∧ Allotted m pinned slots ∧
      ∀ l ∈ appearances m, l.index < m.locals.size → (slots.of? l).isSome = true := by
  obtain ⟨pinned, pins, made⟩ := bind_ok.1 made
  have start : Allotted m pinned pinned := by
    refine ⟨?_, fun _ _ found => found, fun l x found free => ?_, fun l k x y first second free => ?_⟩
    · simpa using (pinAll_cases (pinParams_ok pins).2).1
    · rw [found] at free
      cases free
    · rw [first, second] at free
      simp at free
  obtain ⟨allotted, placed, -⟩ := start.placeAll made
  exact ⟨pinned, pins, allotted, placed⟩

end Restack.Lowering
