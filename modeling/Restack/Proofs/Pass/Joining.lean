/-
# Allocations joined with what completes them

Objects and array literals are made one at a time: an allocation goes, and the
statement that completes the value stands for both. `constructAt?_made` and
`fillFirst_made` say what one such step does to the statements. What every step
keeps the pass keeps (`constructObjects_preserves`, `fillArrays_preserves`).
-/
import Restack.Pass.FilledArray
import Restack.Proofs.Outcome

namespace Restack.Pass

open List Ir
open Outcome

variable {m m' : Method} {b : BlockId}

section Objects

variable {edges : List (BlockId × List BlockId)} {l : Local} {i : Nat}

lemma firstUse_constructed {index stmts constructor args}
    (found : firstUse l i stmts = .constructed index constructor args) :
    ∃ k s, index = i + k ∧ stmts[k]? = some s ∧ constructorCall? l s = some (constructor, args) := by
  induction stmts generalizing i with
  | nil => cases found
  | cons s stmts ih =>
    rw [firstUse] at found
    split at found
    · rename_i call
      cases found
      exact ⟨0, s, rfl, rfl, call⟩
    · split at found
      · cases found
      · obtain ⟨k, s', index, at_, call⟩ := ih found
        exact ⟨k + 1, s', by omega, at_, call⟩

lemma findSite_call {fuel path site} (found : findSite m edges l fuel path b i = some site) :
    ∃ block s, m.block? site.block = some block ∧ block.stmts[site.index]? = some s ∧
      constructorCall? l s = some (site.constructor, site.args) := by
  induction fuel generalizing path b i with
  | zero => cases found
  | succ fuel ih =>
    rw [findSite] at found
    split at found
    · cases found
    · rename_i block at_
      split at found
      · cases found
      · split at found
        · rename_i index constructor args use
          split at found
          · cases found
          · cases found
            obtain ⟨k, s, rfl, here, call⟩ := firstUse_constructed use
            rw [getElem?_drop] at here
            exact ⟨block, s, at_, here, call⟩
        · cases found
        · split at found
          · split at found
            · cases found
            · split at found
              · cases found
              · exact ih found
          · cases found

/-- One object: its constructor call becomes the object and its allocation goes. -/
lemma constructAt?_made (made : constructAt? m edges b i = some m') :
    ∃ block target l type s, ∃ site : Site, m.block? b = some block ∧
      block.stmts[i]? = some (.assign l (.newInstance type)) ∧
      m.block? site.block = some target ∧ target.stmts[site.index]? = some s ∧
      constructorCall? l s = some (site.constructor, site.args) ∧
      m' = (m.modifyBlock site.block fun block => { block with
          stmts := block.stmts.set site.index
            (.assign l (.newObject type site.constructor site.args)) }).modifyBlock b
        fun block => { block with stmts := block.stmts.eraseIdx i } := by
  obtain ⟨block, here, made⟩ := Option.bind_eq_some_iff.1 made
  obtain ⟨s, at_, made⟩ := Option.bind_eq_some_iff.1 made
  split at made
  · obtain ⟨site, found, made⟩ := Option.bind_eq_some_iff.1 made
    cases made
    obtain ⟨target, s, there, at', call⟩ := findSite_call found
    exact ⟨block, target, _, _, s, site, here, at_, there, at', call, rfl⟩
  · cases made

lemma constructObjects_preserves {P : Method → Prop}
    (step : ∀ n n' edges b i, P n → constructAt? n edges b i = some n' → P n') (start : P m) :
    P (constructObjects m).1 := by
  have walk (edges : List (BlockId × List BlockId)) (b : BlockId) (fuel i : Nat)
      (state : Method × Bool) (start : P state.1) : P (constructFrom edges b fuel i state).1 := by
    induction fuel generalizing i state with
    | zero => exact start
    | succ fuel ih =>
      rw [constructFrom]
      split
      · exact start
      · split
        · rename_i joined made
          exact ih _ _ (step _ _ _ _ _ start made)
        · exact ih _ _ start
  exact foldlRecOn (motive := fun s : Method × Bool => P s.1) m.layout _ start
    fun s kept b _ => walk _ b _ _ s kept

end Objects

section Literals

variable {a : SizedArray} {stmts stmts' : List Stmt}

lemma sizedArray?_eq {s} (sized : sizedArray? s = some a) :
    ∃ c, s = .assign a.dst (.newArray a.type (.const c)) := by
  unfold sizedArray? at sized
  split at sized
  · rename_i c
    split at sized
    · split at sized
      · cases sized
        exact ⟨c, rfl⟩
      · cases sized
    · cases sized
  · cases sized

lemma arrayUse_store {l n s v} (stores : arrayUse l n s = .store v) : v ∈ s.values := by
  unfold arrayUse at stores
  split at stores
  · split at stores
    · cases stores
    · split at stores <;> cases stores
  · split at stores
    · cases stores
      simp [Stmt.values]
    · split at stores <;> cases stores
  · split at stores <;> cases stores

/-- Behind an array that is filled stand statements that stood there, and its literal, whose
elements were stored before, are stored there or come from a table. -/
lemma complete_made {element elements} (made : complete a element elements stmts = some stmts') :
    stmts ≠ [] ∧ ∃ vs, (∀ s ∈ stmts', s ∈ stmts ∨ s = .assign a.dst (.filledArray a.type vs)) ∧
      ∀ v ∈ vs, v ∈ elements ∨ (∃ s ∈ stmts, v ∈ s.values) ∨ ∃ c, v = .const c := by
  induction stmts generalizing elements stmts' with
  | nil => cases made
  | cons s stmts ih =>
    refine ⟨cons_ne_nil _ _, ?_⟩
    have behind {rest : List Stmt} {new : Stmt} (all : ∀ s ∈ rest, s ∈ stmts ∨ s = new) :
        ∀ s' ∈ rest, s' ∈ s :: stmts ∨ s' = new :=
      fun s' mem => (all s' mem).imp_left (mem_cons_of_mem _)
    have ends (new : Stmt) : ∀ s' ∈ new :: stmts, s' ∈ s :: stmts ∨ s' = new :=
      forall_mem_cons.2 ⟨.inr rfl, behind fun _ => .inl⟩
    rw [complete] at made
    split at made
    · split at made
      · cases made
      · obtain ⟨cs, -, rfl⟩ := Option.map_eq_some_iff.1 made
        refine ⟨_, ends _, fun v mem => ?_⟩
        obtain ⟨c, -, rfl⟩ := mem_map.1 mem
        exact .inr (.inr ⟨c, rfl⟩)
    · rename_i stored stores
      have more : ∀ v ∈ elements ++ [stored], v ∈ elements ∨ ∃ s' ∈ s :: stmts, v ∈ s'.values := by
        intro v mem
        refine (mem_append.1 mem).imp_right fun last => ⟨s, mem_cons_self, ?_⟩
        exact mem_singleton.1 last ▸ arrayUse_store stores
      split at made
      · cases made
        exact ⟨_, ends _, fun v mem => (more v mem).imp_right .inl⟩
      · obtain ⟨-, vs, all, from_⟩ := ih made
        refine ⟨vs, behind all, fun v mem => ?_⟩
        rcases from_ v mem with old | ⟨s', among, reads⟩ | const
        · exact (more v old).imp_right .inl
        · exact .inr (.inl ⟨s', mem_cons_of_mem _ among, reads⟩)
        · exact .inr (.inr const)
    · cases made
    · obtain ⟨later, completed, rfl⟩ := Option.map_eq_some_iff.1 made
      obtain ⟨-, vs, all, from_⟩ := ih completed
      refine ⟨vs, forall_mem_cons.2 ⟨.inl mem_cons_self, behind all⟩, fun v mem => ?_⟩
      exact (from_ v mem).imp_right fun new =>
        new.imp_left fun ⟨s', among, reads⟩ => ⟨s', mem_cons_of_mem _ among, reads⟩

/-- One array literal: an allocation that is not the last statement goes, and the literal
stands further behind. -/
lemma fillFirst_made (made : fillFirst m b stmts = .ok (some stmts')) :
    ∃ front s rest a vs, stmts = front ++ s :: rest ∧ rest ≠ [] ∧ sizedArray? s = some a ∧
      (∀ s ∈ stmts', s ∈ stmts ∨ s = .assign a.dst (.filledArray a.type vs)) ∧
      ∀ v ∈ vs, (∃ s ∈ stmts, v ∈ s.values) ∨ ∃ c, v = .const c := by
  induction stmts generalizing stmts' with
  | nil => cases made
  | cons s stmts ih =>
    obtain ⟨literal, tried, made⟩ := bind_ok.1 made
    cases literal with
    | some shorter =>
      cases made
      rw [literal?] at tried
      split at tried
      · cases tried
      · rename_i a sized
        split at tried
        · cases tried
        · obtain ⟨element, -, tried⟩ := bind_ok.1 tried
          obtain ⟨behind, vs, all, from_⟩ := complete_made (Except.ok.inj tried)
          refine ⟨[], s, stmts, a, vs, rfl, behind, sized, fun s' mem => ?_, fun v mem => ?_⟩
          · exact (all s' mem).imp_left (mem_cons_of_mem _)
          · refine (from_ v mem).elim (by simp) fun new => new.imp_left ?_
            exact fun ⟨s', among, reads⟩ => ⟨s', mem_cons_of_mem _ among, reads⟩
    | none =>
      obtain ⟨later, filled, same⟩ := bind_ok.1 made
      obtain ⟨found, rfl, rfl⟩ := Option.map_eq_some_iff.1 (Except.ok.inj same)
      obtain ⟨front, s', rest, a, vs, rfl, behind, sized, all, from_⟩ := ih filled
      refine ⟨s :: front, s', rest, a, vs, rfl, behind, sized, ?_, fun v mem => ?_⟩
      · refine forall_mem_cons.2 ⟨.inl mem_cons_self, fun s mem => ?_⟩
        exact (all s mem).imp_left (mem_cons_of_mem _)
      · exact (from_ v mem).imp_left fun ⟨s, among, reads⟩ =>
          ⟨s, mem_cons_of_mem _ among, reads⟩

lemma fillBlock_preserves {P : Method → Prop} (step : ∀ n block stmts, P n → n.block? b = some block →
      fillFirst n b block.stmts = .ok (some stmts) → P (n.setBlock b { block with stmts }))
    {fuel state state'} (start : P state.1) (made : fillBlock b fuel state = .ok state') : P state'.1 := by
  induction fuel generalizing state with
  | zero =>
    cases made
    exact start
  | succ fuel ih =>
    obtain ⟨n, changed⟩ := state
    rw [fillBlock] at made
    split at made
    · cases made
      exact start
    · rename_i block here
      obtain ⟨filled, made', made⟩ := bind_ok.1 made
      cases filled with
      | none =>
        cases made
        exact start
      | some stmts => exact ih (step n block stmts start here made') made

lemma fillArrays_preserves {P : Method → Prop} (step : ∀ n b block stmts, P n → n.block? b = some block →
      fillFirst n b block.stmts = .ok (some stmts) → P (n.setBlock b { block with stmts }))
    {changed} (start : P m) (made : fillArrays m = .ok (m', changed)) : P m' := by
  refine foldlM_preserves (P := fun state : Method × Bool => P state.1) ?_ start made
  rintro ⟨n, changed⟩ b state' - start made
  exact fillBlock_preserves (fun n => step n b) start made

end Literals

end Restack.Pass
