/-
# What folding reflective allocations does

`Direct` says without the tables of the pass which calls it takes and what becomes of them, and
`Directs` what becomes of a list of statements. Then the definitions go of the locals that
a folded call took and nothing else reads (`foldReflection_exact`).

The sizes of a direct allocation are the elements of the literal that made the array of
dimensions. What is done with that array between the literal and the call does not count:
`resized` asks for as many elements as its parameter says and is given two.
-/
import Mathlib.Data.List.Flatten
import Mathlib.Data.List.Induction
import Restack.Pass.Reflection
import Restack.Proofs.Ir.Run
import Restack.Proofs.Outcome
import Restack.Proofs.Pass.DeadCode

namespace Restack.Pass

open List Ir
open Restack.Lists
open Outcome

variable {m : Method} {before stmts : List Stmt} {s s' : Stmt} {ls : List Local}

/-! ## Direct forms -/

/-- The last statement that defines a local of the method, an assignment. -/
def LastDef (m : Method) (l : Local) (e : Expr) : Prop :=
  l.index < m.locals.size ∧ (m.stmts.filter (·.def? == some l)).getLast? = some (.assign l e)

lemma LastDef.mem {l e} (last : LastDef m l e) : .assign l e ∈ m.stmts :=
  (mem_filter.1 (mem_of_getLast? last.2)).1

lemma lastDefs_iff {l e} : (lastDefs m).getD l.index none = some e ↔ LastDef m l e := by
  have walk (f : Array (Option Expr) → Stmt → Array (Option Expr))
      (assign : ∀ defs dst e, f defs (.assign dst e) = defs.setIfInBounds dst.index (some e))
      (other : ∀ defs s, s.def? = none → f defs s = defs) (n : Nat) (stmts : List Stmt) :
      (stmts.foldl f (Array.replicate n none)).size = n ∧
        ((stmts.foldl f (Array.replicate n none)).getD l.index none = some e ↔
          l.index < n ∧ (stmts.filter (·.def? == some l)).getLast? = some (.assign l e)) := by
    induction stmts using reverseRecOn with
    | nil =>
      rw [foldl_nil, Array.getD_eq_getD_getElem?, Array.getElem?_replicate]
      split <;> simp
    | append_singleton stmts s ih =>
      obtain ⟨size, found⟩ := ih
      rw [foldl_append, foldl_cons]
      cases s with
      | assign dst e' =>
        rw [assign]
        by_cases same : dst = l
        · subst same
          by_cases inside : dst.index < n <;> simp [size, inside, Stmt.def?]
        · have apart : dst.index ≠ l.index := fun index => same (by cases dst; cases l; exact congrArg _ index)
          simpa [size, Stmt.def?, Array.getElem?_setIfInBounds, same, apart] using found
      | _ =>
        rw [other _ _ rfl]
        simpa [Stmt.def?, size] using found
  refine (walk _ (fun _ _ _ => rfl) (fun defs s none => ?_) m.locals.size m.stmts).2
  cases s <;> first | rfl | cases none

/-- A class operand names an element type, or holds that of a box class and was read into a
local for that. -/
inductive NamesElement (m : Method) (element : String) : Value → List Local → Prop
  | literal : NamesElement m element (.const (.type element)) []
  | box {k field} (read : LastDef m k (.getStatic field))
      (named : field.name = "TYPE") (primitive : primitiveOfBox? field.owner = some element) :
      NamesElement m element (.var k) [k]

/-- A reflective allocation behind some statements, its direct form and the locals it took. -/
inductive Direct (m : Method) (before : List Stmt) : Stmt → Stmt → List Local → Prop
  | call {dst dims element type sizes more ls} (names : NamesElement m element type ls)
      (literal : LastDef m dims (.filledArray "[I" sizes)) (nonempty : sizes ≠ [])
      (earlier : dims ∈ defined before) :
      Direct m before (.assign dst (.invoke .static reflectiveNew (type :: .var dims :: more)))
        (.assign dst (allocation element sizes)) (dims :: ls)

lemma elementType?_iff {v element box} :
    elementType? (lastDefs m) v = some (element, box) ↔ NamesElement m element v box.toList := by
  constructor
  · intro found
    unfold elementType? at found
    split at found
    · cases found
      exact .literal
    · split at found
      · rename_i read
        split at found
        · rename_i named
          obtain ⟨primitive, is, same⟩ := Option.map_eq_some_iff.1 found
          cases same
          exact .box (lastDefs_iff.1 read) named is
        · cases found
      · cases found
    · cases found
  · intro names
    cases box with
    | none =>
      cases names
      rfl
    | some k =>
      cases names with
      | box read named primitive => simp [elementType?, lastDefs_iff.2 read, named, primitive]

lemma directForm?_iff : directForm? (lastDefs m) before s = some (s', ls) ↔ Direct m before s s' ls := by
  constructor
  · intro made
    unfold directForm? at made
    split at made
    · obtain ⟨⟨type, dims⟩, reflective, made⟩ := Option.bind_eq_some_iff.1 made
      obtain ⟨⟨element, box⟩, names, made⟩ := Option.bind_eq_some_iff.1 made
      obtain ⟨l, isLocal, made⟩ := Option.bind_eq_some_iff.1 made
      obtain ⟨found, at_, made⟩ := Option.bind_eq_some_iff.1 made
      split at made
      · obtain ⟨passed, made⟩ := guard_some.1 made
        cases made
        simp only [Bool.or_eq_true, bne_iff_ne, List.isEmpty_iff, Bool.not_eq_true', not_or, not_not,
          Bool.not_eq_false] at passed
        obtain ⟨⟨rfl, nonempty⟩, earlier⟩ := passed
        obtain ⟨r, mem, defines⟩ := any_eq_true.1 earlier
        have earlier := mem_filterMap.2 ⟨r, mem, by simpa using defines⟩
        unfold reflectiveArgs? at reflective
        split at reflective
        · rename_i shape
          split at reflective
          · rename_i same
            cases reflective
            cases shape
            subst same
            cases dims with
            | var k =>
              cases isLocal
              exact .call (elementType?_iff.1 names) (lastDefs_iff.1 at_) nonempty earlier
            | const c => cases isLocal
          · cases reflective
        · cases reflective
      · cases made
    · cases made
  · rintro ⟨names, literal, nonempty, earlier⟩
    rename_i dims element type sizes more ls
    obtain ⟨box, rfl⟩ : ∃ box : Option Local, ls = box.toList := by
      cases names with
      | literal => exact ⟨none, rfl⟩
      | box => exact ⟨some _, rfl⟩
    have found := lastDefs_iff.2 literal
    rw [Array.getD_eq_getD_getElem?] at found
    simpa [directForm?, reflectiveArgs?, elementType?_iff.2 names, Value.local?, found, nonempty]
      using mem_filterMap.1 earlier

@[simp] lemma allocation_values (element : String) (sizes : List Value) :
    (allocation element sizes).values = sizes := by
  unfold allocation
  split <;> rfl

namespace Direct

lemma def?_eq (direct : Direct m before s s' ls) : s'.def? = s.def? := by
  cases direct
  rfl

lemma inside (direct : Direct m before s s' ls) {l} (mem : l ∈ ls) : l.index < m.locals.size := by
  cases direct with
  | call names literal =>
    rcases mem_cons.1 mem with rfl | boxed
    · exact literal.1
    · cases names with
      | literal => cases boxed
      | box read =>
        cases mem_singleton.1 boxed
        exact read.1

lemma reads (direct : Direct m before s s' ls) {l} (mem : l ∈ ls) : .var l ∈ s.values := by
  cases direct with
  | call names =>
    rcases mem_cons.1 mem with rfl | boxed
    · simp [Stmt.values, Expr.values]
    · cases names with
      | literal => cases boxed
      | box =>
        cases mem_singleton.1 boxed
        simp [Stmt.values, Expr.values]

end Direct

/-! ## Statements -/

/-- What statements behind others become, and the locals that folded calls took. -/
inductive Directs (m : Method) : List Stmt → List Stmt → List Stmt → List Local → Prop
  | nil {before : List Stmt} : Directs m before [] [] []
  | call {before rest rest' s s' ls more}
      (direct : Direct m before s s' ls) (later : Directs m (before ++ [s]) rest rest' more) :
      Directs m before (s :: rest) (s' :: rest') (ls ++ more)
  | keep {before rest rest' s more} (other : ∀ s' ls, ¬ Direct m before s s' ls)
      (later : Directs m (before ++ [s]) rest rest' more) :
      Directs m before (s :: rest) (s :: rest') more

/-- The statements are gone over with what is defined so far. -/
lemma directForms_directs (m : Method) (stmts : List Stmt) :
    Directs m [] stmts (directForms (lastDefs m) [] stmts).1 (directForms (lastDefs m) [] stmts).2 := by
  -- a call and its direct form define the same local, so it does not matter which one is earlier
  suffices walk : ∀ earlier before, (∀ l, earlier.any (·.def? == some l) = before.any (·.def? == some l)) →
      ∃ out, (directForms (lastDefs m) earlier stmts).1 = earlier.reverse ++ out ∧
        Directs m before stmts out (directForms (lastDefs m) earlier stmts).2 by
    obtain ⟨out, same, directs⟩ := walk [] [] fun _ => rfl
    rw [same]
    exact directs
  induction stmts with
  | nil => exact fun earlier before _ => ⟨[], by simp [directForms], .nil⟩
  | cons s rest ih =>
    intro earlier before same
    have next {r : Stmt} (defines : r.def? = s.def?) (l : Local) :
        (r :: earlier).any (·.def? == some l) = (before ++ [s]).any (·.def? == some l) := by
      simp only [any_cons, any_append, any_nil, Bool.or_false, same, defines]
      exact Bool.or_comm _ _
    have congr : directForm? (lastDefs m) earlier s = directForm? (lastDefs m) before s := by
      simp only [directForm?, same]
    rw [directForms, congr]
    cases made : directForm? (lastDefs m) before s with
    | none =>
      obtain ⟨out, stmts, directs⟩ := ih _ _ (next rfl)
      refine ⟨s :: out, by simp [stmts], .keep (fun s' ls direct => ?_) directs⟩
      rw [directForm?_iff.2 direct] at made
      cases made
    | some found =>
      obtain ⟨s', ls⟩ := found
      have direct := directForm?_iff.1 made
      obtain ⟨out, stmts, directs⟩ := ih _ _ (next direct.def?_eq)
      exact ⟨s' :: out, by simp [stmts], .call direct directs⟩

namespace Directs

variable {out : List Stmt} (directs : Directs m before stmts out ls)

include directs

lemma mem (member : s ∈ out) :
    s ∈ stmts ∨ ∃ before t ls, t ∈ stmts ∧ Direct m before t s ls := by
  induction directs with
  | nil => cases member
  | call direct _ ih =>
    rcases mem_cons.1 member with rfl | later
    · exact .inr ⟨_, _, _, mem_cons_self, direct⟩
    · exact (ih later).imp (mem_cons_of_mem _) fun ⟨before, t, ls, among, direct⟩ =>
        ⟨before, t, ls, mem_cons_of_mem _ among, direct⟩
  | keep _ _ ih =>
    rcases mem_cons.1 member with rfl | later
    · exact .inl mem_cons_self
    · exact (ih later).imp (mem_cons_of_mem _) fun ⟨before, t, ls, among, direct⟩ =>
        ⟨before, t, ls, mem_cons_of_mem _ among, direct⟩

lemma taken {l} (mem : l ∈ ls) :
    ∃ before s s' ls, s ∈ stmts ∧ Direct m before s s' ls ∧ l ∈ ls := by
  induction directs with
  | nil => cases mem
  | call direct _ ih =>
    rcases mem_append.1 mem with here | later
    · exact ⟨_, _, _, _, mem_cons_self, direct, here⟩
    · obtain ⟨before, s, s', ls, among, found⟩ := ih later
      exact ⟨before, s, s', ls, mem_cons_of_mem _ among, found⟩
  | keep _ _ ih =>
    obtain ⟨before, s, s', ls, among, found⟩ := ih mem
    exact ⟨before, s, s', ls, mem_cons_of_mem _ among, found⟩

lemma count_le {l}
    (clear : ∀ before s s' ls, Direct m before s s' ls → .var l ∉ s'.values) :
    (localsOf (out.flatMap Stmt.values)).count l + (if l ∈ ls then 1 else 0) ≤
      (localsOf (stmts.flatMap Stmt.values)).count l := by
  induction directs with
  | nil => simp
  | @call before rest rest' s s' ls more direct later ih =>
    have none : (localsOf s'.values).count l = 0 :=
      count_eq_zero.2 fun reads => clear _ _ _ _ direct (mem_localsOf.1 reads)
    have taken : (if l ∈ ls then 1 else 0) ≤ (localsOf s.values).count l := by
      split
      · rename_i mem
        exact count_pos_iff.2 (mem_localsOf.2 (direct.reads mem))
      · exact Nat.zero_le _
    simp only [localsOf, flatMap_cons, filterMap_append, count_append] at ih none taken ⊢
    by_cases here : l ∈ ls <;> by_cases behind : l ∈ more <;>
      simp only [behind, mem_append, or_true, or_false] at ih taken ⊢ <;> omega
  | keep _ _ ih =>
    simp only [localsOf, flatMap_cons, filterMap_append, count_append] at ih ⊢
    omega

lemma unique {out' ls'}
    (other : Directs m before stmts out' ls') : out' = out ∧ ls' = ls := by
  induction directs generalizing out' ls' with
  | nil =>
    cases other
    exact ⟨rfl, rfl⟩
  | call direct _ ih =>
    cases other with
    | call direct' later' =>
      obtain ⟨rfl, rfl⟩ := ih later'
      cases (directForm?_iff.2 direct).symm.trans (directForm?_iff.2 direct')
      exact ⟨rfl, rfl⟩
    | keep other => exact (other _ _ direct).elim
  | keep other _ ih =>
    cases other with
    | call direct' => exact (other _ _ direct').elim
    | keep _ later' =>
      obtain ⟨rfl, rfl⟩ := ih later'
      exact ⟨rfl, rfl⟩

end Directs

/-! ## Methods -/

/-- What folding reflective allocations does with one block. -/
def directStep (m : Method) (state : Method × List Local) (e : BlockId × Block) : Method × List Local :=
  (state.1.setBlock e.1 { e.2 with stmts := (directForms (lastDefs m) [] e.2.stmts).1 },
    state.2 ++ (directForms (lastDefs m) [] e.2.stmts).2)

/-- Some folded call takes a local. -/
def Takes (m : Method) (l : Local) : Prop :=
  ∃ b block out ls, m.block? b = some block ∧ Directs m [] block.stmts out ls ∧ l ∈ ls

/-- The locals whose definitions go. -/
def dropped (m : Method) : List Local :=
  (m.numbered.foldl (directStep m) (m, [])).2.filter fun l => (useCounts m).getD l.index 0 == 1

lemma eq_mapBlocks {n : Method} {g : Block → Block} (frame : n = { m with blocks := n.blocks })
    (size : n.blocks.size = m.blocks.size) (blocks : ∀ b, n.block? b = (m.block? b).map g) :
    n = m.mapBlocks fun _ => g := by
  have cells : n.blocks = (m.mapBlocks fun _ => g).blocks := by
    refine Array.ext (by simpa [Method.mapBlocks] using size) fun i inside inside' => ?_
    have here : i < m.blocks.size := size ▸ inside
    simpa [Method.block?, Method.mapBlocks, inside, here] using blocks ⟨i⟩
  rw [frame, cells]
  rfl

lemma blockList_mapBlocks (g : Block → Block) : (m.mapBlocks fun _ => g).blockList = m.blockList.map g := by
  have cells : (m.blocks.mapIdx fun _ cell => cell.map g) = m.blocks.map (·.map g) :=
    Array.ext (by simp) (by simp)
  simp [Method.blockList, Method.mapBlocks, cells, map_filterMap, filterMap_map]

lemma directSteps_eq : (m.numbered.foldl (directStep m) (m, [])).1 =
    m.mapBlocks fun _ block => { block with stmts := (directForms (lastDefs m) [] block.stmts).1 } := by
  have walk (es : List (BlockId × Block)) (all : ∀ e ∈ es, m.block? e.1 = some e.2)
      (state : Method × List Local) (frame : state.1 = { m with blocks := state.1.blocks })
      (size : state.1.blocks.size = m.blocks.size) :
      let n := (es.foldl (directStep m) state).1
      n = { m with blocks := n.blocks } ∧ n.blocks.size = m.blocks.size ∧
        ∀ b, n.block? b = if b ∈ es.map (·.1) then (m.block? b).map fun block =>
          { block with stmts := (directForms (lastDefs m) [] block.stmts).1 } else state.1.block? b := by
    induction es generalizing state with
    | nil => exact ⟨frame, size, by simp⟩
    | cons e es ih =>
      obtain ⟨first, rest⟩ := forall_mem_cons.1 all
      obtain ⟨frame', size', blocks⟩ := ih rest (directStep m state e)
        (by rw [directStep, frame]; rfl) (by simpa [directStep, Method.setBlock] using size)
      refine ⟨frame', size', fun b => (blocks b).trans ?_⟩
      rw [map_cons]
      by_cases later : b ∈ es.map (·.1)
      · rw [if_pos later, if_pos (mem_cons_of_mem _ later)]
      · rw [if_neg later, directStep, Method.block?_setBlock (size ▸ Method.index_lt_of_block? first)]
        by_cases same : b = e.1
        · rw [if_pos same, same, if_pos mem_cons_self, first]
          rfl
        · rw [if_neg same, if_neg fun mem => (mem_cons.1 mem).elim same later]
  obtain ⟨frame, size, blocks⟩ := walk m.numbered (fun e mem => Method.mem_numbered.1 mem) (m, []) rfl rfl
  refine eq_mapBlocks frame size fun b => (blocks b).trans ?_
  split
  · rfl
  · rename_i absent
    cases here : m.block? b with
    | none => rfl
    | some block => exact (absent (mem_map.2 ⟨(b, block), Method.mem_numbered.2 here, rfl⟩)).elim

lemma foldReflection_eq : (foldReflection m).1 = m.mapBlocks fun _ block => { block with
    stmts := (directForms (lastDefs m) [] block.stmts).1.filter fun s => !s.def?.any (dropped m).contains } := by
  change ((m.numbered.foldl (directStep m) (m, [])).1.mapBlocks fun _ block => { block with
    stmts := block.stmts.filter fun s => !s.def?.any (dropped m).contains }) = _
  rw [directSteps_eq]
  simp [Method.mapBlocks, Option.map_map, Function.comp_def]

lemma mem_reads {l} : l ∈ (m.numbered.foldl (directStep m) (m, [])).2 ↔ Takes m l := by
  have walk (es : List (BlockId × Block)) (state : Method × List Local) :
      (es.foldl (directStep m) state).2 =
        state.2 ++ es.flatMap fun e => (directForms (lastDefs m) [] e.2.stmts).2 := by
    induction es generalizing state with
    | nil => simp
    | cons e es ih => simp [ih, directStep]
  rw [walk, nil_append, mem_flatMap]
  constructor
  · rintro ⟨⟨b, block⟩, mem, taken⟩
    exact ⟨b, block, _, _, Method.mem_numbered.1 mem, directForms_directs m block.stmts, taken⟩
  · rintro ⟨b, block, out, ls, here, directs, taken⟩
    rw [((directForms_directs m block.stmts).unique directs).2] at taken
    exact ⟨(b, block), Method.mem_numbered.2 here, taken⟩

lemma useCounts_one {l} :
    ((useCounts m).getD l.index 0 == 1) = true ↔ l.index < m.locals.size ∧ m.uses.count l = 1 := by
  have walk (ls : List Local) (counts : Array Nat) :
      (ls.foldl (fun counts l => counts.modify l.index (· + 1)) counts)[l.index]? =
        counts[l.index]?.map (· + ls.count l) := by
    induction ls generalizing counts with
    | nil => simp
    | cons k ls ih =>
      rw [foldl_cons, ih, Array.getElem?_modify]
      by_cases same : k = l
      · subst same
        rw [if_pos rfl, Option.map_map, count_cons_self]
        congr 1
        funext n
        simp only [Function.comp_apply]
        omega
      · have other : k.index ≠ l.index := fun index => same (by cases k; cases l; exact congrArg _ index)
        rw [if_neg other, count_cons_of_ne same]
  rw [useCounts, Array.getD_eq_getD_getElem?, walk, Array.getElem?_replicate]
  split
  · rename_i inside
    simp [inside]
  · rename_i outside
    simp [outside]

lemma mem_dropped {l} : l ∈ dropped m ↔ m.uses.count l = 1 ∧ Takes m l := by
  rw [dropped, mem_filter, useCounts_one, mem_reads]
  refine ⟨fun ⟨takes, _, once⟩ => ⟨once, takes⟩, fun ⟨once, takes⟩ => ⟨takes, ?_, once⟩⟩
  obtain ⟨b, block, out, ls, -, directs, mem⟩ := takes
  obtain ⟨before, s, s', ls, -, direct, mem⟩ := directs.taken mem
  exact direct.inside mem

/-! ## Reads -/

/-- The locals that a block reads, with repetitions. -/
def usesOf (block : Block) : List Local :=
  localsOf ((block.phis.flatMap fun p => p.operands.map (·.2)) ++ block.stmts.flatMap Stmt.values ++
    block.terminator.values)

lemma count_flatMap_total {α : Type} (f : α → List Local) (xs : List α) (l : Local) :
    (xs.flatMap f).count l = total (xs.map fun x => (f x).count l) := by
  induction xs with
  | nil => rfl
  | cons x xs ih => rw [flatMap_cons, count_append, ih, map_cons, total_cons]

lemma count_uses (m : Method) (l : Local) :
    m.uses.count l = total (m.blockList.map fun block => (usesOf block).count l) :=
  count_flatMap_total ..

lemma count_usesOf (block : Block) (l : Local) : (usesOf block).count l =
    (localsOf (block.phis.flatMap fun p => p.operands.map (·.2))).count l +
      (localsOf (block.stmts.flatMap Stmt.values)).count l + (localsOf block.terminator.values).count l := by
  simp only [usesOf, localsOf, filterMap_append, count_append]

lemma not_mem_sizes {l} (once : m.uses.count l = 1) (takes : Takes m l)
    (direct : Direct m before s s' ls) : .var l ∉ s'.values := by
  intro reads
  obtain ⟨b, block, out, ls, here, directs, mem⟩ := takes
  obtain ⟨before, call, form, ls, among, taking, mem⟩ := directs.taken mem
  have inside : call ∈ m.stmts := Method.mem_stmts.2 ⟨b, block, here, among⟩
  obtain ⟨-, literal, -, -⟩ := direct
  rename_i dims element type sizes more ls
  have apart : call ≠ .assign dims (.filledArray "[I" sizes) := by
    cases taking
    simp
  obtain ⟨front, back, split⟩ := append_of_mem literal.mem
  have other : call ∈ front ++ back := by
    simp_all
  have one : 0 < (localsOf ((front ++ back).flatMap Stmt.values)).count l :=
    count_pos_iff.2 (mem_localsOf.2 (mem_flatMap.2 ⟨call, other, taking.reads mem⟩))
  have two : 0 < (localsOf sizes).count l :=
    count_pos_iff.2 (mem_localsOf.2 (by simpa [Stmt.values] using reads))
  have all : (localsOf (m.stmts.flatMap Stmt.values)).count l ≤ m.uses.count l := by
    rw [count_uses, Method.stmts, flatMap_assoc, localsOf, filterMap_flatMap, count_flatMap_total]
    refine total_map_le fun block _ => ?_
    rw [count_usesOf]
    exact Nat.le_trans (Nat.le_add_left _ _) (Nat.le_add_right _ _)
  rw [split] at all
  simp only [localsOf, flatMap_append, flatMap_cons, filterMap_append, count_append,
    Stmt.values, Expr.values] at one two all
  omega

lemma not_mem_uses {l} (mem : l ∈ dropped m) : l ∉ (foldReflection m).1.uses := by
  obtain ⟨once, takes⟩ := mem_dropped.1 mem
  have le (block : Block) : (usesOf { block with
      stmts := (directForms (lastDefs m) [] block.stmts).1.filter
        fun s => !s.def?.any (dropped m).contains }).count l +
        (if l ∈ (directForms (lastDefs m) [] block.stmts).2 then 1 else 0) ≤ (usesOf block).count l := by
    have bound := (directForms_directs m block.stmts).count_le fun _ _ _ _ => not_mem_sizes once takes
    have kept := (((filter_sublist (l := (directForms (lastDefs m) [] block.stmts).1)
      (p := fun s : Stmt => !s.def?.any (dropped m).contains)).flatMap Stmt.values).filterMap Value.local?).count_le l
    simp only [count_usesOf, localsOf] at bound kept ⊢
    omega
  have fewer : (foldReflection m).1.uses.count l < m.uses.count l := by
    obtain ⟨b, block, out, ls, here, directs, taken⟩ := takes
    rw [((directForms_directs m block.stmts).unique directs).2] at taken
    rw [count_uses, count_uses, foldReflection_eq, blockList_mapBlocks, map_map]
    have less := le block
    rw [if_pos taken] at less
    exact total_map_add_le (fun block _ => Nat.le_of_add_right_le (le block))
      (Method.mem_blockList.2 ⟨b, here⟩) less
  intro reads
  have := count_pos_iff.2 reads
  omega

/-! ## Sizes -/

section Sizes

variable {V : Type} {w : World V} {st u u' : State V} {dims : Local} {sizes : List Value}

lemma stmt_trace {op} (found : s.operation? = some op) (st : State V) :
    (w.stmt st s).1.trace = st.trace ++ [⟨op, s.values.map (w.value st.env)⟩] := by
  have throws : s.canThrow = true := by rw [← Stmt.operation?_isSome, found]; rfl
  obtain ⟨op', found', ⟨x, -, ran⟩ | ⟨v, -, ran⟩⟩ := World.stmt_throwing (w := w) st throws <;>
    cases found.symm.trans found' <;> rw [ran] <;> simp [State.record]

lemma sizes_of_literal {window} (made : w.stmt st (.assign dims (.filledArray "[I" sizes)) = (u, none))
    (ran : w.stmts u window = (u', none)) (apart : .var dims ∉ sizes)
    (kept : ∀ k, k = dims ∨ .var k ∈ sizes → k ∉ defined window) :
    w.respond st.trace ⟨.expr (Expr.filledArray "[I" sizes).shape, sizes.map (w.value st.env)⟩ =
      .value (u'.env dims) ∧ sizes.map (w.value u'.env) = sizes.map (w.value st.env) := by
  have still {k : Local} (among : k = dims ∨ .var k ∈ sizes) : u'.env k = u.env k := by
    simpa [ran] using World.stmts_env (w := w) u (kept k among)
  constructor
  · obtain ⟨op, found, ⟨x, -, raised⟩ | ⟨v, answer, same⟩⟩ :=
      World.stmt_throwing (w := w) (s := .assign dims (.filledArray "[I" sizes)) st rfl
    · rw [raised] at made
      cases made
    · cases found
      rw [same] at made
      cases made
      rw [still (.inl rfl), State.define_env, if_pos (by rfl)]
      exact answer
  · refine map_congr_left fun v mem => ?_
    cases v with
    | const c => rfl
    | var k =>
      have other : (Stmt.assign dims (.filledArray "[I" sizes)).def? ≠ some k := by
        rintro ⟨⟩
        exact apart mem
      have before : u.env k = st.env k := by simpa [made] using World.stmt_env (w := w) st other
      exact (still (.inr mem)).trans before

end Sizes

/-- Folding makes calls direct, drops the definitions of the locals that only such a call
read, and does nothing else. Where a call stands behind the literal of its dimensions and
neither these nor the sizes are assigned anew, it is given the array that the literal made,
and its direct form what the literal was given. -/
theorem foldReflection_exact (m : Method) : ∃ (gone : List Local) (directs : Block → List Stmt),
    (foldReflection m).1 = m.mapBlocks (fun _ block =>
      { block with stmts := (directs block).filter fun s => !s.def?.any gone.contains }) ∧
    (∀ block, ∃ ls, Directs m [] block.stmts (directs block) ls) ∧
    (∀ l, l ∈ gone ↔ m.uses.count l = 1 ∧ Takes m l) ∧
    (∀ l ∈ gone, l ∉ (foldReflection m).1.uses) ∧
    ((foldReflection m).2 = true ↔ ∃ l, Takes m l) ∧
    ∀ {V : Type} (w : World V) (st u u' : State V) {before window : List Stmt} {dst dims : Local}
      {element : String} {type : Value} {sizes more : List Value} {ls : List Local},
      let literal := Expr.filledArray "[I" sizes
      let call := Expr.invoke .static reflectiveNew (type :: .var dims :: more)
      let direct := allocation element sizes
      Direct m (before ++ .assign dims literal :: window) (.assign dst call) (.assign dst direct) ls →
      .var dims ∉ sizes → (∀ k, k = dims ∨ .var k ∈ sizes → k ∉ defined window) →
      w.stmt st (.assign dims literal) = (u, none) → w.stmts u window = (u', none) →
      ∃ given array, u.trace = st.trace ++ [⟨.expr literal.shape, given⟩] ∧
        w.respond st.trace ⟨.expr literal.shape, given⟩ = .value array ∧
        (w.stmt u' (.assign dst call)).1.trace = u'.trace ++
          [⟨.expr call.shape, w.value u'.env type :: array :: more.map (w.value u'.env)⟩] ∧
        (w.stmt u' (.assign dst direct)).1.trace = u'.trace ++ [⟨.expr direct.shape, given⟩] := by
  refine ⟨dropped m, fun block => (directForms (lastDefs m) [] block.stmts).1, foldReflection_eq,
    fun block => ⟨_, directForms_directs m block.stmts⟩, fun l => mem_dropped,
    fun l => not_mem_uses, ?_, ?_⟩
  · have changed : (foldReflection m).2 = !(m.numbered.foldl (directStep m) (m, [])).2.isEmpty := rfl
    rw [changed, Bool.not_eq_true', List.isEmpty_eq_false_iff_exists_mem]
    exact exists_congr fun l => mem_reads
  · intro V w st u u' before window dst dims element type sizes more ls literal call direct
      _ apart kept made ran
    obtain ⟨answer, same⟩ := sizes_of_literal made ran apart kept
    have throws : direct.canThrow = true := by
      change (allocation element sizes).canThrow = true
      unfold allocation
      dsimp only
      split <;> rfl
    refine ⟨_, _, ?_, answer, stmt_trace rfl u', ?_⟩
    · have := stmt_trace (w := w) (s := .assign dims literal) rfl st
      rwa [made] at this
    · have found : (Stmt.assign dst direct).operation? = some (.expr direct.shape) := by
        simp [Stmt.operation?, throws]
      rw [stmt_trace found]
      simp [direct, Stmt.values, same]

end Restack.Pass
