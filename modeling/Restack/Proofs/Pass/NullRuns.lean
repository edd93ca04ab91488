/-
# Throwing in place of an access through null

A world refuses null if an operation that goes through its first operand raises a null
pointer exception where that operand is null or zero (`World.RefusesNull`); which
operations do so is said here by kind (`Operation.dereferences`), and not by what the pass
looks for.

The walk over the layout severs each block that no trap covers in front of its first
access through null (`cutAll_severs`). Up to that access a run of the severed method is in
the very state of the original run; there the original run raises, the other makes an
exception of its own and throws it, and both leave the method (`Severed.stop`).
-/
import Restack.Proofs.Pass.DeadRuns
import Restack.Proofs.Pass.LabelRuns

namespace Restack.Ir

open List

/-! ## Worlds that refuse null -/

/-- Operations that read or call through their first operand. -/
def Operation.dereferences : Operation → Bool
  | .expr (.getField ..) | .expr (.arrayLength ..) | .expr (.arrayLoad ..)
  | .expr (.invokePolymorphic ..) => true
  | .expr (.invoke kind ..) => kind != .static
  | .stmt (.arrayStore ..) | .stmt (.fillArrayData ..) | .stmt (.putField ..)
  | .stmt (.monitorEnter ..) | .stmt (.monitorExit ..) => true
  | _ => false

/-- The classes that a null pointer exception is of. -/
def nullPointerTypes : List String :=
  ["Ljava/lang/NullPointerException;", "Ljava/lang/RuntimeException;", "Ljava/lang/Exception;",
    "Ljava/lang/Throwable;", "Ljava/io/Serializable;", "Ljava/lang/Object;"]

variable {V : Type}

/-- A null pointer exception is made. -/
def nullPointerMade : Event V := ⟨.expr Pass.newNullPointerException, []⟩

namespace World

def IsNullPointer (w : World V) (x : V) : Prop :=
  ∀ type, w.isA type x = nullPointerTypes.contains type

/-- Accesses through null raise null pointer exceptions, and such exceptions can be made. -/
structure RefusesNull (w : World V) : Prop where
  access : ∀ trace op c operands, op.dereferences = true → c.isZero = true →
    ∃ x, w.respond trace ⟨op, w.constant c :: operands⟩ = .exception x ∧ w.IsNullPointer x
  made : ∀ trace, ∃ v, w.respond trace nullPointerMade = .value v ∧ w.IsNullPointer (w.thrown v)

variable {w : World V} {st : State V} {s : Stmt} {op : Operation} {v : V}

lemma stmt_value (does : s.operation? = some op)
    (answer : w.respond st.trace ⟨op, s.values.map (w.value st.env)⟩ = .value v) :
    w.stmt st s = ((st.record ⟨op, s.values.map (w.value st.env)⟩).define s.def? v, none) := by
  unfold stmt
  simp only [does, answer]

lemma stmt_exception (does : s.operation? = some op)
    (answer : w.respond st.trace ⟨op, s.values.map (w.value st.env)⟩ = .exception v) :
    w.stmt st s = (st.record ⟨op, s.values.map (w.value st.env)⟩, some v) := by
  unfold stmt
  simp only [does, answer]

end World

/-- Two runs at one place in one state, or behind the same events: the first at an access
through null, the second at an exception of its own. -/
inductive Arrival.SameButNull (w : World V) : Arrival V → Arrival V → Prop
  | same (a : Arrival V) : SameButNull w a a
  | null {trace op c operands x x'}
      (access : op.dereferences = true) (zero : c.isZero = true) (raised : w.IsNullPointer x)
      (thrown : w.IsNullPointer x') :
      SameButNull w (.ends (.escaped x) (trace ++ [⟨op, w.constant c :: operands⟩]))
        (.ends (.escaped x') (trace ++ [nullPointerMade]))

namespace Method

variable {m : Method} {b : BlockId} {block' : Block}

/-! ## What is left of blocks and phis -/

lemma block?_removeUnreachable_some (here : m.removeUnreachable.1.block? b = some block') :
    ∃ block, m.block? b = some block ∧ block'.stmts = block.stmts ∧ block'.terminator = block.terminator := by
  rw [removeUnreachable_eq] at here
  split at here
  · exact ⟨block', here, rfl, rfl⟩
  · rw [block?_pruneEdges, Option.map_eq_some_iff] at here
    obtain ⟨block, here, rfl⟩ := here
    exact ⟨block, (block?_restrict_some.1 here).2, rfl, rfl⟩

lemma Merging.removeUnreachable (linked : m.Linked) (housed : m.Housed) (merging : m.Merging) :
    m.removeUnreachable.1.Merging := by
  rw [removeUnreachable_eq]
  split
  · exact merging
  · have edges := edges_restrict (linked.edges housed) (reachable_closed (linked.edges housed))
    refine merging.restrict.prune (linked.layout_nodup.filter _) edges fun b exists_ => ?_
    obtain ⟨block, here⟩ := Option.isSome_iff_exists.1 exists_
    obtain ⟨kept, here⟩ := block?_restrict_some.1 here
    exact mem_filter.2 ⟨(linked.mem_layout b).2 (by rw [here]; rfl), contains_iff_mem.2 kept⟩

end Method

end Restack.Ir

namespace Restack.Pass

open List Ir

variable {V : Type} {w : World V} {m m' : Method}

/-! ## Accesses through null -/

lemma dereferenced?_expr {e v} (through : dereferenced? (.effect e) = some v) :
    ∃ rest, e.canThrow = true ∧ (Operation.expr e.shape).dereferences = true ∧ e.values = v :: rest := by
  cases e with
  | invoke kind method args =>
    cases args with
    | nil => cases kind <;> cases through
    | cons receiver rest => cases kind <;> cases through <;> exact ⟨rest, rfl, rfl, rfl⟩
  | invokePolymorphic method proto args =>
    cases args with
    | nil => cases through
    | cons receiver rest =>
      cases through
      exact ⟨rest, rfl, rfl, rfl⟩
  | getField | arrayLength | arrayLoad =>
    cases through
    exact ⟨_, rfl, rfl, rfl⟩
  | _ => cases through

lemma dereferenced?_event {s v} (through : dereferenced? s = some v) :
    ∃ op rest, s.operation? = some op ∧ op.dereferences = true ∧ s.values = v :: rest := by
  cases s with
  | assign l e | effect e =>
    obtain ⟨rest, throws, access, values⟩ := dereferenced?_expr through
    exact ⟨.expr e.shape, rest, if_pos ((Expr.asks_eq e).trans throws), access, values⟩
  | putStatic field v => cases through
  | _ =>
    cases through
    exact ⟨_, _, rfl, rfl, rfl⟩

lemma dereferenced?_of_event {s op v rest} (found : s.operation? = some op) (access : op.dereferences = true)
    (values : s.values = v :: rest) : dereferenced? s = some v := by
  cases s with
  | assign l e | effect e =>
    rw [Stmt.operation?] at found
    split at found <;> cases found
    cases e with
    | invoke kind method args =>
      cases (values : args = _)
      cases kind <;> first | rfl | cases access
    | invokePolymorphic method proto args =>
      cases (values : args = _)
      rfl
    | getField | arrayLength | arrayLoad =>
      cases values
      rfl
    | _ => cases access
  | putStatic field v =>
    cases found
    cases access
  | _ =>
    cases values
    rfl

/-- The pass looks for just the operations that go through a constant that is null. -/
lemma throughNull_iff {s} : throughNull s = true ↔ ∃ op c rest, s.operation? = some op ∧
    op.dereferences = true ∧ s.values = .const c :: rest ∧ c.isZero = true := by
  constructor
  · intro null
    rw [throughNull] at null
    split at null
    · rename_i c through
      obtain ⟨op, rest, found, access, values⟩ := dereferenced?_event through
      exact ⟨op, c, rest, found, access, values, null⟩
    · cases null
  · rintro ⟨op, c, rest, found, access, values, zero⟩
    rw [throughNull, dereferenced?_of_event found access values]
    exact zero

lemma stmt_throughNull (refuses : w.RefusesNull) {s} (null : throughNull s = true)
    (st : State V) : ∃ op c operands x, op.dereferences = true ∧ c.isZero = true ∧
      w.IsNullPointer x ∧ w.stmt st s = (st.record ⟨op, w.constant c :: operands⟩, some x) := by
  obtain ⟨op, c, rest, found, access, values, zero⟩ := throughNull_iff.1 null
  obtain ⟨x, answer, kind⟩ := refuses.access st.trace op c (rest.map (w.value st.env)) access zero
  refine ⟨op, c, rest.map (w.value st.env), x, access, zero, kind, ?_⟩
  have operands : s.values.map (w.value st.env) = w.constant c :: rest.map (w.value st.env) := by
    rw [values]
    rfl
  rw [← operands] at answer ⊢
  exact World.stmt_exception found answer

/-! ## Severed blocks -/

lemma stmts_null {stmts : List Stmt} (null : stmts.any throughNull = true) :
    ∃ s rest, stmts = stmts.takeWhile (!throughNull ·) ++ s :: rest ∧ throughNull s = true := by
  induction stmts with
  | nil => cases null
  | cons s stmts ih =>
    by_cases here : throughNull s = true
    · exact ⟨s, stmts, by simp [here], here⟩
    · obtain ⟨s', rest, split, access⟩ := ih (by simpa [here] using null)
      refine ⟨s', rest, ?_, access⟩
      rw [takeWhile_cons_of_pos (by simpa using here), cons_append, ← split]

/-- The blocks to be severed among some are, and no others. -/
structure Severed (m m' : Method) (bs : List BlockId) : Prop where
  entry : m'.entry = m.entry
  layout : m'.layout = m.layout
  traps : m'.traps = m.traps
  cut : ∀ b block, b ∈ bs → Severs m b → m.block? b = some block →
    ∃ l, m'.block? b = some (severed l block)
  whole : ∀ b, ¬ (b ∈ bs ∧ Severs m b) → m'.block? b = m.block? b

/-- The walk severs what is to be severed and tells whether there was any. -/
lemma cutAll_severs {bs} (nodup : bs.Nodup) :
    Severed m (cutAll m bs).1 bs ∧ ((cutAll m bs).2 = true ↔ ∃ b ∈ bs, Severs m b) := by
  induction bs using reverseRecOn with
  | nil => exact ⟨⟨rfl, rfl, rfl, by simp, fun _ _ => rfl⟩, by simp [cutAll]⟩
  | append_singleton bs b ih =>
    obtain ⟨before, -, apart⟩ := nodup_append.1 nodup
    have new : b ∉ bs := fun mem => apart b mem b (mem_singleton_self b) rfl
    obtain ⟨done, flag⟩ := ih before
    have walk : cutAll m (bs ++ [b]) =
        ((cutAtNull (cutAll m bs).1 b).1, (cutAll m bs).2 || (cutAtNull (cutAll m bs).1 b).2) := by
      rw [cutAll, foldl_append]
      rfl
    have here_eq := done.whole b fun both => new both.1
    have severs_iff : Severs (cutAll m bs).1 b ↔ Severs m b := by
      rw [Severs, Severs, here_eq, Method.isCovered, Method.isCovered, done.traps]
    rw [walk]
    by_cases severs : Severs m b
    · obtain ⟨-, block, here, -⟩ := id severs
      rw [cutAtNull_severs (severs_iff.2 severs) (here_eq.trans here)]
      have inside := Method.index_lt_of_block? (here_eq.trans here)
      have block? (c : BlockId) : (Method.setBlock _ b (severed (cutAll m bs).1.freshLocal.1 block)).block? c = _ :=
        Method.block?_setBlock (m := (cutAll m bs).1.freshLocal.2) inside
      refine ⟨⟨done.entry, done.layout, done.traps, fun c found mem cuts there => ?_, fun c not => ?_⟩, ?_⟩
      · rw [block?]
        by_cases same : c = b
        · subst same
          rw [if_pos rfl]
          rw [here] at there
          cases there
          exact ⟨_, rfl⟩
        · rw [if_neg same]
          exact done.cut c found ((mem_append.1 mem).resolve_right (by simpa using same)) cuts there
      · have other : c ≠ b := fun same => not ⟨by simp [same], same ▸ severs⟩
        rw [block?, if_neg other]
        exact done.whole c fun both => not ⟨mem_append_left _ both.1, both.2⟩
      · simp only [Bool.or_true, true_iff]
        exact ⟨b, by simp, severs⟩
    · rw [cutAtNull_whole (mt severs_iff.1 severs)]
      refine ⟨⟨done.entry, done.layout, done.traps, fun c found mem cuts there => ?_, fun c not => ?_⟩, ?_⟩
      · rcases mem_append.1 mem with earlier | last
        · exact done.cut c found earlier cuts there
        · exact absurd (mem_singleton.1 last ▸ cuts) severs
      · exact done.whole c fun both => not ⟨mem_append_left _ both.1, both.2⟩
      · rw [Bool.or_false, flag]
        constructor
        · rintro ⟨c, earlier, cuts⟩
          exact ⟨c, mem_append_left _ earlier, cuts⟩
        · rintro ⟨c, mem, cuts⟩
          rcases mem_append.1 mem with earlier | last
          · exact ⟨c, earlier, cuts⟩
          · exact absurd (mem_singleton.1 last ▸ cuts) severs

namespace Severed

variable (cut : Severed m m' m.layout) (linked : m.Linked)

include cut

lemma raise (b : BlockId) (st : State V) (x : V) : m'.raise w b st x = m.raise w b st x := by
  rw [Method.raise, Method.raise, Method.handlersOf, Method.handlersOf, cut.traps]

lemma block?_none {b} (gone : m.block? b = none) : m'.block? b = none := by
  rw [cut.whole b, gone]
  rintro ⟨-, -, block, here, -⟩
  rw [gone] at here
  cases here

include linked

lemma block?_cases {b block} (here : m.block? b = some block) :
    (∃ l, Severs m b ∧ m'.block? b = some (severed l block)) ∨ ¬ Severs m b ∧ m'.block? b = some block := by
  by_cases severs : Severs m b
  · have listed : b ∈ m.layout := (linked.mem_layout b).2 (by rw [here]; rfl)
    obtain ⟨l, here'⟩ := cut.cut b block listed severs here
    exact .inl ⟨l, severs, here'⟩
  · exact .inr ⟨severs, (cut.whole b fun both => severs both.2).trans here⟩

lemma phisOf (b : BlockId) : m'.phisOf b = m.phisOf b := by
  cases here : m.block? b with
  | none => rw [Method.phisOf, Method.phisOf, here, cut.block?_none here]
  | some block =>
    rcases cut.block?_cases linked here with ⟨l, -, here'⟩ | ⟨-, here'⟩
    · rw [Method.phisOf_eq here, Method.phisOf_eq here']
      rfl
    · rw [Method.phisOf_eq here, Method.phisOf_eq here']

omit linked in
/-- A severed block is left where the block is, in front of its first access through null. -/
lemma leave_severed (refuses : w.RefusesNull) {b : BlockId} {block : Block} (severs : Severs m b)
    (here : m.block? b = some block) (l : Local) (st : State V) :
    ∃ e trace e' trace', m.leave w b block st = .ends e trace ∧
      m'.leave w b (severed l block) st = .ends e' trace' ∧
      (Arrival.ends e trace).SameButNull w (.ends e' trace') := by
  obtain ⟨uncovered, block', here', null⟩ := severs
  rw [here] at here'
  cases here'
  have escapes := raise_uncovered (w := w) uncovered
  obtain ⟨s, rest, split, access⟩ := stmts_null null
  have stmts : (severed l block).stmts =
      block.stmts.takeWhile (!throughNull ·) ++ [.assign l newNullPointerException] := rfl
  generalize block.stmts.takeWhile (!throughNull ·) = before at split stmts
  cases ran : w.stmts st before with
  | mk u raised =>
    cases raised with
    | some x =>
      have first := World.stmts_append_some (s :: rest) ran
      have second := World.stmts_append_some [.assign l newNullPointerException] ran
      rw [← split] at first
      rw [← stmts] at second
      rw [Method.leave_raised first, Method.leave_raised second, cut.raise, escapes]
      exact ⟨_, _, _, _, rfl, rfl, .same _⟩
    | none =>
      obtain ⟨op, c, operands, x, through, zero, raised, refused⟩ := stmt_throughNull refuses access u
      obtain ⟨v, answer, thrown⟩ := refuses.made u.trace
      have made : w.stmt u (.assign l newNullPointerException) =
          ((u.record nullPointerMade).set l v, none) :=
        World.stmt_value (s := .assign l newNullPointerException) rfl answer
      have first := World.stmts_append_none (s :: rest) ran
      have second := World.stmts_append_none [.assign l newNullPointerException] ran
      rw [← split, World.stmts, refused] at first
      rw [← stmts, World.stmts, made] at second
      have exit : w.exit ((u.record nullPointerMade).set l v) (severed l block).terminator =
          .raise (w.thrown v) := by
        rw [show (severed l block).terminator = .throw (.var l) from rfl, World.exit, World.value,
          State.set_env, if_pos rfl]
      rw [Method.leave_raised first, Method.leave_exit second, exit]
      simp only [cut.raise, escapes]
      exact ⟨_, _, _, _, rfl, rfl, .null through zero raised thrown⟩

lemma advance (refuses : w.RefusesNull) {a a'} (same : a.SameButNull w a') :
    (m.advance w a).SameButNull w (m'.advance w a') := by
  cases same with
  | null access zero raised thrown => exact .null access zero raised thrown
  | same a =>
    cases a with
    | ends e trace => exact .same _
    | moves b st =>
      cases here : m.block? b with
      | none =>
        simp only [Method.advance, here, cut.block?_none here]
        exact .same _
      | some block =>
        rcases cut.block?_cases linked here with ⟨l, severs, here'⟩ | ⟨-, here'⟩
        · rw [Method.advance_moves here, Method.advance_moves here']
          obtain ⟨e, trace, e', trace', left, left', same⟩ :=
            cut.leave_severed refuses severs here l st
          rw [left, left']
          exact same
        · have left : m'.leave w b block st = m.leave w b block st :=
            Method.leave_congr rfl rfl fun _ => by rw [Method.handlersOf, Method.handlersOf, cut.traps]
          have arrive : m'.arrive w b (m.leave w b block st) = m.arrive w b (m.leave w b block st) := by
            cases m.leave w b block st with
            | ends e trace => rfl
            | moves t u => rw [Method.arrive, Method.arrive, cut.phisOf linked]
          rw [Method.advance_moves here, Method.advance_moves here', left, arrive]
          exact .same _

lemma stop (refuses : w.RefusesNull) (st : State V) (n : Nat) :
    (m.stop w n st).SameButNull w (m'.stop w n st) := by
  induction n with
  | zero =>
    rw [Method.stop, Method.stop, cut.entry]
    exact .same _
  | succ n ih =>
    rw [Method.stop_succ, Method.stop_succ]
    exact cut.advance linked refuses ih

end Severed

/-! ## The whole pass -/

lemma cutAll_merging (merging : m.Merging) (bs : List BlockId) : (cutAll m bs).1.Merging :=
  cutAll_preserves (P := Method.Merging) (fun _ _ _ _ merging cut => cut.merging merging) merging bs

lemma throwOnNull_snd (m : Method) : (throwOnNull m).2 = (cutAll m m.layout).2 := by
  change (if (cutAll m m.layout).2 = true then _ else _ : Method × Bool).2 = _
  split <;> simp_all

lemma block?_throwOnNull {b block'} (here : (throwOnNull m).1.block? b = some block') : ∃ found,
      (cutAll m m.layout).1.block? b = some found ∧ block'.stmts = found.stmts ∧
        block'.terminator = found.terminator := by
  rw [throwOnNull_fst] at here
  split at here
  · rw [Method.block?_pruneEdges, Option.map_eq_some_iff] at here
    obtain ⟨block, here, rfl⟩ := here
    obtain ⟨found, there, stmts, terminator⟩ := Method.block?_removeUnreachable_some here
    exact ⟨found, there, stmts, terminator⟩
  · exact ⟨block', here, rfl, rfl⟩

lemma throwOnNull_stop (linked : m.Linked) (housed : m.Housed) (st : State V) (n : Nat) :
    (throwOnNull m).1.stop w n st = (cutAll m m.layout).1.stop w n st := by
  rw [throwOnNull_fst]
  split
  · have keeps := cutAll_keeps linked m.layout
    have fewer := Method.Keeps.removeUnreachable keeps.linked
    rw [Method.stop_pruneEdges (fun b => (fewer.linked.mem_layout b).2)
      (fewer.linked.edges (fewer.housed (keeps.housed housed))),
      Method.removeUnreachable_stop keeps.linked (keeps.housed housed)]
  · rfl

lemma throwOnNull_fits (linked : m.Linked) (housed : m.Housed) (merging : m.Merging)
    (changed : (throwOnNull m).2 = true) :
    (∀ b block' p, (throwOnNull m).1.block? b = some block' → p ∈ block'.phis →
      (p.operands.map (·.1)).Perm ((throwOnNull m).1.predecessors b)) ∧
    (throwOnNull m).1.AllReached := by
  rw [throwOnNull_snd] at changed
  rw [throwOnNull_fst, if_pos changed]
  have keeps := cutAll_keeps linked m.layout
  have fewer := Method.Keeps.removeUnreachable keeps.linked
  have house := keeps.housed housed
  have edges := fewer.linked.edges (fewer.housed house)
  refine ⟨fun b block' p here merged => ?_, fun b exists_ => ?_⟩
  · exact ((cutAll_merging merging m.layout).removeUnreachable keeps.linked house).phis_pruneEdges
      fewer.linked.layout_nodup edges here merged
  · rw [Method.block?_pruneEdges_isSome] at exists_
    exact .prune edges (Method.reached_removeUnreachable house.entry (keeps.linked.edges house) b exists_)

/-- Where null is refused, a method that throws in front of accesses through null runs as before: up
to the access in the same states, and there both runs escape with null pointer exceptions. The pass
severs just the blocks that no trap covers and that have such an access: an operation that goes
through its first operand, which is null or zero. Once it did, phis
have an operand for each predecessor and all blocks can be reached. -/
theorem throwOnNull_keeps_runs (valid : m.Valid) :
    (∀ (V : Type) (w : World V), w.RefusesNull → ∀ (st : State V) (n : Nat),
      (m.stop w n st).SameButNull w ((throwOnNull m).1.stop w n st)) ∧
    (∀ b block', (throwOnNull m).1.block? b = some block' → ∃ block, m.block? b = some block ∧
      ((Severs m b ∧ ∃ l, block'.stmts = (severed l block).stmts ∧
          block'.terminator = (severed l block).terminator) ∨
        ¬ Severs m b ∧ block'.stmts = block.stmts ∧ block'.terminator = block.terminator)) ∧
    (∀ s, throughNull s = true ↔ ∃ op c rest, s.operation? = some op ∧ op.dereferences = true ∧
      s.values = .const c :: rest ∧ c.isZero = true) ∧
    ((throwOnNull m).2 = true ↔ ∃ b, Severs m b) ∧
    ((throwOnNull m).2 = true → (∀ b block' p, (throwOnNull m).1.block? b = some block' → p ∈ block'.phis →
        (p.operands.map (·.1)).Perm ((throwOnNull m).1.predecessors b)) ∧
      ∀ b, ((throwOnNull m).1.block? b).isSome = true → (throwOnNull m).1.Reached b) := by
  have linked : m.Linked := ⟨valid.layout_nodup, valid.mem_layout, valid.targets⟩
  have housed : m.Housed := ⟨valid.entry, fun b handles => by
    obtain ⟨trap, member, h, handler, rfl⟩ := Method.isHandler_iff.1 handles
    exact valid.handlers trap member h handler⟩
  obtain ⟨cut, flag⟩ := cutAll_severs (m := m) valid.layout_nodup
  refine ⟨fun V w refuses st n => ?_, fun b block' here' => ?_, fun _ => throughNull_iff, ?_,
    throwOnNull_fits linked housed valid.merging⟩
  · rw [throwOnNull_stop linked housed]
    exact cut.stop linked refuses st n
  · obtain ⟨found, there, stmts, terminator⟩ := block?_throwOnNull here'
    cases here : m.block? b with
    | none =>
      rw [cut.block?_none here] at there
      cases there
    | some block =>
      refine ⟨block, rfl, ?_⟩
      rcases cut.block?_cases linked here with ⟨l, severs, same⟩ | ⟨whole, same⟩ <;>
        rw [same] at there <;> cases there
      · exact .inl ⟨severs, l, stmts, terminator⟩
      · exact .inr ⟨whole, stmts, terminator⟩
  · rw [throwOnNull_snd, flag]
    constructor
    · rintro ⟨b, -, severs⟩
      exact ⟨b, severs⟩
    · rintro ⟨b, severs⟩
      obtain ⟨-, block, here, -⟩ := id severs
      exact ⟨b, (valid.mem_layout b).2 (by rw [here]; rfl), severs⟩

/-- Reads through null on both sides of a branch, the second one under a trap. -/
def halfGuarded : Method where
  owner := "LNull;"
  name := "run"
  descriptor := "()I"
  isStatic := true
  params := #[]
  returnType := "I"
  blocks := #[some ⟨[], [], .branch .eq (.const (.int 1)) none ⟨1⟩ ⟨2⟩⟩,
    some ⟨[], [.effect (.invoke .static ⟨"LNull;", "see", "()V"⟩ []),
      .assign ⟨0⟩ (.getField ⟨"LNull;", "size", "I"⟩ (.const .null)),
      .effect (.invoke .static ⟨"LNull;", "see", "()V"⟩ [])], .goto ⟨3⟩⟩,
    some ⟨[], [.assign ⟨1⟩ (.arrayLength (.const .null))], .goto ⟨3⟩⟩,
    some ⟨[⟨⟨2⟩, [(⟨1⟩, .var ⟨0⟩), (⟨2⟩, .const (.int 0))]⟩], [], .ret (some (.var ⟨2⟩))⟩]
  layout := [⟨0⟩, ⟨1⟩, ⟨2⟩, ⟨3⟩]
  entry := ⟨0⟩
  traps := [⟨[⟨2⟩], [⟨none, ⟨3⟩⟩]⟩]
  locals := Array.replicate 3 .int

/-- Zero is null; whatever goes through it, and all else that has it first, raises. -/
def refusing : World Nat where
  constant c := if c.isZero then 0 else 1
  argument _ := 1
  compute _ _ := 1
  respond _ event := if event.operands.head? = some 0 then .exception 7 else .value 7
  holds _ _ _ := true
  key _ := 0
  thrown v := v
  isA type _ := nullPointerTypes.contains type

lemma refusing_refusesNull : refusing.RefusesNull where
  access trace op c operands _ zero := ⟨7, by simp [refusing, zero], fun _ => rfl⟩
  made trace := ⟨7, rfl, fun _ => rfl⟩

theorem halfGuarded_runs : halfGuarded.Valid ∧ refusing.RefusesNull ∧
    (∀ (st : State Nat) (n : Nat), (halfGuarded.stop refusing n st).SameButNull refusing
      ((throwOnNull halfGuarded).1.stop refusing n st)) ∧
    (throwOnNull halfGuarded).2 = true ∧
    ∀ b, ((throwOnNull halfGuarded).1.block? b).isSome = true →
      (throwOnNull halfGuarded).1.Reached b := by
  have valid : halfGuarded.Valid :=
    Method.valid_of_near (by decide) (by decide) (by decide) (by decide) (by decide)
  obtain ⟨runs, -, -, -, fits⟩ := throwOnNull_keeps_runs valid
  have changed : (throwOnNull halfGuarded).2 = true := by decide
  exact ⟨valid, refusing_refusesNull, runs Nat refusing refusing_refusesNull, changed, (fits changed).2⟩

end Restack.Pass
