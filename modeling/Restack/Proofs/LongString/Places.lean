/-
# Where rebuilt strings stand

A statement that holds a long string comes behind the calls that rebuild it, and
those can throw. So the guarded part of a block with rebuilt strings begins at its
first statement that could throw or held a long string (`SwappedStmts.guardedPart_iff`), and
it may take in copies that a handler reads.
-/
import Restack.Proofs.Ir.Live
import Restack.Proofs.LongString.Swapping

namespace Restack.LongString

open List Ir

section Swapped

variable {decoder : Register.MethodRef} {limit n n' : Nat} {vs vs' : List Value}
  {stmts stmts' : List Stmt} {block block' : Block} {l : Local}

/-! ## Operands -/

section

variable (swapped : Swapped decoder limit n vs stmts vs' n')

include swapped

lemma Swapped.throws :
    ∀ s ∈ stmts, s.canThrow = true := by
  induction swapped with
  | nil => simp
  | keep _ _ ih => exact ih
  | swap _ _ ih => exact forall_mem_cons.2 ⟨rfl, forall_mem_cons.2 ⟨rfl, ih⟩⟩

lemma Swapped.ne_nil
    (long : holdsLong limit vs = true) : stmts ≠ [] := by
  induction swapped with
  | nil => cases long
  | keep short _ ih => exact ih ((Bool.or_eq_true_iff.1 long).resolve_left (by simp [short]))
  | swap => simp [rebuilding]

/-- Rebuilding has no use for the locals that were there. -/
lemma Swapped.old (old : l.index < n) :
    l ∉ defined stmts ∧ (∀ s ∈ stmts, .var l ∉ s.values) ∧ (.var l ∈ vs' → .var l ∈ vs) := by
  induction swapped with
  | nil => simp
  | keep _ _ ih =>
    obtain ⟨fresh, unread, kept⟩ := ih old
    exact ⟨fresh, unread, fun mem => mem_cons.2 ((mem_cons.1 mem).imp_right kept)⟩
  | @swap n _ s vs vs' stmts _ _ ih =>
    obtain ⟨fresh, unread, kept⟩ := ih (Nat.lt_add_right 2 old)
    have first : l ≠ ⟨n⟩ := by
      rintro rfl
      exact Nat.lt_irrefl _ old
    have second : l ≠ ⟨n + 1⟩ := by
      rintro rfl
      exact Nat.not_succ_lt_self old
    refine ⟨?_, ?_, fun mem => ?_⟩
    · simp [rebuilding, mem_defined_cons, Stmt.def?, fresh, first.symm, second.symm]
    · simp only [rebuilding, cons_append, forall_mem_cons]
      exact ⟨by simp [Stmt.values, Expr.values], by simp [Stmt.values, Expr.values, first], unread⟩
    · exact mem_cons_of_mem _ (kept ((mem_cons.1 mem).resolve_left (by simpa using second)))

end

/-! ## What rebuilding changes in a block -/

section

variable (swapped : SwappedStmts decoder limit n stmts stmts' n')

include swapped

lemma SwappedStmts.defined_iff
    (old : l.index < n) : l ∈ defined stmts' ↔ l ∈ defined stmts := by
  induction swapped with
  | nil => rfl
  | cons made _ ih =>
    rw [defined_append, mem_append, mem_defined_cons, mem_defined_cons,
      ih (Nat.lt_of_lt_of_le old made.le), Stmt.def?_withValues]
    simp [(made.old old).1]

/-- The guarded part begins at the first statement that can throw or held a long
string. -/
lemma SwappedStmts.guardedPart_iff
    {last} (fresh : l ∉ defined last) (old : l.index < n) : l ∈ defined (guardedPart (stmts' ++ last)) ↔
      l ∈ defined (stmts.dropWhile fun s => !s.canThrow && !holdsLong limit s.values) := by
  induction swapped with
  | nil =>
    have outside : l ∉ defined (guardedPart last) := fun mem =>
      fresh (((dropWhile_sublist _).filterMap _).subset mem)
    simpa using outside
  | @cons _ _ _ s vs pieces rest rest' made later ih =>
    have old' := Nat.lt_of_lt_of_le old made.le
    have whole : l ∈ defined (pieces ++ s.withValues vs :: (rest' ++ last)) ↔ l ∈ defined (s :: rest) := by
      have behind : l ∈ defined (rest' ++ last) ↔ l ∈ defined rest := by
        rw [defined_append, mem_append, later.defined_iff old']
        simp [fresh]
      rw [defined_append, mem_append, mem_defined_cons, mem_defined_cons, behind, Stmt.def?_withValues]
      simp [(made.old old).1]
    rw [append_assoc, cons_append, dropWhile_cons]
    cases long : holdsLong limit s.values with
    | true =>
      obtain ⟨piece, pieces, rfl⟩ := exists_cons_of_ne_nil (made.ne_nil long)
      have raises := made.throws piece mem_cons_self
      simp only [guardedPart, cons_append, dropWhile_cons, raises, Bool.not_true,
        Bool.and_false, Bool.false_eq_true, if_false]
      simpa using whole
    | false =>
      obtain ⟨rfl, rfl, -⟩ := made.same long
      cases throws : s.canThrow with
      | true =>
        simp only [guardedPart, nil_append, dropWhile_cons, Stmt.canThrow_withValues,
          throws, Bool.not_true, Bool.false_and, Bool.false_eq_true, if_false]
        simpa using whole
      | false =>
        simp only [guardedPart, nil_append, dropWhile_cons, Stmt.canThrow_withValues,
          throws, Bool.not_false, Bool.and_self, if_true]
        exact ih old'

lemma SwappedStmts.read
    (old : l.index < n) {before' rest' s'} (split : stmts' = before' ++ s' :: rest')
    (read : .var l ∈ s'.values) : ∃ before s rest, stmts = before ++ s :: rest ∧ .var l ∈ s.values ∧
      (l ∈ defined before ↔ l ∈ defined before') := by
  induction swapped generalizing before' with
  | nil => simp at split
  | @cons _ _ _ s vs pieces rest later' made later ih =>
    obtain ⟨fresh, unread, kept⟩ := made.old old
    rcases Lists.append_split split with ⟨mid, among, -⟩ | ⟨mid, rfl, behind⟩
    · exact absurd read (unread s' (by rw [among]; simp))
    · cases mid with
      | nil =>
        obtain ⟨rfl, -⟩ := cons.inj behind
        rw [Stmt.values_withValues s made.length] at read
        refine ⟨[], s, rest, rfl, kept read, ?_⟩
        simp [fresh]
      | cons r mid =>
        obtain ⟨rfl, tail⟩ := cons.inj behind
        obtain ⟨before, s'', rest'', rfl, read', same⟩ := ih (Nat.lt_of_lt_of_le old made.le) tail
        refine ⟨s :: before, s'', rest'', rfl, read', ?_⟩
        rw [mem_defined_cons, same, defined_append, mem_append, mem_defined_cons, Stmt.def?_withValues]
        simp [fresh]

end

end Swapped

/-! ## Methods -/

namespace Swaps

variable {decoder : Register.MethodRef} {limit : Nat} {m m' : Method} {first last : BlockId → Nat}
  (swaps : Swaps decoder limit m m' m.layout first last)
  (listed : ∀ b, (m.block? b).isSome = true → b ∈ m.layout)
  (clear : ∀ b block, m.isCovered b = true → m.block? b = some block → blockHoldsLong limit block = false)

include swaps listed

lemma block_of {b block block'} (here : m.block? b = some block) (there : m'.block? b = some block') :
    SwappedBlock decoder limit (first b) block block' (last b) ∧ m.locals.size ≤ first b := by
  obtain ⟨_, here', made⟩ := swaps.block listed there
  rw [here] at here'
  cases here'
  exact made

include clear

lemma same_of_caught {b t block block'} (here : m.block? b = some block)
    (there : m'.block? b = some block') (caught : t ∈ m'.exceptionalSuccessors b) :
    block' = block ∧ t ∈ m.exceptionalSuccessors b := by
  obtain ⟨throws, trap, mem, covers, handled⟩ := (Method.mem_exceptionalSuccessors there).1 caught
  rw [swaps.rest] at mem
  have covered := Method.isCovered_iff.2 ⟨trap, mem, covers⟩
  obtain ⟨rfl, -⟩ := (swaps.block_of listed here there).1.same (clear b block covered here)
  exact ⟨rfl, (Method.mem_exceptionalSuccessors here).2 ⟨throws, trap, mem, covers, handled⟩⟩

lemma leaves {b t block block' before'} (here : m.block? b = some block) (there : m'.block? b = some block')
    (leaves : m'.Leaves b block' before' t) : ∃ before, m.Leaves b block before t ∧
      ∀ l : Local, l.index < m.locals.size → l ∈ defined before → l ∈ defined before' := by
  cases leaves with
  | jump leads =>
    obtain ⟨⟨body, ending⟩, low⟩ := swaps.block_of listed here there
    rw [Terminator.successors_withValues] at leads
    refine ⟨_, .jump leads, fun l old mem => ?_⟩
    rw [defined_append]
    exact mem_append_left _ ((body.defined_iff (Nat.lt_of_lt_of_le old low)).2 mem)
  | raise split throws leads =>
    obtain ⟨rfl, caught⟩ := swaps.same_of_caught listed clear here there leads
    exact ⟨_, .raise split throws caught, fun _ _ => id⟩
  | throw throws leads =>
    obtain ⟨rfl, caught⟩ := swaps.same_of_caught listed clear here there leads
    exact ⟨_, .throw throws caught, fun _ _ => id⟩

lemma follows : m'.Follows m fun l => l.index < m.locals.size where
  entry := by rw [swaps.rest]
  merges b block' there := by
    obtain ⟨block, here, ⟨body, ending⟩, -⟩ := swaps.block listed there
    exact ⟨block, here, rfl⟩
  leaves _ _ _ _ _ there here leaves := swaps.leaves listed clear here there leaves
  reads b block' block before' l there here old reads := by
    obtain ⟨⟨body, ending⟩, low⟩ := swaps.block_of listed here there
    have old₁ := Nat.lt_of_lt_of_le old low
    have old₂ := ending.old (Nat.lt_of_lt_of_le old₁ body.le)
    cases reads with
    | stmt split read =>
      rcases Lists.append_split split with ⟨mid, among, -⟩ | ⟨mid, rfl, among⟩
      · obtain ⟨before, s, rest, split, read, same⟩ := body.read old₁ among read
        exact ⟨before, .stmt split read, same.1⟩
      · exact absurd read (old₂.2.1 _ (by rw [among]; simp))
    | terminator read =>
      rw [Terminator.values_withValues _ ending.length] at read
      refine ⟨_, .terminator (old₂.2.2 read), fun mem => ?_⟩
      rw [defined_append]
      exact mem_append_left _ ((body.defined_iff old₁).2 mem)
    | phi leaves target merged operand =>
      obtain ⟨before, leaves, sub⟩ := swaps.leaves listed clear here there leaves
      obtain ⟨_, target', ⟨_, _⟩, -⟩ := swaps.block listed target
      exact ⟨before, .phi leaves target' merged operand, sub l old⟩

lemma opensBehind (bound : ∀ l ∈ m.defs, l.index < m.locals.size) (open_ : m.OpensBehind) :
    m'.OpensBehind := by
  refine (swaps.follows listed clear).opensBehind open_ fun b block' block h l there here caught assigned => ?_
  obtain ⟨rfl, caught'⟩ := swaps.same_of_caught listed clear here there caught
  refine ⟨caught', bound l ?_, assigned⟩
  rw [Method.defs, mem_flatMap]
  refine ⟨block', Method.mem_blockList.2 ⟨b, here⟩, mem_append_right _ ?_⟩
  exact ((dropWhile_sublist _).filterMap _).subset assigned

end Swaps

end Restack.LongString
