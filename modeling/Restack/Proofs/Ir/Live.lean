/-
# Live locals along paths

A local is live at a block when some path on from there reads it before it is
assigned (`Live`). Where every path from the entry assigns a local before it comes
to a read (`StrictOn`), a local that a path has not passed is not live at its end
(`StrictOn.passed`). `OpensBehind` says that what a handler may read is assigned in
front of the part of a block that a trap guards.
-/
import Restack.Proofs.Ir.Paths

namespace Restack.Ir

open List

/-- The statements from the first one on that can throw. -/
def guardedPart (stmts : List Stmt) : List Stmt := stmts.dropWhile (!Stmt.canThrow ·)

lemma guardedPart_append {before rest s} (throws : s.canThrow = true)
    (calm : ∀ r ∈ before, r.canThrow = false) : guardedPart (before ++ s :: rest) = s :: rest := by
  rw [guardedPart, dropWhile_append_of_pos (by simpa using calm)]
  simp [throws]

lemma guardedPart_calm {stmts} (calm : ∀ r ∈ stmts, r.canThrow = false) : guardedPart stmts = [] := by
  rw [guardedPart, ← append_nil stmts, dropWhile_append_of_pos (by simpa using calm)]
  rfl

lemma guardedPart_head {stmts rest s} (part : guardedPart stmts = s :: rest) : s.canThrow = true := by
  have first := head?_dropWhile_not (!Stmt.canThrow ·) stmts
  rw [show dropWhile _ _ = s :: rest from part] at first
  simpa using first

lemma split_unique {before before' rest rest'} {s s' : Stmt}
    (same : before ++ s :: rest = before' ++ s' :: rest') (throws : s.canThrow = true)
    (calm : ∀ r ∈ before', r.canThrow = false) (calm' : ∀ r ∈ rest', r.canThrow = false) :
    before = before' ∧ s = s' ∧ rest = rest' := by
  induction before generalizing before' with
  | nil =>
    cases before' with
    | nil => simpa using same
    | cons r before' =>
      obtain ⟨rfl, -⟩ := cons.inj same
      rw [calm s mem_cons_self] at throws
      cases throws
  | cons r before ih =>
    cases before' with
    | nil =>
      obtain ⟨-, rfl⟩ := cons.inj same
      rw [calm' s (by simp)] at throws
      cases throws
    | cons r' before' =>
      obtain ⟨rfl, tails⟩ := cons.inj same
      obtain ⟨rfl, rest⟩ := ih tails fun r mem => calm r (mem_cons_of_mem _ mem)
      exact ⟨rfl, rest⟩

namespace Method

variable {m : Method} {l : Local} {b : BlockId}

/-- Some path from behind the phis of a block reads a local before it is assigned. -/
inductive Live (m : Method) (l : Local) : BlockId → Prop
  | read {b : BlockId} {block} {before : List Stmt} (here : m.block? b = some block)
      (reads : m.Reads b block before (.var l)) (unassigned : l ∉ defined before) : Live m l b
  | next {b t block target} {before : List Stmt} (here : m.block? b = some block)
      (leaves : m.Leaves b block before t) (unassigned : l ∉ defined before)
      (there : m.block? t = some target) (unmerged : l ∉ target.phis.map (·.dst))
      (later : Live m l t) : Live m l b

/-- Every path from the entry assigns a local before it reads it. -/
def StrictOn (m : Method) (l : Local) : Prop :=
  ∀ b passed block before, m.Enters b passed → m.block? b = some block →
    m.Reads b block before (.var l) → l ∈ defined before ++ passed

lemma StrictOn.passed (strict : m.StrictOn l) {before} (entered : m.Enters b before)
    (live : m.Live l b) : l ∈ before := by
  induction live generalizing before with
  | read here reads unassigned =>
    exact (mem_append.1 (strict _ _ _ _ entered here reads)).resolve_left unassigned
  | next here leaves unassigned there unmerged later ih =>
    rcases mem_append.1 (ih (.next entered here leaves there)) with phi | old
    · exact absurd phi unmerged
    · exact (mem_append.1 old).resolve_left unassigned

/-- What handlers of a block may read is assigned in front of its guarded part. -/
def OpensBehind (m : Method) : Prop :=
  ∀ b block h, m.Reached b → m.block? b = some block → h ∈ m.exceptionalSuccessors b →
    ∀ l ∈ defined (guardedPart block.stmts), ¬ m.Live l h

/-- The paths of a method are paths of another one that, of some locals, assigns
no more and reads no less on the way. -/
structure Follows (m' m : Method) (K : Local → Prop) : Prop where
  entry : m'.entry = m.entry
  merges : ∀ b block', m'.block? b = some block' → ∃ block, m.block? b = some block ∧
    block'.phis.map (·.dst) = block.phis.map (·.dst)
  leaves : ∀ b block' block before' t, m'.block? b = some block' → m.block? b = some block →
    m'.Leaves b block' before' t → ∃ before, m.Leaves b block before t ∧
      ∀ l, K l → l ∈ defined before → l ∈ defined before'
  reads : ∀ b block' block before' l, m'.block? b = some block' → m.block? b = some block → K l →
    m'.Reads b block' before' (.var l) → ∃ before, m.Reads b block before (.var l) ∧
      (l ∈ defined before → l ∈ defined before')

namespace Follows

variable {m' : Method} {K : Local → Prop} (follows : Follows m' m K)

include follows

lemma reached (reached : m'.Reached b) : m.Reached b := by
  obtain ⟨passed, entered⟩ := reached
  induction entered with
  | start => exact ⟨[], follows.entry ▸ .start⟩
  | next _ here leaves there ih =>
    obtain ⟨block, here', -⟩ := follows.merges _ _ here
    obtain ⟨target, there', -⟩ := follows.merges _ _ there
    obtain ⟨before, leaves, -⟩ := follows.leaves _ _ _ _ _ here here' leaves
    exact ih.next (leaves.edge here') (by rw [there']; rfl)

lemma live (kept : K l) (live : m'.Live l b) : m.Live l b := by
  induction live with
  | read here reads unassigned =>
    obtain ⟨block, here', -⟩ := follows.merges _ _ here
    obtain ⟨before, reads, sub⟩ := follows.reads _ _ _ _ _ here here' kept reads
    exact .read here' reads fun mem => unassigned (sub mem)
  | next here leaves unassigned there unmerged _ ih =>
    obtain ⟨block, here', -⟩ := follows.merges _ _ here
    obtain ⟨target, there', phis⟩ := follows.merges _ _ there
    obtain ⟨before, leaves, sub⟩ := follows.leaves _ _ _ _ _ here here' leaves
    exact .next here' leaves (fun mem => unassigned (sub l kept mem)) there' (phis ▸ unmerged) ih

lemma opensBehind (open_ : m.OpensBehind)
    (guarded : ∀ b block' block h l, m'.block? b = some block' → m.block? b = some block →
      h ∈ m'.exceptionalSuccessors b → l ∈ defined (guardedPart block'.stmts) →
      h ∈ m.exceptionalSuccessors b ∧ K l ∧ l ∈ defined (guardedPart block.stmts)) : m'.OpensBehind := by
  intro b block' h reached here caught l assigned live
  obtain ⟨block, here', -⟩ := follows.merges b block' here
  obtain ⟨caught', kept, assigned'⟩ := guarded b block' block h l here here' caught assigned
  exact open_ b block h (follows.reached reached) here' caught' l assigned' (follows.live kept live)

end Follows

end Method

end Restack.Ir
