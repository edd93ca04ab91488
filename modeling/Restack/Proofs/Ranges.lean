/-
# Where guarded ranges open

The exception table opens the range of a block in front of its first statement that
can throw. Rebuilding long strings moves the place: the range then opens in front of the
first statement that can throw or held a long string, so a copy of a long string that a
handler reads ends up inside its own range (`ranges_open_behind_copies`).
-/
import Restack.Proofs.LongString.Places
import Restack.Proofs.Pass.PhiPlaces

namespace Restack

open Ir
open LongString
open Pass (replacePhis swapLoop swapLoop_valid swapLoop_throwsOnce)

/-- Replacing phis assigns in front of a guarded range all that its handlers may
read. Rebuilding long strings opens each range at the first statement that can throw
or held one of them; handlers are served as before if no block under a trap did. -/
theorem ranges_open_behind_copies {m n : Method} (valid : m.Valid) (once : m.ThrowsOnce)
    (bound : ∀ l ∈ m.defs, l.index < m.locals.size) (distinct : n.layout.Nodup)
    (listed : ∀ b, (n.block? b).isSome = true → b ∈ n.layout)
    (inside : ∀ l ∈ n.defs, l.index < n.locals.size) (helpers : ClassHelpers) (limit : Nat) :
    (replacePhis m).1.OpensBehind ∧
    (∀ b block', (helpers.rebuildStrings n limit).2.1.block? b = some block' →
      ∃ block, n.block? b = some block ∧ ∀ l : Local, l.index < n.locals.size →
        (l ∈ defined (guardedPart block'.stmts) ↔ l ∈ defined (block.stmts.dropWhile fun s =>
          !s.canThrow && !(helpers.isEnabled && holdsLong limit s.values)))) ∧
    ((helpers.isEnabled = true → ∀ b block, n.isCovered b = true → n.block? b = some block →
        blockHoldsLong limit block = false) →
      n.OpensBehind → (helpers.rebuildStrings n limit).2.1.OpensBehind) := by
  refine ⟨Pass.replacePhis_opensBehind (valid.sound bound) once, ?_⟩
  cases enabled : helpers.isEnabled with
  | false =>
    have same : (helpers.rebuildStrings n limit).2.1 = n := by
      simp [ClassHelpers.rebuildStrings, enabled]
    rw [same]
    refine ⟨fun b block' here => ⟨block', here, fun l _ => ?_⟩, fun _ => id⟩
    simp [guardedPart]
  | true =>
    obtain ⟨first, last, swaps⟩ := rebuildStrings_swaps (m := n) (.inl distinct) enabled
    refine ⟨fun b block' there => ?_, fun clear => swaps.opensBehind listed (clear rfl) inside⟩
    obtain ⟨block, here, ⟨body, ending⟩, low⟩ := swaps.block listed there
    refine ⟨block, here, fun l old => ?_⟩
    have old := Nat.lt_of_lt_of_le old low
    rw [body.guardedPart_iff (ending.old (Nat.lt_of_lt_of_le old body.le)).1 old]
    simp

/-- A guarded call in front of which a long string is assigned for its handler. -/
def lateString : Method where
  owner := "LLate;"
  name := "run"
  descriptor := "()Ljava/lang/String;"
  isStatic := true
  params := #[]
  returnType := "Ljava/lang/String;"
  blocks := #[some ⟨[], [.assign ⟨0⟩ (.value (.const (.string "abcdefgh"))),
      .effect (.invoke .static ⟨"LLate;", "call", "()V"⟩ [])], .goto ⟨1⟩⟩,
    some ⟨[], [], .ret (some (.const (.string "done")))⟩, some ⟨[], [], .ret (some (.var ⟨0⟩))⟩]
  layout := [⟨0⟩, ⟨1⟩, ⟨2⟩]
  entry := ⟨0⟩
  traps := [⟨[⟨0⟩], [⟨none, ⟨2⟩⟩]⟩]
  locals := #[.ref "Ljava/lang/String;"]

def lateHelpers : ClassHelpers := .ofClass "Late" builtin 0

/-- The handler reads the long string, and the range of the call opens in front of
its assignment. -/
theorem lateString_opens_early : swapLoop.Valid ∧ swapLoop.ThrowsOnce ∧
    (∀ l ∈ swapLoop.defs, l.index < swapLoop.locals.size) ∧ lateString.layout.Nodup ∧
    (∀ b, (lateString.block? b).isSome = true → b ∈ lateString.layout) ∧
    (∀ l ∈ lateString.defs, l.index < lateString.locals.size) ∧
    (replacePhis swapLoop).1.OpensBehind ∧
    ¬ (lateHelpers.rebuildStrings lateString 4).2.1.OpensBehind := by
  have bound : ∀ l ∈ swapLoop.defs, l.index < swapLoop.locals.size := by decide
  have listed : ∀ b, (lateString.block? b).isSome = true → b ∈ lateString.layout := by
    rintro ⟨_ | _ | _ | n⟩ found
    · decide
    · decide
    · decide
    · simp [Method.block?, lateString] at found
  have inside : ∀ l ∈ lateString.defs, l.index < lateString.locals.size := by decide
  obtain ⟨fed, opens, -⟩ := ranges_open_behind_copies swapLoop_valid swapLoop_throwsOnce bound
    (by decide) listed inside lateHelpers 4
  refine ⟨swapLoop_valid, swapLoop_throwsOnce, bound, by decide, listed, inside, fed, fun open_ => ?_⟩
  obtain ⟨block', there⟩ : ∃ block', (lateHelpers.rebuildStrings lateString 4).2.1.block? ⟨0⟩ = some block' :=
    Option.isSome_iff_exists.1 (by decide +kernel)
  obtain ⟨block, here, exact_⟩ := opens ⟨0⟩ block' there
  obtain rfl := Option.some.inj here
  have assigned := (exact_ ⟨0⟩ (by decide)).2 (by decide +kernel)
  have caught : ⟨2⟩ ∈ (lateHelpers.rebuildStrings lateString 4).2.1.exceptionalSuccessors ⟨0⟩ := by
    decide +kernel
  have handler : ((lateHelpers.rebuildStrings lateString 4).2.1.block? ⟨2⟩).map
      (fun block => (defined block.stmts, block.terminator.values)) = some ([], [.var ⟨0⟩]) := by
    decide +kernel
  obtain ⟨target, found, shows⟩ := Option.map_eq_some_iff.1 handler
  obtain ⟨none_, reads⟩ := Prod.mk.inj shows
  exact open_ ⟨0⟩ block' ⟨2⟩ ⟨[], .start⟩ there caught ⟨0⟩ assigned
    (.read found (.terminator (by rw [reads]; exact List.mem_singleton_self _)) (by rw [none_]; simp))

end Restack
