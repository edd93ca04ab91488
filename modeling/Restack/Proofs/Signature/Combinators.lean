/-
# Parsers and the texts they read

A parser is `Sound` for a way of writing items if all it takes is the text of a
valid item, and `Complete` if it reads the text of every valid item back. How
far a name or a repetition goes depends on what comes next, so completeness is
relative to what may follow.
-/
import Mathlib.Data.List.Basic
import Restack.Signature.Parser

namespace Restack.Signature

open List

variable {α β : Type} {p q : Parser α} {s rest : List Char} {c : Char} {n : Nat}
  {chars : α → List Char} {valid : α → Prop} {follow : List Char → Prop}

/-- All the parser takes is the text of a valid item. -/
def Sound (p : Parser α) (chars : α → List Char) (valid : α → Prop) : Prop :=
  ∀ ⦃s a rest⦄, p s = some (a, rest) → valid a ∧ s = chars a ++ rest

/-- The text of a valid item with at most `n` characters is read back, whatever of `follow` comes
next. -/
def Complete (n : Nat) (p : Parser α) (chars : α → List Char) (valid : α → Prop)
    (follow : List Char → Prop) : Prop :=
  ∀ ⦃a⦄, valid a → (chars a).length ≤ n → ∀ ⦃rest⦄, follow rest → p (chars a ++ rest) = some (a, rest)

lemma Complete.reads (complete : Complete n p chars valid follow) {a} (ok : valid a)
    (short : (chars a).length ≤ n) (rest : List Char) (next : follow rest) :
    p (chars a ++ rest) = some (a, rest) :=
  complete ok short next

lemma char_eq_some {u} : char c s = some (u, rest) ↔ s = c :: rest := by
  cases s with
  | nil => simp [char]
  | cons d s =>
    by_cases same : d = c
    · simp [char, same]
    · simp [char, same]

lemma char_sound : Sound (char c) (fun _ => [c]) fun _ => True :=
  fun _ _ _ read => ⟨trivial, char_eq_some.1 read⟩

@[simp] lemma char_self : char c (c :: s) = some ((), s) := char_eq_some.2 rfl

lemma char_ne {d} (ne : d ≠ c) : char c (d :: s) = none := by
  simp [char, ne]

lemma after_eq_some {r} : after c p s = some r ↔ ∃ s', s = c :: s' ∧ p s' = some r := by
  constructor
  · intro read
    rw [after] at read
    split at read
    · simp at read
    · rename_i found
      exact ⟨_, char_eq_some.1 found, read⟩
  · rintro ⟨s', rfl, read⟩
    simp [after, read]

@[simp] lemma after_self : after c p (c :: s) = p s := by simp [after]

lemma after_ne {d} (ne : d ≠ c) : after c p (d :: s) = none := by
  simp [after, char_ne ne]

lemma Sound.after (sound : Sound p chars valid) : Sound (after c p) (fun a => c :: chars a) valid := by
  intro s a rest read
  obtain ⟨s', rfl, inside⟩ := after_eq_some.1 read
  obtain ⟨ok, rfl⟩ := sound inside
  exact ⟨ok, rfl⟩

lemma Complete.after (complete : Complete n p chars valid follow) :
    Complete n (after c p) (fun a => c :: chars a) valid follow := by
  intro a ok short rest next
  exact after_self.trans (complete ok (Nat.le_of_succ_le short) next)

lemma before_eq_some {a} : before p c s = some (a, rest) ↔ p s = some (a, c :: rest) := by
  rw [before]
  cases read : p s with
  | none => simp
  | some r =>
    obtain ⟨b, s'⟩ := r
    cases found : char c s' with
    | none =>
      have : s' ≠ c :: rest := by
        rintro rfl
        simp at found
      simp [found, this]
    | some u =>
      simp [char_eq_some.1 found]

lemma mapResult_eq_some {f} {b : β} :
    mapResult f p s = some (b, rest) ↔ ∃ a, p s = some (a, rest) ∧ f a = b := by
  rw [mapResult]
  cases p s with
  | none => simp
  | some r =>
    obtain ⟨a, s'⟩ := r
    simp only [Option.map_some, Option.some.injEq, Prod.mk.injEq]
    exact ⟨fun ⟨here, there⟩ => ⟨a, ⟨rfl, there⟩, here⟩,
      fun ⟨_, ⟨same, there⟩, here⟩ => ⟨same ▸ here, there⟩⟩

lemma mapResult_eq_none {f : α → β} : mapResult f p s = none ↔ p s = none := by
  simp [mapResult]

lemma Sound.map {f chars'} {valid' : β → Prop} (sound : Sound p chars valid)
    (into : ∀ a, valid a → valid' (f a) ∧ chars' (f a) = chars a) : Sound (mapResult f p) chars' valid' := by
  intro s b rest read
  obtain ⟨a, taken, rfl⟩ := mapResult_eq_some.1 read
  obtain ⟨ok, rfl⟩ := sound taken
  obtain ⟨ok', same⟩ := into a ok
  exact ⟨ok', by rw [same]⟩

lemma orElse_eq_some {r} : orElse p q s = some r ↔ p s = some r ∨ p s = none ∧ q s = some r := by
  rw [orElse]
  cases p s <;> simp

lemma Sound.orElse (first : Sound p chars valid) (second : Sound q chars valid) :
    Sound (orElse p q) chars valid := by
  intro s a rest read
  rcases orElse_eq_some.1 read with read | ⟨-, read⟩
  · exact first read
  · exact second read

lemma orElse_eq_none : orElse p q s = none ↔ p s = none ∧ q s = none := by
  rw [orElse]
  cases p s <;> simp

lemma optional_eq {found} : optional p s = (found, rest) ↔
      (∃ a, found = some a ∧ p s = some (a, rest)) ∨ found = none ∧ p s = none ∧ s = rest := by
  rw [optional]
  cases p s with
  | none => simp [eq_comm]
  | some r => simp [eq_comm, Prod.ext_iff]

lemma repeatAlong_sound (sound : Sound p chars valid) {bound items}
    (read : repeatAlong p bound s = (items, rest)) :
    (∀ a ∈ items, valid a) ∧ s = items.flatMap chars ++ rest := by
  induction bound generalizing s items with
  | nil =>
    cases read
    simp
  | cons b bound ih =>
    rw [repeatAlong] at read
    split at read
    · cases read
      simp
    · rename_i a s' first
      cases more : repeatAlong p bound s' with
      | mk items' rest' =>
        rw [more] at read
        cases read
        obtain ⟨here, rfl⟩ := sound first
        obtain ⟨later, rfl⟩ := ih more
        simpa using ⟨here, later⟩

lemma many_sound (sound : Sound p chars valid) {items} (read : many p s = (items, rest)) :
    (∀ a ∈ items, valid a) ∧ s = items.flatMap chars ++ rest :=
  repeatAlong_sound sound read

/-- What lets items stand one behind the other: none is empty, and each may follow another. -/
structure Chained (chars : α → List Char) (valid : α → Prop) (follow : List Char → Prop) : Prop where
  nonempty : ∀ a, valid a → chars a ≠ []
  chain : ∀ a, valid a → ∀ s, follow (chars a ++ s)

lemma repeatAlong_complete (complete : Complete n p chars valid follow)
    (chained : Chained chars valid follow) (ends : follow rest) (stops : p rest = none)
    {bound items} (enough : items.length ≤ bound.length)
    (each : ∀ a ∈ items, valid a) (short : (items.flatMap chars).length ≤ n) :
    repeatAlong p bound (items.flatMap chars ++ rest) = (items, rest) := by
  induction items generalizing bound with
  | nil =>
    cases bound with
    | nil => rfl
    | cons b bound => simp [repeatAlong, stops]
  | cons a items ih =>
    obtain ⟨here, later⟩ := forall_mem_cons.1 each
    rw [flatMap_cons, length_append] at short
    cases bound with
    | nil => simp at enough
    | cons b bound =>
      -- the next item, or what comes after the last one, may follow this one
      have next : follow (items.flatMap chars ++ rest) := by
        cases items with
        | nil => exact ends
        | cons a' items =>
          rw [flatMap_cons, append_assoc]
          exact chained.chain a' (later a' (by simp)) _
      have first := complete here (by omega) next
      rw [flatMap_cons, append_assoc, repeatAlong, first]
      simp [ih (by simpa using enough) later (by omega)]

lemma many_complete (complete : Complete n p chars valid follow)
    (chained : Chained chars valid follow) (ends : follow rest) (stops : p rest = none)
    {items} (each : ∀ a ∈ items, valid a) (short : (items.flatMap chars).length ≤ n) :
    many p (items.flatMap chars ++ rest) = (items, rest) := by
  refine repeatAlong_complete complete chained ends stops ?_ each short
  have enough : items.length ≤ (items.flatMap chars).length := by
    clear ends stops short
    induction items with
    | nil => simp
    | cons a items ih =>
      obtain ⟨here, later⟩ := forall_mem_cons.1 each
      have := length_pos_iff.2 (chained.nonempty a here)
      have := ih later
      simp only [flatMap_cons, length_append, length_cons]
      omega
  rw [length_append]
  omega

lemma many1_eq_some {items} : many1 p s = some (items, rest) ↔ items ≠ [] ∧ many p s = (items, rest) := by
  rw [many1]
  cases read : many p s with
  | mk found rest' =>
    cases found with
    | nil =>
      simp only [Prod.mk.injEq, reduceCtorEq, false_iff, not_and]
      exact fun nonempty empty => absurd empty.symm nonempty
    | cons a found =>
      simp only [Option.some.injEq, Prod.mk.injEq]
      exact ⟨fun ⟨same, there⟩ => ⟨same ▸ cons_ne_nil _ _, same, there⟩, fun h => h.2⟩

lemma bracketed_append (h : s ≠ []) (rest : List Char) : bracketed s ++ rest = '<' :: (s ++ '>' :: rest) := by
  rw [bracketed, if_neg (by simpa using h)]
  simp

lemma length_le_bracketed (s : List Char) : s.length ≤ (bracketed s).length := by
  rw [bracketed]
  split
  · simp_all
  · simp only [length_append, length_cons]
    omega

lemma flatMap_ne_nil (nonempty : ∀ a, valid a → chars a ≠ []) {items} (some_ : items ≠ [])
    (each : ∀ a ∈ items, valid a) : items.flatMap chars ≠ [] := by
  intro empty
  obtain ⟨a, mem⟩ := exists_mem_of_ne_nil _ some_
  exact nonempty a (each a mem) (flatMap_eq_nil_iff.1 empty a mem)

lemma optional_bracketed_sound (sound : Sound p chars valid) (nonempty : ∀ a, valid a → chars a ≠ []) {found}
    (read : optional (before (after '<' (many1 p)) '>') s = (found, rest)) :
    (∀ a ∈ found.getD [], valid a) ∧ s = bracketed ((found.getD []).flatMap chars) ++ rest := by
  rcases optional_eq.1 read with ⟨items, rfl, taken⟩ | ⟨rfl, -, rfl⟩
  · obtain ⟨s', rfl, inside⟩ := after_eq_some.1 (before_eq_some.1 taken)
    obtain ⟨some_, row⟩ := many1_eq_some.1 inside
    obtain ⟨each, rfl⟩ := many_sound sound row
    refine ⟨each, ?_⟩
    rw [Option.getD_some, bracketed_append (flatMap_ne_nil nonempty some_ each)]
  · simp [bracketed]

lemma optional_bracketed_complete (complete : Complete n p chars valid follow)
    (chained : Chained chars valid follow) (ends : follow ('>' :: rest))
    (stops : p ('>' :: rest) = none) {items} (each : ∀ a ∈ items, valid a)
    (short : (bracketed (items.flatMap chars)).length ≤ n) (next : rest.head? ≠ some '<') :
    ∃ found, optional (before (after '<' (many1 p)) '>')
      (bracketed (items.flatMap chars) ++ rest) = (found, rest) ∧ found.getD [] = items := by
  by_cases empty : items = []
  · subst empty
    have nothing : before (after '<' (many1 p)) '>' rest = none := by
      cases rest with
      | nil => rfl
      | cons c rest =>
        have : c ≠ '<' := fun same => next (by simp [same])
        simp [before, after_ne this]
    exact ⟨none, optional_eq.2 (.inr ⟨rfl, nothing, rfl⟩), rfl⟩
  · have row := many_complete complete chained ends stops each
      (Nat.le_trans (length_le_bracketed _) short)
    rw [bracketed_append (flatMap_ne_nil chained.nonempty empty each)]
    exact ⟨some items, optional_eq.2 (.inl ⟨items, rfl, before_eq_some.2
      (after_eq_some.2 ⟨_, rfl, many1_eq_some.2 ⟨empty, row⟩⟩)⟩), rfl⟩

end Restack.Signature
