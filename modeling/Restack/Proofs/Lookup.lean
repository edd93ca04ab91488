/-
# Finding values by key

Facts about `List.lookup` on lists of pairs. With distinct keys a lookup is
membership (`lookup_eq_some_iff_mem`), so it does not depend on the order
(`lookup_perm`).
-/
import Mathlib.Data.List.Nodup
import Mathlib.Data.List.Perm.Basic

namespace Restack.Lookup

open List

variable {κ α : Type} [DecidableEq κ]

lemma mem_of_lookup {l : List (κ × α)} {k a} (found : l.lookup k = some a) : (k, a) ∈ l := by
  obtain ⟨before, after, rfl, -⟩ := lookup_eq_some_iff.1 found
  simp

lemma lookup_cons_ne {l} {k k' : κ} {a : α} (ne : k ≠ k') : ((k', a) :: l).lookup k = l.lookup k := by
  have : (k == k') = false := by simpa using ne
  rw [lookup_cons, this]

lemma lookup_eq_none {l : List (κ × α)} {k} : l.lookup k = none ↔ k ∉ l.map (·.1) := by
  rw [lookup_eq_none_iff]
  simp only [bne_iff_ne, mem_map, not_exists, not_and]
  exact ⟨fun h p mem same => h p mem same.symm, fun h p mem same => h p mem same.symm⟩

lemma lookup_isSome_of_mem {l : List (κ × α)} {k} (mem : k ∈ l.map (·.1)) : ∃ a, l.lookup k = some a := by
  cases found : l.lookup k with
  | none => exact absurd mem (lookup_eq_none.1 found)
  | some a => exact ⟨a, rfl⟩

lemma lookup_eq_some_iff_mem {l : List (κ × α)} (distinct : (l.map (·.1)).Nodup) {k a} :
    l.lookup k = some a ↔ (k, a) ∈ l := by
  refine ⟨mem_of_lookup, fun mem => ?_⟩
  induction l with
  | nil => simp at mem
  | cons p l ih =>
    obtain ⟨k', a'⟩ := p
    simp only [map_cons, nodup_cons] at distinct
    rcases mem_cons.1 mem with same | later
    · cases same
      exact lookup_cons_self
    · have ne : k ≠ k' := by
        rintro rfl
        exact distinct.1 (mem_map.2 ⟨(k, a), later, rfl⟩)
      rw [lookup_cons_ne ne, ih distinct.2 later]

lemma lookup_perm {l l' : List (κ × α)} (distinct : (l.map (·.1)).Nodup) (perm : l'.Perm l)
    (k : κ) : l'.lookup k = l.lookup k := by
  have distinct' : (l'.map (·.1)).Nodup := (perm.map (·.1)).nodup_iff.2 distinct
  apply Option.ext
  intro a
  rw [lookup_eq_some_iff_mem distinct', lookup_eq_some_iff_mem distinct]
  exact perm.mem_iff

lemma lookup_filter_key {l : List (κ × α)} {keep : κ → Bool} {k} (kept : keep k = true) :
    (l.filter fun e => keep e.1).lookup k = l.lookup k := by
  induction l with
  | nil => rfl
  | cons e l ih =>
    by_cases same : k = e.1
    · subst same
      rw [filter_cons, if_pos kept, lookup_cons_self, lookup_cons_self]
    · rw [lookup_cons_ne same, filter_cons]
      split
      · rw [lookup_cons_ne same, ih]
      · exact ih

lemma eraseP_key {l : List (κ × α)} (distinct : (l.map (·.1)).Nodup) (k : κ) :
    l.eraseP (·.1 == k) = l.filter (·.1 != k) := by
  induction l with
  | nil => rfl
  | cons p l ih =>
    rw [map_cons, nodup_cons] at distinct
    by_cases same : p.1 = k
    · subst same
      have rest : l.filter (·.1 != p.1) = l := by
        refine filter_eq_self.2 fun q mem => ?_
        have : q.1 ≠ p.1 := fun h => distinct.1 (h ▸ mem_map.2 ⟨q, mem, rfl⟩)
        simpa using this
      simp [rest]
    · simp [same, ih distinct.2]

end Restack.Lookup
