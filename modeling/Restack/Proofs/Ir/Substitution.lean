/-
# Chains of replacements

`Leads` is the chain from a value to its end; a substitution in which every chain
ends is `Grounded`. A chain goes through each key once, so `resolve` has fuel enough
and gives the end (`Leads.resolve_eq`). Adding a replacement moves just the ends that
were that local (`Grounded.resolve_cons`).
-/
import Mathlib.Data.List.Perm.Subperm
import Restack.Ir.Graph
import Restack.Proofs.Lookup

namespace Restack.Ir.Substitution

open List Lookup

/-- The chain from a value ends after a number of replacements. -/
inductive Leads (σ : Substitution) : Nat → Value → Value → Prop
  | const (c : Constant) : Leads σ 0 (.const c) (.const c)
  | free {l} : σ.lookup l = none → Leads σ 0 (.var l) (.var l)
  | next {n l v w} :
      σ.lookup l = some v → Leads σ n v w → Leads σ (n + 1) (.var l) w

/-- Every chain ends. -/
def Grounded (σ : Substitution) : Prop := ∀ v, ∃ n w, Leads σ n v w

variable {σ : Substitution}

lemma Leads.deterministic {n n' v w w'} (one : Leads σ n v w)
    (other : Leads σ n' v w') : n = n' ∧ w = w' := by
  induction one generalizing n' with
  | const c => cases other; exact ⟨rfl, rfl⟩
  | free absent =>
    cases other with
    | free _ => exact ⟨rfl, rfl⟩
    | next found _ => rw [absent] at found; cases found
  | next found _ ih =>
    cases other with
    | free absent => rw [absent] at found; cases found
    | next found' rest =>
      rw [found] at found'
      cases found'
      obtain ⟨rfl, rfl⟩ := ih rest
      exact ⟨rfl, rfl⟩

lemma Leads.stops {n v w} (chain : Leads σ n v w) : Leads σ 0 w w := by
  induction chain with
  | const c => exact .const c
  | free absent => exact .free absent
  | next _ _ ih => exact ih

/-- The keys on a chain, which are different because the rest of the chain
behind each has another length. -/
lemma Leads.keys {n v w} (chain : Leads σ n v w) : ∃ ks : List Local, ks.length = n ∧ ks.Nodup ∧
      ∀ k ∈ ks, k ∈ σ.map (·.1) ∧ ∃ i, i ≤ n ∧ Leads σ i (.var k) w := by
  induction chain with
  | const c | free _ => exact ⟨[], rfl, nodup_nil, by simp⟩
  | @next n l v w found rest ih =>
    obtain ⟨ks, length, distinct, on⟩ := ih
    refine ⟨l :: ks, by simp [length], ?_, ?_⟩
    · refine nodup_cons.2 ⟨fun mem => ?_, distinct⟩
      obtain ⟨_, i, bound, shorter⟩ := on l mem
      have := ((Leads.next found rest).deterministic shorter).1
      omega
    · intro k mem
      rcases mem_cons.1 mem with rfl | later
      · exact ⟨mem_map.2 ⟨_, mem_of_lookup found, rfl⟩, n + 1, Nat.le_refl _, .next found rest⟩
      · obtain ⟨key, i, bound, shorter⟩ := on k later
        exact ⟨key, i, Nat.le_succ_of_le bound, shorter⟩

lemma Leads.le_length {n v w} (chain : Leads σ n v w) : n ≤ σ.length := by
  obtain ⟨ks, rfl, distinct, on⟩ := chain.keys
  have := (subperm_of_subset distinct fun k mem => (on k mem).1).length_le
  simpa using this

lemma Leads.follow_eq {n v w} (chain : Leads σ n v w) {fuel} (enough : n ≤ fuel) : σ.follow fuel v = w := by
  induction chain generalizing fuel with
  | const c => cases fuel <;> rfl
  | free absent => cases fuel <;> simp [follow, absent]
  | next found _ ih =>
    obtain ⟨fuel, rfl⟩ : ∃ k, fuel = k + 1 := ⟨fuel - 1, by omega⟩
    simp only [follow, found]
    exact ih (by omega)

lemma Leads.resolve_eq {n v w} (chain : Leads σ n v w) : σ.resolve v = w :=
  chain.follow_eq (Nat.le_succ_of_le chain.le_length)

lemma resolve_of_lookup_none {l} (absent : σ.lookup l = none) : σ.resolve (.var l) = .var l :=
  (Leads.free absent).resolve_eq

namespace Grounded

lemma nil : Grounded [] := by
  intro v
  cases v with
  | var l => exact ⟨0, _, .free rfl⟩
  | const c => exact ⟨0, _, .const c⟩

variable (grounded : Grounded σ)

include grounded

lemma leads (v : Value) : ∃ n, Leads σ n v (σ.resolve v) := by
  obtain ⟨n, w, chain⟩ := grounded v
  exact ⟨n, chain.resolve_eq.symm ▸ chain⟩

lemma resolve_resolve (v : Value) : σ.resolve (σ.resolve v) = σ.resolve v := by
  obtain ⟨n, chain⟩ := grounded.leads v
  exact chain.stops.resolve_eq

lemma lookup_resolve {v l} (resolved : σ.resolve v = .var l) : σ.lookup l = none := by
  obtain ⟨n, chain⟩ := grounded.leads v
  rw [resolved] at chain
  cases chain.stops with
  | free absent => exact absent

lemma leads_zero {v} (resolved : σ.resolve v = v) : Leads σ 0 v v := by
  obtain ⟨n, chain⟩ := grounded.leads v
  rw [resolved] at chain
  exact chain.stops

section Cons

variable {l : Local} {v : Value}

lemma leads_cons (absent : σ.lookup l = none)
    (resolved : σ.resolve v = v) (other : v ≠ .var l) {n x w} (chain : Leads σ n x w) :
    ∃ n', Leads ((l, v) :: σ) n' x (if w = .var l then v else w) := by
  have stays : ∀ {k : Local}, k ≠ l → ((l, v) :: σ).lookup k = σ.lookup k := lookup_cons_ne
  induction chain with
  | const c => exact ⟨0, .const c⟩
  | @free k unbound =>
    by_cases same : k = l
    · subst same
      have stops : Leads ((k, v) :: σ) 0 v v := by
        cases grounded.leads_zero resolved with
        | const c => exact .const c
        | @free j unbound' =>
          have ne : j ≠ k := by
            rintro rfl
            exact other rfl
          exact .free ((stays ne).trans unbound')
      rw [if_pos rfl]
      exact ⟨1, .next lookup_cons_self stops⟩
    · have ne : Value.var k ≠ .var l := fun eq => same (Value.var.inj eq)
      rw [if_neg ne]
      exact ⟨0, .free ((stays same).trans unbound)⟩
  | @next n k u w found _ ih =>
    have ne : k ≠ l := by
      rintro rfl
      rw [absent] at found
      cases found
    obtain ⟨n', chain'⟩ := ih
    exact ⟨n' + 1, .next ((stays ne).trans found) chain'⟩

lemma cons (absent : σ.lookup l = none) (resolved : σ.resolve v = v)
    (other : v ≠ .var l) : Grounded ((l, v) :: σ) := by
  intro x
  obtain ⟨n, chain⟩ := grounded.leads x
  obtain ⟨n', chain'⟩ := grounded.leads_cons absent resolved other chain
  exact ⟨n', _, chain'⟩

lemma resolve_cons (absent : σ.lookup l = none)
    (resolved : σ.resolve v = v) (other : v ≠ .var l) (x : Value) : Substitution.resolve ((l, v) :: σ) x =
      if σ.resolve x = .var l then v else σ.resolve x := by
  obtain ⟨n, chain⟩ := grounded.leads x
  obtain ⟨n', chain'⟩ := grounded.leads_cons absent resolved other chain
  exact chain'.resolve_eq

end Cons

end Grounded

end Restack.Ir.Substitution
