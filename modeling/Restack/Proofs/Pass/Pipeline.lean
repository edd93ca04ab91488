/-
# The methods along a pipeline

`Pipeline.Along` relates a method to every method that running a pipeline on it
comes to: itself, and what each pass leaves behind, those that clean up behind a
pass included. A property that each pass keeps holds all along
(`Pipeline.Along.preserves`).
-/
import Restack.Pass.Pipeline
import Restack.Proofs.Outcome

namespace Restack

open Ir (Method)
open List Outcome

/-- The methods that running passes one after the other comes to. -/
inductive Pass.Along : List Pass → Method → Method → Prop
  | here {ps m} : Along ps m m
  | next {p ps m m' x changed}
      (run : p.apply m = .ok (m', changed)) (later : Along ps m' x) : Along (p :: ps) m x

namespace Pipeline

/-- The methods that running a pipeline comes to. -/
inductive Along : Pipeline → Method → Method → Prop
  | here {p m} : Along p m m
  | follow {s} {p : Pipeline} {m m' x} (run : s.pass.apply m = .ok (m', true))
      (later : Pass.Along s.follow m' x) : Along (s :: p) m x
  | next {s p m m' x} (run : s.run m = .ok m') (later : Along p m' x) : Along (s :: p) m x

/-- The stages up to the first of a pass, which is the last one taken. -/
def upTo (last : Pass) : Pipeline → Pipeline
  | [] => []
  | s :: rest => if s.pass = last then [s] else s :: upTo last rest

end Pipeline

/-- The passes that a pipeline may run. -/
def Pipeline.passes (p : Pipeline) : List Pass := p.flatMap fun s => s.pass :: s.follow

variable {P : Method → Prop} {m m' x : Method}

lemma Pass.apply_ok {p : Pass} {changed} :
    p.apply m = .ok (m', changed) ↔ p.transform m = .ok (m', changed) := by
  rw [Pass.apply, mapError_ok]

lemma Pass.apply_made {p : Pass} {changed r}
    (run : p.apply m = .ok (m', changed)) (made : p.transform m = .ok r) : r.1 = m' :=
  congrArg Prod.fst (Except.ok.inj (made.symm.trans (apply_ok.1 run)))

lemma Pass.Along.preserves {ps} (along : Pass.Along ps m x)
    (keeps : ∀ p ∈ ps, ∀ m m' changed, P m → p.apply m = .ok (m', changed) → P m') (start : P m) : P x := by
  induction along with
  | here => exact start
  | next run _ ih =>
    exact ih (fun p mem => keeps p (mem_cons_of_mem _ mem)) (keeps _ mem_cons_self _ _ _ start run)

lemma Pass.applyAll_along {ps} (run : Pass.applyAll ps m = .ok m') : Pass.Along ps m m' := by
  induction ps generalizing m with
  | nil =>
    cases run
    exact .here
  | cons p ps ih =>
    obtain ⟨d, first, rest⟩ := foldlM_cons_ok.1 run
    obtain ⟨⟨n, changed⟩, applied, made⟩ := bind_ok.1 first
    cases made
    exact .next applied (ih rest)

lemma Stage.run_ok {s : Stage} (run : s.run m = .ok m') : s.pass.apply m = .ok (m', false) ∨
      ∃ n, s.pass.apply m = .ok (n, true) ∧ Pass.applyAll s.follow n = .ok m' := by
  obtain ⟨⟨n, changed⟩, applied, run⟩ := bind_ok.1 run
  cases changed with
  | false =>
    cases run
    exact .inl applied
  | true => exact .inr ⟨n, applied, run⟩

lemma Stage.run_bare {p} (run : Stage.run ⟨p, []⟩ m = .ok m') : ∃ changed, p.apply m = .ok (m', changed) := by
  rcases Stage.run_ok run with applied | ⟨n, applied, followed⟩
  · exact ⟨_, applied⟩
  · cases followed
    exact ⟨_, applied⟩

lemma Pipeline.Along.preserves {p : Pipeline} (along : p.Along m x)
    (keeps : ∀ q ∈ p.passes, ∀ m m' changed, P m → q.apply m = .ok (m', changed) → P m')
    (start : P m) : P x := by
  have within {s : Stage} {p : Pipeline}
      (keeps : ∀ q ∈ Pipeline.passes (s :: p), ∀ m m' changed, P m → q.apply m = .ok (m', changed) → P m')
      (q : Pass) (mem : q = s.pass ∨ q ∈ s.follow) (m m' : Method) (changed : Bool) (h : P m)
      (run : q.apply m = .ok (m', changed)) : P m' := by
    refine keeps q ?_ m m' changed h run
    rw [Pipeline.passes, flatMap_cons, mem_append]
    exact .inl (mem_cons.2 mem)
  induction along with
  | here => exact start
  | follow run later =>
    exact later.preserves (fun q mem => within keeps q (.inr mem))
      (within keeps _ (.inl rfl) _ _ _ start run)
  | next run _ ih =>
    refine ih (fun q mem => keeps q ?_) ?_
    · rw [Pipeline.passes, flatMap_cons, mem_append]
      exact .inr mem
    · rcases Stage.run_ok run with applied | ⟨n, applied, followed⟩
      · exact within keeps _ (.inl rfl) _ _ _ start applied
      · exact (Pass.applyAll_along followed).preserves (fun q mem => within keeps q (.inr mem))
          (within keeps _ (.inl rfl) _ _ _ start applied)

lemma Pipeline.run_preserves {p : Pipeline}
    (keeps : ∀ (q : Pass) m m' changed, P m → q.apply m = .ok (m', changed) → P m') (start : P m)
    (run : p.run m = .ok m') : P m' := by
  refine foldlM_preserves (P := P) (fun m s n _ start step => ?_) start run
  rcases Stage.run_ok step with applied | ⟨x, applied, followed⟩
  · exact keeps _ _ _ _ start applied
  · exact (Pass.applyAll_along followed).preserves (fun q _ => keeps q) (keeps _ _ _ _ start applied)

lemma Pipeline.run_fails {Q} {p : Pipeline}
    (keeps : ∀ (q : Pass) m m' changed, P m → q.apply m = .ok (m', changed) → P m')
    (fails : ∀ (q : Pass) m, P m → FailsOnly Q (q.transform m)) (start : P m) : FailsOnly Q (p.run m) := by
  have applies (q : Pass) (m : Method) (old : P m) : FailsOnly Q (q.apply m) :=
    .mapError (fun _ => rfl) (fails q m old)
  refine .foldlM (P := P) start (fun m s n _ old step => ?_) fun m s _ old => ?_
  · exact run_preserves (p := [s]) keeps old (foldlM_cons_ok.2 ⟨n, step, rfl⟩)
  · refine (applies s.pass m old).bind fun r applied => ?_
    obtain ⟨n, changed⟩ := r
    have new := keeps _ _ _ _ old applied
    cases changed with
    | false => exact .ok _
    | true =>
      refine .foldlM (P := P) new (fun m q n _ old made => ?_) fun m q _ old => ?_
      · obtain ⟨⟨x, changed⟩, applied, same⟩ := bind_ok.1 made
        cases same
        exact keeps _ _ _ _ old applied
      · exact (applies q m old).bind fun _ _ => .ok _

end Restack
