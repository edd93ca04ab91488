/-
# Replacing phis

A complete phi that merges one value is replaced by it (`Good.replace`): its
entry then holds because all predecessors agree. Replacing one phi leads to
those that read it, and these are complete too, because only complete phis have
operands outside a gathering (`simplifyWith_spec`).
-/
import Restack.Proofs.Lifting.Registers.Tables

namespace Restack.Lifting.Registers

open Ir (Local Value Substitution)
open List Lookup

variable {o : Outline} {s : Registers} {pending : List Local}

/-! ## Phis that merge one value -/

lemma isVar_iff {v : Value} {l} : v.isVar l = true ↔ v = .var l := by
  cases v <;> simp [Value.isVar, Value.local?]

lemma mem_incoming {φ m v} :
    v ∈ s.incoming φ m ↔ (∃ p w, (p, w) ∈ m.operands ∧ s.resolve w = v) ∧ v ≠ .var φ := by
  simp only [incoming, mem_eraseDups, mem_filter, mem_map, Bool.not_eq_true',
    ← Bool.not_eq_true, isVar_iff, Prod.exists]

lemma merge?_replace (s : Registers) (φ ψ : Local) (v : Value) :
    (s.replace φ v).merge? ψ = if ψ = φ then none else s.merge? ψ := by
  simp only [merge?, replace]
  induction s.merges with
  | nil => simp
  | cons p ms ih =>
    obtain ⟨χ, m⟩ := p
    by_cases removed : χ = φ
    · have : (χ != φ) = false := by simpa using removed
      rw [filter_cons_of_neg (by simp [this]), ih]
      by_cases same : ψ = φ
      · simp [same]
      · rw [if_neg same, if_neg same, lookup_cons_ne (removed ▸ same)]
    · have : (χ != φ) = true := by simpa using removed
      rw [filter_cons_of_pos (by simpa using this)]
      by_cases found : ψ = χ
      · subst found
        simp [removed]
      · rw [lookup_cons_ne found, ih, lookup_cons_ne found]

section Replace

variable {φ : Local} {v : Value}

lemma Good.resolve_replace (good : Good o pending s) {m} (made : s.merge? φ = some m)
    (resolved : s.resolve v = v) (other : v ≠ .var φ) (x : Value) :
    (s.replace φ v).resolve x = if s.resolve x = .var φ then v else s.resolve x :=
  good.grounded.resolve_cons (good.unreplaced φ m made) resolved other x

lemma Good.replace_reads (good : Good o pending s) {m} (made : s.merge? φ = some m)
    (idle : φ ∉ s.growing) (outside : φ ∉ pending) (resolved : s.resolve v = v)
    (other : v ≠ .var φ) : Reads o pending s (s.replace φ v) := by
  have later : Later s (s.replace φ v) := {
    locals := Nat.le_refl _
    same := fun x y same => by
      rw [good.resolve_replace made resolved other, good.resolve_replace made resolved other, same]
    plain := fun l plain => by
      have ne : l ≠ φ := by
        rintro rfl
        rw [plain.unmerged] at made
        cases made
      refine ⟨plain.bound, ?_, ?_⟩
      · rw [merge?_replace, if_neg ne, plain.unmerged]
      · rw [replace, lookup_cons_ne ne, plain.unreplaced]
    entered := fun b r w found => ⟨w, found, rfl⟩
    filled := fun b h => h
    closed := fun b h => h
    written := fun b _ => rfl
    makes := fun ψ m made => by
      rw [merge?_replace] at made
      split at made
      · cases made
      · exact .inr ⟨m, made, rfl, rfl⟩ }
  refine ⟨later, fun _ => rfl, fun _ => rfl, rfl, fun ψ kept => ?_, .of_start?_eq fun _ _ => rfl⟩
  rw [merge?_replace, if_neg]
  rintro rfl
  exact kept.elim outside idle

/-- A complete phi may be replaced by the one value that it merges. -/
lemma Good.replace (good : Good o pending s) {m} (made : s.merge? φ = some m)
    (complete : Complete o s m) (idle : φ ∉ s.growing) (outside : φ ∉ pending)
    (resolved : s.resolve v = v) (other : v ≠ .var φ)
    (one : ∀ p w, (p, w) ∈ m.operands → s.resolve w = v ∨ s.resolve w = .var φ)
    (bound : s.Bound v) : Good o pending (s.replace φ v) := by
  have resolve := good.resolve_replace made resolved other
  have later := (good.replace_reads made idle outside resolved other).toLater
  have merge (ψ : Local) (m' : Merge) (made' : (s.replace φ v).merge? ψ = some m') :
      ψ ≠ φ ∧ s.merge? ψ = some m' := by
    rw [merge?_replace] at made'
    split at made'
    · cases made'
    · exact ⟨‹_›, made'⟩
  have stays {x : Value} {ψ : Local} (ne : ψ ≠ φ) (isPhi : s.resolve x = .var ψ) :
      (s.replace φ v).resolve x = .var ψ := by
    rw [resolve, isPhi, if_neg]
    exact fun same => ne (Value.var.inj same)
  refine {
    size := good.size
    grounded := good.grounded.cons (good.unreplaced φ m made) resolved other
    distinct := good.distinct.sublist (filter_sublist.map _)
    unreplaced := fun ψ m' made' => ?_
    bound := fun ψ m' made' => good.bound ψ m' (merge ψ m' made').2
    replaced_bound := fun ψ w found => ?_
    entry_closed := good.entry_closed
    closed := good.closed
    plain := fun b r l written => later.plain l (good.plain b r l written)
    entered := fun b r x found => ?_
    entered_bound := fun b r x found l held => ?_
    merged := fun ψ m' made' => ?_
    stage := fun ψ m' made' => ?_
    waiting := fun b r ψ mem => ?_
    waiting_distinct := good.waiting_distinct
    growing := fun ψ mem => ?_
    pending := fun ψ mem => ?_ }
  · obtain ⟨ne, known⟩ := merge ψ m' made'
    rw [Registers.replace, lookup_cons_ne ne]
    exact good.unreplaced ψ m' known
  · by_cases same : ψ = φ
    · exact same ▸ good.bound φ m made
    · rw [Registers.replace, lookup_cons_ne same] at found
      exact good.replaced_bound ψ w found
  · cases good.entered b r x found with
    | @phi ψ m' made' here merges isPhi =>
      by_cases same : ψ = φ
      · -- the phi itself: its operands now all stand for the value
        subst same
        rw [made] at made'
        cases made'
        subst here merges
        refine .passed (good.merged ψ m made).inner complete.closed fun p source => ?_
        obtain ⟨⟨p, w⟩, mem, rfl⟩ := mem_map.1 (complete.sources ▸ source)
        obtain ⟨-, -, agrees⟩ := (good.merged ψ m made).operands p w mem
        refine (later.agrees rfl agrees).congr ?_
        rw [resolve, resolve, isPhi, if_pos rfl]
        rcases one p w mem with eq | eq
        · rw [eq, if_neg other]
        · rw [eq, if_pos rfl]
      · refine .phi ?_ here merges (stays same isPhi)
        rw [merge?_replace, if_neg same]
        exact made'
    | passed inner closed agree =>
      exact .passed inner closed fun p source => later.agrees rfl (agree p source)
    | unset start isZero =>
      refine .unset start ?_
      rw [resolve, isZero, if_neg]
      exact Value.noConfusion
  · rw [resolve] at held
    split at held
    · exact bound l (resolved.trans held)
    · exact good.entered_bound b r x found l held
  · obtain ⟨ne, known⟩ := merge ψ m' made'
    have merged := good.merged ψ m' known
    obtain ⟨x, found, isPhi⟩ := merged.recorded
    refine ⟨merged.inside, merged.inner, ⟨x, found, stays ne isPhi⟩, fun p w mem => ?_⟩
    obtain ⟨source, filled, agrees⟩ := merged.operands p w mem
    exact ⟨source, filled, later.agrees rfl agrees⟩
  · exact (good.stage ψ m' (merge ψ m' made').2).later (fun mem => .growing mem) .pending
      (fun bare mem => .waiting bare mem) id
  · obtain ⟨known, idle', outside', isOpen⟩ := good.waiting b r ψ mem
    refine ⟨?_, idle', outside', isOpen⟩
    rw [merge?_replace, if_neg, known]
    rintro rfl
    -- a phi that waits has an open block, a complete one a closed block
    rw [made] at known
    have closed := complete.closed
    simp_all [table]
  · obtain ⟨m', known⟩ := good.growing ψ mem
    refine ⟨m', ?_⟩
    rw [merge?_replace, if_neg, known]
    rintro rfl
    exact idle mem
  · obtain ⟨idle', m', known, bare⟩ := good.pending ψ mem
    refine ⟨idle', m', ?_, bare⟩
    rw [merge?_replace, if_neg, known]
    rintro rfl
    exact outside mem

end Replace

/-- A phi that may be looked at for simplification. -/
structure Ready (o : Outline) (pending : List Local) (s : Registers) (φ : Local) : Prop where
  complete : ∀ m, s.merge? φ = some m → Complete o s m
  idle : φ ∉ s.growing
  outside : φ ∉ pending

/-- What simplifying a phi gives. -/
structure Simplified (o : Outline) (pending : List Local) (s : Registers) (φ : Local)
    (out : Value × Registers) : Prop where
  good : Good o pending out.2
  reads : Reads o pending s out.2
  fewer : ∀ ψ m, out.2.merge? ψ = some m → s.merge? ψ = some m
  length : out.2.merges.length ≤ s.merges.length
  same : out.2.resolve out.1 = out.2.resolve (.var φ)
  traced : Traced o (.simplify φ) s (some out.1) out.2

lemma Good.simplified_self (good : Good o pending s) (φ : Local) {v}
    (same : s.resolve v = s.resolve (.var φ)) (run : Runs o (.simplify φ) s [] (some v) s) :
    Simplified o pending s φ (v, s) :=
  ⟨good, .refl _ s, fun _ _ h => h, Nat.le_refl _, same, [], run, (Later.refl s).tracked⟩

/-- Phis that read a phi are finished, since only those have operands. -/
lemma Good.ready_of_reader (good : Good o pending s) {t φ ψ}
    (reader : ψ ∈ s.readers φ) (good' : Good o pending t) (growing : t.growing = s.growing)
    (fewer : ∀ ψ m, t.merge? ψ = some m → s.merge? ψ = some m) : Ready o pending t ψ := by
  simp only [readers, mem_map, mem_filter, Bool.and_eq_true, Bool.not_eq_true',
    Prod.exists, exists_and_right, exists_eq_right] at reader
  obtain ⟨m₀, mem, idle, reads⟩ := reader
  have known : s.merge? ψ = some m₀ := (lookup_eq_some_iff_mem good.distinct).2 mem
  have idle : ψ ∉ t.growing := by rw [growing]; simpa using idle
  have operands : ∀ m, t.merge? ψ = some m → m.operands ≠ [] := by
    intro m made bare
    have := fewer ψ m made
    rw [known] at this
    cases this
    simp [bare] at reads
  refine ⟨fun m made => ?_, idle, fun mem => ?_⟩
  · cases good'.stage ψ m made with
    | growing mem => exact absurd mem idle
    | pending bare _ | waiting bare _ => exact absurd bare (operands m made)
    | complete complete => exact complete
  · obtain ⟨-, m, made, bare⟩ := good'.pending ψ mem
    exact operands m made bare

lemma simplifyWith_spec {fuel φ} (good : Good o pending s)
    (ready : Ready o pending s φ) (enough : s.merges.length < fuel) :
    Simplified o pending s φ (simplifyWith fuel φ s) := by
  induction fuel generalizing s φ with
  | zero => exact absurd enough (Nat.not_lt_zero _)
  | succ fuel ih =>
    cases made : s.merge? φ with
    | none =>
      simp only [simplifyWith, made]
      exact good.simplified_self φ (good.grounded.resolve_resolve _) (.gone made)
    | some m =>
      have replaced (v : Value) (resolved : s.resolve v = v) (other : v ≠ .var φ)
          (one : ∀ p w, (p, w) ∈ m.operands → s.resolve w = v ∨ s.resolve w = .var φ)
          (bound : s.Bound v) (few : (s.incoming φ m).length ≤ 1)
          (value : (s.incoming φ m).headD .zero = v) :
          Simplified o pending s φ (v, ((s.replace φ v).readers φ).foldl
            (fun s reader => (simplifyWith fuel reader s).2) (s.replace φ v)) := by
        have good' := good.replace made (ready.complete m made) ready.idle ready.outside
          resolved other one bound
        have reads := good.replace_reads made ready.idle ready.outside resolved other
        have phi : s.resolve (.var φ) = .var φ :=
          Substitution.resolve_of_lookup_none (good.unreplaced φ m made)
        have same : (s.replace φ v).resolve v = (s.replace φ v).resolve (.var φ) := by
          rw [good.resolve_replace made resolved other,
            good.resolve_replace made resolved other, resolved, if_neg other, phi, if_pos rfl]
        have shorter : (s.replace φ v).merges.length < s.merges.length :=
          length_filter_lt_length_iff_exists.2 ⟨_, mem_of_lookup made, by simp⟩
        -- readers are simplified one after the other in states that only lose phis
        have all (rs : List Local) (among : rs ⊆ (s.replace φ v).readers φ) {t : Registers}
            (good'' : Good o pending t) (reads' : Reads o pending (s.replace φ v) t)
            (fewer : ∀ ψ m, t.merge? ψ = some m → (s.replace φ v).merge? ψ = some m)
            (short : t.merges.length ≤ (s.replace φ v).merges.length) :
            let f := rs.foldl (fun s reader => (simplifyWith fuel reader s).2) t
            Good o pending f ∧ Reads o pending (s.replace φ v) f ∧
              (∀ ψ m, f.merge? ψ = some m → (s.replace φ v).merge? ψ = some m) ∧
              f.merges.length ≤ (s.replace φ v).merges.length ∧
              Traced o (.all (rs.map .simplify)) t none f := by
          induction rs generalizing t with
          | nil => exact ⟨good'', reads', fewer, short, [], .nil, (Later.refl t).tracked⟩
          | cons ψ rs ih' =>
            have ready' := good'.ready_of_reader (among mem_cons_self) good''
              reads'.growing fewer
            have step := ih good'' ready' (by omega)
            obtain ⟨good, reads, fewer, short, ts', later, tracked'⟩ := ih'
              (fun χ member => among (mem_cons_of_mem _ member)) step.good (reads'.trans step.reads)
              (fun χ m' made' => fewer χ m' (step.fewer χ m' made')) (Nat.le_trans step.length short)
            obtain ⟨ts, run, tracked⟩ := step.traced
            exact ⟨good, reads, fewer, short, _, .cons run later, tracked.append step.good tracked'⟩
        obtain ⟨good'', reads', fewer, short, ts, run, tracked⟩ :=
          all _ (Subset.refl _) good' (.refl _ _) (fun _ _ h => h) (Nat.le_refl _)
        refine ⟨good'', reads.trans reads', fun ψ m' made' => ?_,
          Nat.le_trans short (Nat.le_of_lt shorter), reads'.same _ _ same, _,
          .replace made few value rfl run, reads.toLater.tracked.append good' tracked⟩
        have := fewer ψ m' made'
        rw [merge?_replace] at this
        split at this
        · cases this
        · exact this
      simp only [simplifyWith, made]
      split
      · rename_i none
        refine replaced .zero rfl Value.noConfusion (fun p w member => .inr ?_) bound_zero
          (by simp [none]) (by rw [none]; rfl)
        by_contra other
        have : s.resolve w ∈ s.incoming φ m := mem_incoming.2 ⟨⟨p, w, member, rfl⟩, other⟩
        simp [none] at this
      · rename_i v single
        have mem : v ∈ s.incoming φ m := by simp [single]
        obtain ⟨⟨p₀, w₀, merged, value⟩, other⟩ := mem_incoming.1 mem
        have resolved : s.resolve v = v := value ▸ good.grounded.resolve_resolve w₀
        refine replaced v resolved other (fun p w member => ?_) (fun l held => ?_) (by simp [single])
          (by rw [single]; rfl)
        · by_cases self : s.resolve w = .var φ
          · exact .inr self
          · have : s.resolve w ∈ s.incoming φ m := mem_incoming.2 ⟨⟨p, w, member, rfl⟩, self⟩
            exact .inl (by simpa [single] using this)
        · refine good.agrees_bound ((good.merged φ m made).operands p₀ w₀ merged).2.2 l ?_
          exact value.trans (resolved.symm.trans held)
      · rename_i none single
        refine good.simplified_self φ rfl (.keep made ?_)
        rcases several : s.incoming φ m with _ | ⟨v, _ | ⟨w, vs⟩⟩
        · exact absurd several none
        · exact absurd several (single v)
        · simp

end Restack.Lifting.Registers
