/-
# Where a switch goes

A dispatch has one of three forms (`switchCode_forms`): a table with a target for each key of
its range, a search among ascending keys, or a jump where there are no cases. Whichever was
chosen, control goes to the first case of the key or else to the default (`switch_exact`).
-/
import Mathlib.Algebra.Group.Int.Defs
import Mathlib.Algebra.Group.Nat.Defs
import Restack.Lowering.Code
import Restack.Proofs.Lookup
import Restack.Proofs.Outcome
import Restack.Proofs.Stack.Machine

namespace Restack.Lowering

open List Outcome Ir
open Stack (Instruction Sense Stands Steps)

/-- The target of a switch for a key. -/
def caseFor (cases : List (Int32 × BlockId)) (default : BlockId) (k : Int32) : BlockId :=
  (cases.lookup k).getD default

private lemma lookup_firstCases_from (k : Int32) (kept cases : List (Int32 × BlockId)) :
    (cases.foldl (fun kept c => if kept.any (·.1 == c.1) then kept else kept ++ [c]) kept).lookup k =
      (kept.lookup k).or (cases.lookup k) := by
  induction cases generalizing kept with
  | nil => simp
  | cons c cases ih =>
    obtain ⟨k', b⟩ := c
    simp only [foldl_cons]
    rw [ih]
    by_cases same : k = k'
    · subst same
      split
      · rename_i known
        have : k ∈ kept.map (·.1) := by
          obtain ⟨p, mem, eq⟩ := any_eq_true.1 known
          exact mem_map.2 ⟨p, mem, by simpa using eq⟩
        obtain ⟨b', found⟩ := Lookup.lookup_isSome_of_mem this
        simp [found]
      · simp [lookup_append]
    · rw [Lookup.lookup_cons_ne same]
      split
      · rfl
      · rw [lookup_append, Lookup.lookup_cons_ne same]
        simp

lemma lookup_firstCases (cases : List (Int32 × BlockId)) (k : Int32) :
    (firstCases cases).lookup k = cases.lookup k := by
  simp [firstCases, lookup_firstCases_from]

lemma firstCases_distinct (cases : List (Int32 × BlockId)) : ((firstCases cases).map (·.1)).Nodup := by
  suffices ∀ kept : List (Int32 × BlockId), (kept.map (·.1)).Nodup →
      ((cases.foldl (fun kept c => if kept.any (·.1 == c.1) then kept else kept ++ [c]) kept).map
        (·.1)).Nodup from this [] nodup_nil
  induction cases with
  | nil => exact fun kept distinct => distinct
  | cons c cases ih =>
    intro kept distinct
    refine ih _ ?_
    dsimp only
    split
    · exact distinct
    · rename_i new
      simp only [any_eq_true, beq_iff_eq, not_exists, not_and] at new
      rw [map_append, nodup_append]
      refine ⟨distinct, by simp, ?_⟩
      rintro k mem k' last rfl
      obtain ⟨p, there, rfl⟩ := mem_map.1 mem
      simp only [map_cons, map_nil, mem_singleton] at last
      exact new p there last

lemma lookup_sortedCases (cases : List (Int32 × BlockId)) (k : Int32) :
    (sortedCases cases).lookup k = cases.lookup k := by
  rw [sortedCases, Lookup.lookup_perm (firstCases_distinct cases) (mergeSort_perm _ _), lookup_firstCases]

lemma sortedCases_ascending (cases : List (Int32 × BlockId)) :
    (sortedCases cases).Pairwise fun a b => a.1 ≤ b.1 := by
  have := @pairwise_mergeSort _ (fun a b : Int32 × BlockId => decide (a.1 ≤ b.1))
    (fun a b c ab bc => by simp only [decide_eq_true_eq] at *; exact Int32.le_trans ab bc)
    (fun a b => by simpa using Int32.le_total a.1 b.1) (firstCases cases)
  simpa [sortedCases] using this

lemma sortedCases_bounds {cases first last} (head : (sortedCases cases).head? = some first)
    (final : (sortedCases cases).getLast? = some last) {c}
    (mem : c ∈ sortedCases cases) : first.1 ≤ c.1 ∧ c.1 ≤ last.1 := by
  have ascending := sortedCases_ascending cases
  constructor
  · obtain ⟨rest, whole⟩ := head?_eq_some_iff.1 head
    rw [whole] at ascending mem
    rcases mem_cons.1 mem with rfl | later
    · exact Int32.le_refl _
    · exact (pairwise_cons.1 ascending).1 c later
  · obtain ⟨front, whole⟩ := getLast?_eq_some_iff.1 final
    rw [whole] at ascending mem
    rcases mem_append.1 mem with earlier | here
    · exact (pairwise_append.1 ascending).2.2 c earlier last (by simp)
    · rw [mem_singleton.1 here]
      exact Int32.le_refl _

lemma sortedCases_subset {cases c} (mem : c ∈ sortedCases cases) : c ∈ cases := by
  have first : ∀ d ∈ firstCases cases, d ∈ cases := by
    refine foldlRecOn (motive := fun kept => ∀ d ∈ kept, d ∈ cases) cases _ (by simp) ?_
    intro kept old c mem
    split
    · exact old
    · exact forall_mem_append.2 ⟨old, forall_mem_singleton.2 mem⟩
  exact first c (by simpa [sortedCases] using mem)

lemma switchCode_fails {f} {Q : Cause → Prop} {cases : List (Int32 × BlockId)} {default}
    (targets : ∀ b ∈ cases.map (·.2) ++ [default], FailsOnly Q (f.target b)) :
    FailsOnly Q (switchCode f cases default) := by
  have sorted {c : Int32 × BlockId} (mem : c ∈ sortedCases cases) : FailsOnly Q (f.target c.2) :=
    targets c.2 (mem_append_left _ (mem_map_of_mem (sortedCases_subset mem)))
  have other := targets default (mem_append_right _ mem_cons_self)
  refine other.bind fun label _ => ?_
  dsimp only
  split
  · split
    · refine .bind (.mapM fun key _ => ?_) fun _ _ => .ok _
      split
      · rename_i b found
        exact sorted (Lookup.mem_of_lookup found)
      · exact .ok _
    · exact .bind (.mapM fun c mem => sorted mem) fun _ _ => .ok _
  · exact .ok _

lemma add_ofNat (first : Int32) (i : Nat) : first + Int32.ofNat i = .ofInt (first.toInt + i) := by
  rw [Int32.ofInt_add, Int32.ofInt_toInt, ← Int32.ofInt_eq_ofNat]

lemma keysFrom_getElem? {first k count} (above : first ≤ k) (inside : (k.toInt - first.toInt).toNat < count) :
    (keysFrom first count)[(k.toInt - first.toInt).toNat]? = some k := by
  have order : first.toInt ≤ k.toInt := Int32.le_iff_toInt_le.1 above
  rw [keysFrom, getElem?_map, getElem?_range inside]
  simp only [Option.map_some]
  rw [add_ofNat, show first.toInt + ((k.toInt - first.toInt).toNat : Int) = k.toInt by omega,
    Int32.ofInt_toInt]

private lemma forall₂_getElem? {α β : Type} {R xs} {ys : List β}
    (related : List.Forall₂ R xs ys) {i : Nat} {x : α} (found : xs[i]? = some x) :
    ∃ y, ys[i]? = some y ∧ R x y := by
  induction related generalizing i with
  | nil => simp at found
  | cons here _ ih =>
    cases i with
    | zero =>
      simp only [getElem?_cons_zero, Option.some.injEq] at found
      exact ⟨_, rfl, found ▸ here⟩
    | succ i => exact ih (by simpa using found)

private lemma lookup_zip_targets {f : Frame} {sorted : List (Int32 × BlockId)}
    {targets : List Stack.Label}
    (related : List.Forall₂ (fun c l => f.target c.2 = .ok l) sorted targets) (k : Int32) :
    match sorted.lookup k with
    | some b => ∃ l, ((sorted.map (·.1)).zip targets).lookup k = some l ∧ f.target b = .ok l
    | none => ((sorted.map (·.1)).zip targets).lookup k = none := by
  induction related with
  | nil => rfl
  | @cons c l sorted targets here _ ih =>
    obtain ⟨k', b⟩ := c
    by_cases same : k = k'
    · subst same
      simp only [map_cons, zip_cons_cons, lookup_cons_self]
      exact ⟨l, rfl, here⟩
    · simp only [map_cons, zip_cons_cons, Lookup.lookup_cons_ne same]
      exact ih

/-- The three forms of a dispatch, and what their targets are. -/
lemma switchCode_forms {f} {cases : List (Int32 × BlockId)} {default}
    {code : List Instruction} (made : switchCode f cases default = .ok code) :
    ∃ fallback, f.target default = .ok fallback ∧
      ((∃ first last targets, (sortedCases cases).head? = some first ∧
          (sortedCases cases).getLast? = some last ∧ code = [.tableSwitch first.1 last.1 fallback targets] ∧
          List.Forall₂ (fun k l => f.target (caseFor cases default k) = .ok l)
            (keysFrom first.1 (last.1.toInt - first.1.toInt + 1).toNat) targets) ∨
        (∃ targets, code = [.lookupSwitch fallback ((sortedCases cases).map (·.1)) targets] ∧
          List.Forall₂ (fun c l => f.target c.2 = .ok l) (sortedCases cases) targets) ∨
        (sortedCases cases = [] ∧ code = [.simple .pop, .jump .goto fallback])) := by
  obtain ⟨fallback, known, made⟩ := bind_ok.1 made
  refine ⟨fallback, known, ?_⟩
  simp only at made
  split at made
  · rename_i first _ last _ head final
    split at made
    · obtain ⟨targets, each, made⟩ := bind_ok.1 made
      cases made
      refine .inl ⟨_, _, targets, head, final, rfl, (mapM_ok.1 each).imp fun k l entry => ?_⟩
      rw [caseFor, ← lookup_sortedCases]
      split at entry
      · rename_i hit; rw [hit]; exact entry
      · rename_i miss; rw [miss]; exact known.trans entry
    · obtain ⟨targets, each, made⟩ := bind_ok.1 made
      cases made
      exact .inr (.inl ⟨targets, rfl, mapM_ok.1 each⟩)
  · rename_i absent
    cases made
    refine .inr (.inr ⟨?_, rfl⟩)
    cases all : sortedCases cases with
    | nil => rfl
    | cons c rest =>
      obtain ⟨l, final⟩ : ∃ l, (c :: rest).getLast? = some l :=
        ⟨_, getLast?_eq_some_getLast (by simp)⟩
      exact absurd (by rw [all, final]) (absent c.1 c.2 l.1 l.2 (by rw [all]; rfl))

/-- A dispatch is one switch instruction that goes to the case of the key, or,
when there are no cases, drops the key and jumps to the default. -/
lemma switchCode_spec {f cases default code} (made : switchCode f cases default = .ok code) :
    (∃ i, code = [i] ∧ ∀ k, ∃ l, f.target (caseFor cases default k) = .ok l ∧
        Sense.dispatch k i = some l) ∨ (∃ l, code = [.simple .pop, .jump .goto l] ∧
        ∀ k, f.target (caseFor cases default k) = .ok l) := by
  have choose : ∀ k, caseFor cases default k = ((sortedCases cases).lookup k).getD default := by
    intro k
    rw [lookup_sortedCases, caseFor]
  obtain ⟨fallback, known, ⟨first, last, targets, head, final, rfl, related⟩ |
    ⟨targets, rfl, related⟩ | ⟨empty, rfl⟩⟩ := switchCode_forms made
  · refine .inl ⟨_, rfl, fun k => ?_⟩
    by_cases inside : first.1 ≤ k ∧ k ≤ last.1
    · have order := Int32.le_iff_toInt_le.1 inside.1
      have order' := Int32.le_iff_toInt_le.1 inside.2
      obtain ⟨l, found, entry⟩ := forall₂_getElem? related (keysFrom_getElem? inside.1 (by omega))
      exact ⟨l, entry, by simp [Sense.dispatch, inside, found]⟩
    · have outside : (sortedCases cases).lookup k = none := by
        rw [Lookup.lookup_eq_none]
        intro mem
        obtain ⟨c, there, rfl⟩ := mem_map.1 mem
        exact inside (sortedCases_bounds head final there)
      exact ⟨fallback, by rw [choose k, outside]; exact known, by simp [Sense.dispatch, inside]⟩
  · refine .inl ⟨_, rfl, fun k => ?_⟩
    have zipped := lookup_zip_targets related k
    rw [choose k]
    split at zipped
    · rename_i hit
      obtain ⟨l, found, entry⟩ := zipped
      exact ⟨l, by simpa [hit] using entry, by simp [Sense.dispatch, found]⟩
    · rename_i miss
      exact ⟨fallback, by simpa [miss] using known, by simp [Sense.dispatch, zipped]⟩
  · exact .inr ⟨fallback, rfl, fun k => by rw [choose k, empty]; exact known⟩

/-! ## Running a dispatch -/

/-- The positions of a stretch of code. -/
def Within (pc length : Nat) (p : Nat) : Prop := pc ≤ p ∧ p < pc + length

lemma switchCode_run {V} (S : Sense V) {f cases default code body pc}
    (made : switchCode f cases default = .ok code) (stands : Stands body pc code) (v : V)
    (stack : List V) (cells : Nat → V) : ∃ l, f.target (caseFor cases default (S.key v)) = .ok l ∧
      Steps S body (Within pc code.length) ⟨pc, v :: stack, cells⟩ (Sense.jump body l stack cells) := by
  rcases switchCode_spec made with ⟨i, rfl, goes⟩ | ⟨l, rfl, goes⟩
  · obtain ⟨l, target, dispatched⟩ := goes (S.key v)
    exact ⟨l, target, .single ⟨Nat.le_refl pc, by simp⟩ (S.step_dispatch stands.head dispatched)⟩
  · refine ⟨l, goes (S.key v), .head ⟨Nat.le_refl pc, by simp⟩ (S.step_pop stands.head)
      (.single ⟨Nat.le_succ pc, by simp⟩ ?_)⟩
    exact S.step_goto stands.tail.head

/-! ## The instruction and its numbers -/

/-- A table has a target for each key of its range, a search has ascending keys, and anything else
only jumps. -/
def IsDispatch : List Instruction → Prop
  | [.tableSwitch min max _ targets] => (targets.length : Int) = max.toInt - min.toInt + 1
  | [.lookupSwitch _ keys targets] => keys.Pairwise (· < ·) ∧ keys.length = targets.length
  | code => ∃ l, code = [.simple .pop, .jump .goto l]

lemma sortedCases_distinct (cases : List (Int32 × BlockId)) : ((sortedCases cases).map (·.1)).Nodup :=
  ((mergeSort_perm _ _).map _).nodup_iff.2 (firstCases_distinct cases)

lemma sortedCases_ends {cases first last} (head : (sortedCases cases).head? = some first)
    (final : (sortedCases cases).getLast? = some last) : first.1.toInt ≤ last.1.toInt :=
  Int32.le_iff_toInt_le.1 (sortedCases_bounds head final (mem_of_mem_head? head)).2

lemma switchCode_isDispatch {f cases default code} (made : switchCode f cases default = .ok code) :
    IsDispatch code := by
  obtain ⟨fallback, -, ⟨first, last, targets, head, final, rfl, related⟩ |
    ⟨targets, rfl, related⟩ | ⟨-, rfl⟩⟩ := switchCode_forms made
  · have order := sortedCases_ends head final
    have length := related.length_eq
    rw [keysFrom, length_map, length_range] at length
    rw [IsDispatch]
    omega
  · refine ⟨?_, by rw [length_map]; exact related.length_eq⟩
    rw [pairwise_map]
    have distinct := pairwise_map.1 (sortedCases_distinct cases)
    exact ((sortedCases_ascending cases).and distinct).imp fun ⟨le, ne⟩ =>
      Int32.lt_of_le_of_ne le ne
  · exact ⟨fallback, rfl⟩

/-- What is computed for a switch fits: the length of its keys' range and the bound that this is
compared with in 64 bits, and the keys of a table, counted up from the first, in 32. -/
def NumbersFit (cases : List (Int32 × BlockId)) : Prop :=
  2 * (sortedCases cases).length + 10 < 2 ^ 63 ∧ ∀ first last,
    (sortedCases cases).head? = some first → (sortedCases cases).getLast? = some last →
      let length := last.1.toInt - first.1.toInt + 1
      0 < length ∧ length < 2 ^ 63 ∧ (keysFrom first.1 length.toNat).map Int32.toInt =
        (List.range length.toNat).map fun i : Nat => first.1.toInt + i

lemma numbersFit (cases : List (Int32 × BlockId)) : NumbersFit cases := by
  constructor
  · -- as many keys as there are numbers of 32 bits at most
    let code (k : Int32) : Nat := (k.toInt + 2 ^ 31).toNat
    have bound (k : Int32) : -2 ^ 31 ≤ k.toInt ∧ k.toInt < 2 ^ 31 := ⟨k.le_toInt, k.toInt_lt⟩
    have distinct : (((sortedCases cases).map (·.1)).map code).Nodup := by
      refine (sortedCases_distinct cases).map fun a b same => Int32.toInt_inj.1 ?_
      have := bound a
      have := bound b
      simp only [code] at same
      omega
    have below : ((sortedCases cases).map (·.1)).map code ⊆ range (2 ^ 32) := by
      intro n mem
      obtain ⟨k, -, rfl⟩ := mem_map.1 mem
      have := bound k
      exact mem_range.2 (by simp only [code]; omega)
    have := (subperm_of_subset distinct below).length_le
    rw [length_map, length_map, length_range] at this
    omega
  · intro first last head final
    have order := sortedCases_ends head final
    have low := first.1.le_toInt
    have high := last.1.toInt_lt
    refine ⟨by omega, by omega, ?_⟩
    rw [keysFrom, map_map]
    refine map_congr_left fun i mem => ?_
    rw [mem_range] at mem
    rw [Function.comp_apply, add_ofNat, Int32.toInt_ofInt_of_le (by omega) (by omega)]

/-- Where the targets are known a switch has code, whatever the order and the repetitions of its
cases. It is a well formed dispatch, its numbers fit, and from wherever it stands control
goes to the first case of the key or else to the default. -/
theorem switch_exact (f : Frame) (cases : List (Int32 × BlockId)) (default : BlockId)
    (known : ∀ b ∈ default :: cases.map (·.2), (f.position? b).isSome = true) :
    ∃ code, switchCode f cases default = .ok code ∧ IsDispatch code ∧ NumbersFit cases ∧
      ∀ (V : Type) (S : Sense V) (body : List Instruction) (pc : Nat), Stands body pc code →
        ∀ (v : V) (stack : List V) (cells : Nat → V), ∃ n,
          f.position? (caseFor cases default (S.key v)) = some n ∧
            Steps S body (Within pc code.length) ⟨pc, v :: stack, cells⟩
              (Sense.jump body (startLabel n) stack cells) := by
  have target (b : BlockId) (member : b ∈ default :: cases.map (·.2)) :
      ∃ n, f.position? b = some n ∧ f.target b = .ok (startLabel n) := by
    obtain ⟨n, found⟩ := Option.isSome_iff_exists.1 (known b member)
    exact ⟨n, found, by rw [Frame.target, found]⟩
  have case_ (k : Int32) : caseFor cases default k ∈ default :: cases.map (·.2) := by
    rw [caseFor]
    cases found : cases.lookup k with
    | none => exact mem_cons_self
    | some b => exact mem_cons_of_mem _ (mem_map.2 ⟨_, Lookup.mem_of_lookup found, rfl⟩)
  have succeeds := switchCode_fails (f := f) (Q := fun _ => False) fun b member e failed => by
    obtain ⟨n, -, label⟩ := target b (by simpa [or_comm] using member)
    rw [label] at failed
    cases failed
  cases made : switchCode f cases default with
  | error e => exact (succeeds e made).elim
  | ok code =>
    refine ⟨code, rfl, switchCode_isDispatch made, numbersFit cases,
      fun V S body pc stands v stack cells => ?_⟩
    obtain ⟨l, goes, run⟩ := switchCode_run S made stands v stack cells
    obtain ⟨n, found, label⟩ := target _ (case_ (S.key v))
    cases goes.symm.trans label
    exact ⟨n, found, run⟩

/-- Keys at both ends of the range, the last one twice. -/
def farKeys : List (Int32 × BlockId) :=
  [(2147483647, ⟨1⟩), (-2147483648, ⟨2⟩), (2147483647, ⟨0⟩)]

def threeBlocks : Frame where
  method := ⟨"", "", "", true, #[], "V", #[], [], ⟨0⟩, [], #[]⟩
  slots := #[]
  positions := #[some 0, some 1, some 2]

theorem farKeys_exact : (∀ b ∈ (⟨0⟩ : BlockId) :: farKeys.map (·.2),
      (threeBlocks.position? b).isSome = true) ∧
    caseFor farKeys ⟨0⟩ 2147483647 = ⟨1⟩ ∧ ∃ code, switchCode threeBlocks farKeys ⟨0⟩ = .ok code ∧
      IsDispatch code ∧ NumbersFit farKeys := by
  have known : ∀ b ∈ (⟨0⟩ : BlockId) :: farKeys.map (·.2), (threeBlocks.position? b).isSome = true := by
    decide
  obtain ⟨code, made, dispatch, fit, -⟩ := switch_exact threeBlocks farKeys ⟨0⟩ known
  exact ⟨known, by decide, code, made, dispatch, fit⟩

end Restack.Lowering
