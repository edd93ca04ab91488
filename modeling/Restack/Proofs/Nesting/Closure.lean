/-
# The records of a class are the closure of its nesting

The records of a class are those that two walks and its super types give, the first one of
each name, sorted by name. `Nested` says which classes they are for, without numbers, walks or
an order. The names recorded are those of these classes, strictly ascending
(`records_are_closure`), whatever cycles and contradictions the links have.
-/
import Mathlib.Data.List.TakeWhile
import Mathlib.Data.String.Basic
import Restack.Proofs.Nesting.Walks

namespace Restack.Nesting

open List

open Relation (ReflTransGen TransGen)
open Register (Program)
open Signature (internalName)
open Stack (InnerClass)

/-! ## The first record of each name -/

section First

variable {records : List InnerClass} {x : InnerClass}

/-- Keeps a record unless one of its name is there. -/
def keepFirst (kept : List InnerClass) (x : InnerClass) : List InnerClass :=
  if kept.any (·.name == x.name) then kept else kept ++ [x]

lemma keepFirst_find? (kept records : List InnerClass) (x : InnerClass) (n : String) :
    (keepFirst kept x ++ records).find? (·.name == n) = (kept ++ x :: records).find? (·.name == n) := by
  rw [keepFirst]
  split
  · rename_i there
    rw [find?_append, find?_append, find?_cons]
    split
    · rename_i same
      -- a record of the name was kept before
      obtain ⟨y, among, named⟩ := any_eq_true.1 there
      have some_ : (kept.find? (·.name == n)).isSome := by
        rw [find?_isSome]
        refine ⟨y, among, ?_⟩
        rw [beq_iff_eq] at named same ⊢
        exact named.trans same
      obtain ⟨z, found⟩ := Option.isSome_iff_exists.1 some_
      rw [found]
      rfl
    · rfl
  · rw [append_assoc, singleton_append]

lemma keepFirst_nodup {kept : List InnerClass} (nodup : (kept.map (·.name)).Nodup) (x : InnerClass) :
    ((keepFirst kept x).map (·.name)).Nodup := by
  rw [keepFirst]
  split
  · exact nodup
  · rename_i fresh
    rw [map_append, nodup_append]
    refine ⟨nodup, nodup_singleton _, fun n mem n' last same => fresh ?_⟩
    obtain ⟨y, among, rfl⟩ := mem_map.1 mem
    cases mem_singleton.1 last
    exact any_eq_true.2 ⟨y, among, by simpa using same⟩

lemma firstOfEach_spec (records : List InnerClass) : ((firstOfEach records).map (·.name)).Nodup ∧
      ∀ n, (firstOfEach records).find? (·.name == n) = records.find? (·.name == n) := by
  have walk (records kept : List InnerClass) (nodup : (kept.map (·.name)).Nodup) :
      ((records.foldl keepFirst kept).map (·.name)).Nodup ∧
        ∀ n, (records.foldl keepFirst kept).find? (·.name == n) =
          (kept ++ records).find? (·.name == n) := by
    induction records generalizing kept with
    | nil => exact ⟨nodup, fun n => by simp⟩
    | cons x records ih =>
      obtain ⟨distinct, same⟩ := ih (keepFirst kept x) (keepFirst_nodup nodup x)
      exact ⟨distinct, fun n => (same n).trans (keepFirst_find? kept records x n)⟩
  exact walk records [] nodup_nil

lemma mem_firstOfEach : x ∈ firstOfEach records ↔ records.find? (·.name == x.name) = some x := by
  obtain ⟨nodup, same⟩ := firstOfEach_spec records
  rw [← same]
  constructor
  · intro mem
    have some_ : ((firstOfEach records).find? (·.name == x.name)).isSome :=
      find?_isSome.2 ⟨x, mem, by simp⟩
    obtain ⟨y, found⟩ := Option.isSome_iff_exists.1 some_
    have named : y.name = x.name := by simpa using find?_some found
    rw [found, inj_on_of_nodup_map nodup (mem_of_find?_eq_some found) mem named]
  · exact mem_of_find?_eq_some

end First

/-! ## Sorting and demotion -/

@[simp] lemma demoted_name (x : InnerClass) : (demoted x).name = x.name := by
  rw [demoted]
  split <;> rfl

/-- Whether a record has both names or neither. -/
def InnerClass.Paired (x : InnerClass) : Prop := x.innerName.isSome = x.outerName.isSome

lemma demoted_paired {x} (paired : InnerClass.Paired x) : InnerClass.Paired (demoted x) := by
  rw [demoted]
  split
  · rfl
  · exact paired

/-- All records that a class gets, before those of one name are joined. -/
def collected (r : Relations) (c : Register.Class) : List InnerClass :=
  (ownNest r c).records ++ recordsOfSupers r c

variable {r : Relations} {c : Register.Class} {x : InnerClass}

lemma mem_nestOf_records : x ∈ (nestOf r c).records ↔
    ∃ y, (collected r c).find? (·.name == y.name) = some y ∧ demoted y = x := by
  simp only [nestOf, mem_map, mem_mergeSort, mem_firstOfEach]
  rfl

lemma nestOf_names_perm (r : Relations) (c : Register.Class) :
    ((nestOf r c).records.map (·.name)).Perm ((firstOfEach (collected r c)).map (·.name)) := by
  have same : (InnerClass.name ∘ demoted) = InnerClass.name := funext demoted_name
  rw [nestOf, map_map, same]
  exact (mergeSort_perm _ _).map _

lemma nestOf_names_ascending (r : Relations) (c : Register.Class) :
    ((nestOf r c).records.map (·.name)).Pairwise (· < ·) := by
  have nodup : ((nestOf r c).records.map (·.name)).Nodup :=
    (nestOf_names_perm r c).nodup_iff.2 (firstOfEach_spec _).1
  have weakly : ((nestOf r c).records.map (·.name)).Pairwise (· ≤ ·) := by
    rw [nestOf, map_map, pairwise_map]
    have sorted := @pairwise_mergeSort _ (fun a b : InnerClass => !(b.name < a.name))
      (fun a b c first second => by
        simp only [Bool.not_eq_true', decide_eq_false_iff_not, not_lt] at first second ⊢
        exact first.trans second)
      (fun a b => by
        simp only [Bool.or_eq_true, Bool.not_eq_true', decide_eq_false_iff_not, not_lt]
        exact le_total _ _)
      (firstOfEach (collected r c))
    refine sorted.imp fun {a b} le => ?_
    simpa only [Bool.not_eq_true', decide_eq_false_iff_not, not_lt, Function.comp_apply, demoted_name] using le
  exact (weakly.and nodup).imp fun ⟨le, ne⟩ => lt_of_le_of_ne le ne

lemma mem_nestOf_names {n} : n ∈ (nestOf r c).records.map (·.name) ↔ n ∈ (collected r c).map (·.name) := by
  rw [(nestOf_names_perm r c).mem_iff]
  constructor
  · intro mem
    obtain ⟨x, among, rfl⟩ := mem_map.1 mem
    exact mem_map.2 ⟨x, mem_of_find?_eq_some (mem_firstOfEach.1 among), rfl⟩
  · intro mem
    obtain ⟨x, among, rfl⟩ := mem_map.1 mem
    have some_ : ((collected r c).find? (·.name == x.name)).isSome :=
      find?_isSome.2 ⟨x, among, by simp⟩
    obtain ⟨y, found⟩ := Option.isSome_iff_exists.1 some_
    have named : y.name = x.name := by simpa using find?_some found
    exact mem_map.2 ⟨y, mem_firstOfEach.2 (named ▸ found), named⟩

/-! ## Super types -/

/-- The super types of a class whose nesting it records. -/
def probed (c : Register.Class) : List String :=
  (c.superclass.toList.filter fun d => d != "Ljava/lang/Object;" && d != c.name) ++
    c.interfaces.filter (· != c.name)

/-- What the name of a class says of its nesting. -/
def guessed (isInterface : Bool) (d : String) : List InnerClass :=
  match splitAtDollar? (internalName d) with
  | none => []
  | some (outer, inner) =>
    let access := Access.publicFlag ||| Access.staticFlag ||| Access.abstractFlag
    [{ name := internalName d
       outerName := some outer
       innerName := some inner
       access := if isInterface then access ||| Access.interfaceFlag else access }]

lemma splitAtDollar?_isSome (name : String) : (splitAtDollar? name).isSome ↔ '$' ∈ name.toList := by
  rw [← mem_reverse, splitAtDollar?]
  cases rest : name.toList.reverse.dropWhile (· != '$') with
  | nil =>
    have other := dropWhile_eq_nil_iff.1 rest
    simp only [Option.isSome_none, Bool.false_eq_true, false_iff]
    exact fun mem => by simpa using other _ mem
  | cons ch front =>
    have last := head?_dropWhile_not (· != '$') name.toList.reverse
    rw [rest] at last
    have same : ch = '$' := by simpa using last
    have mem : ch ∈ name.toList.reverse.dropWhile (· != '$') := by rw [rest]; exact mem_cons_self
    simpa [same] using (dropWhile_sublist _).mem mem

lemma dollar_mem_internalName (d : String) : '$' ∈ (internalName d).toList ↔ '$' ∈ d.toList := by
  rw [internalName]
  split
  · rename_i rest chars
    split
    · rename_i last
      have whole : rest = rest.dropLast ++ [';'] := (dropLast_append_getLast? _ last).symm
      rw [chars]
      conv_rhs => rw [whole]
      simp
    · rw [chars]
  · rfl

lemma guessed_names (isInterface : Bool) (d : String) :
    ∀ n, n ∈ (guessed isInterface d).map (·.name) ↔ '$' ∈ d.toList ∧ internalName d = n := by
  rw [← dollar_mem_internalName, ← splitAtDollar?_isSome, guessed]
  cases splitAtDollar? (internalName d) with
  | none => simp
  | some parts => simp [eq_comm]

lemma guessed_paired {isInterface d} (made : x ∈ guessed isInterface d) : InnerClass.Paired x := by
  rw [guessed] at made
  split at made
  · cases made
  · cases mem_singleton.1 made
    rfl

lemma Own.record_paired (own : Own) (inner outer : String) : InnerClass.Paired (own.record inner outer) := by
  rw [InnerClass.Paired, Own.record, Option.isSome_map]

section Gathered

variable {names : List String} {ls : List (String × String)} {own : String → Own}
  (gathers : Gathers r names ls own)

include gathers

lemma recordsOfSuper_eq (isInterface : Bool) (d : String) :
    recordsOfSuper r isInterface d = if (r.lookup? d).isSome then
      ((lastOuter ls d).map ((own d).record d)).toList else guessed isInterface d := by
  rw [recordsOfSuper]
  cases found : r.find? d with
  | none =>
    rw [Relations.lookup?_eq_none found]
    rfl
  | some i =>
    obtain ⟨e, here, rfl⟩ := (Relations.find?_eq_some gathers.distinct).1 found
    rw [(Relations.lookup?_eq_some gathers.distinct).2 ⟨i, here, rfl⟩, Option.isSome_some, if_pos rfl,
      ← gathers.enclosing i e here]
    simp only [here, Option.bind_some]
    cases e.enclosing with
    | none => rfl
    | some o =>
      simp only [recordOf_eq here, gathers.own i e here]
      rfl

lemma mem_recordsOfSupers : x ∈ recordsOfSupers r c ↔
    (∃ d ∈ probed c, ∃ o, lastOuter ls d = some o ∧ x = (own d).record d o) ∨
      ∃ d isInterface, r.lookup? d = none ∧ x ∈ guessed isInterface d ∧ d ∈ if isInterface then
        c.interfaces.filter (· != c.name) else
        c.superclass.toList.filter fun d => d != "Ljava/lang/Object;" && d != c.name := by
  have one (isInterface : Bool) (d : String) : x ∈ recordsOfSuper r isInterface d ↔
      (∃ o, lastOuter ls d = some o ∧ x = (own d).record d o) ∨
        r.lookup? d = none ∧ x ∈ guessed isInterface d := by
    rw [recordsOfSuper_eq gathers]
    cases looked : r.lookup? d with
    | none =>
      have none_ : lastOuter ls d = none := by
        rw [← gathers.enclosing?_eq, Relations.enclosing?, looked]
        rfl
      simp [none_]
    | some e => cases lastOuter ls d <;> simp
  simp only [recordsOfSupers, mem_append, mem_flatMap, one, probed]
  constructor
  · rintro (⟨d, among, known | ⟨absent, made⟩⟩ | ⟨d, among, known | ⟨absent, made⟩⟩)
    · exact .inl ⟨d, .inl among, known⟩
    · exact .inr ⟨d, false, absent, made, among⟩
    · exact .inl ⟨d, .inr among, known⟩
    · exact .inr ⟨d, true, absent, made, among⟩
  · rintro (⟨d, among | among, known⟩ | ⟨d, isInterface, absent, made, among⟩)
    · exact .inl ⟨d, among, .inl known⟩
    · exact .inr ⟨d, among, .inl known⟩
    · cases isInterface with
      | false => exact .inl ⟨d, among, .inr ⟨absent, made⟩⟩
      | true => exact .inr ⟨d, among, .inr ⟨absent, made⟩⟩

lemma mem_ownNest_records : x ∈ (ownNest r c).records ↔ ∃ e, r.lookup? c.name = some e ∧ e.isClosure = false ∧
      ((∃ a b, ReflTransGen (fun o i => (i, o) ∈ ls) c.name b ∧ (a, b) ∈ ls ∧ a ≠ c.name ∧
          x = (own a).record a b) ∨
        e.isInner = true ∧ ∃ a b, ReflTransGen (fun i o => lastOuter ls i = some o) c.name a ∧
          lastOuter ls a = some b ∧ b ≠ c.name ∧ x = (own a).record a b) := by
  rw [ownNest]
  cases found : r.find? c.name with
  | none =>
    simp [Relations.lookup?_eq_none found]
  | some id =>
    obtain ⟨e, here, named⟩ := (Relations.find?_eq_some gathers.distinct).1 found
    have looked := (Relations.lookup?_eq_some gathers.distinct).2 ⟨id, here, named⟩
    rw [looked]
    simp only [here, Option.some.injEq, exists_eq_left']
    have down := mem_recordsInside (x := x) gathers found
    have out := mem_recordsAround (x := x) gathers found
    cases closure : e.isClosure with
    | true => simp
    | false =>
      cases inner : e.isInner with
      | true => simp [down, out]
      | false => simp [down]

lemma collected_paired (made : x ∈ collected r c) : InnerClass.Paired x := by
  rcases mem_append.1 made with own_ | super
  · obtain ⟨e, -, -, ⟨a, b, -, -, -, rfl⟩ | ⟨-, a, b, -, -, -, rfl⟩⟩ := (mem_ownNest_records gathers).1 own_
    · exact Own.record_paired _ _ _
    · exact Own.record_paired _ _ _
  · rcases (mem_recordsOfSupers gathers).1 super with ⟨d, -, o, -, rfl⟩ | ⟨d, isInterface, -, made, -⟩
    · exact Own.record_paired _ _ _
    · exact guessed_paired made

end Gathered

/-! ## The closure -/

/-- The classes whose nesting a class records. -/
inductive Nested (r : Relations) (c : Register.Class) : String → Prop
  | inside {e d} (described : r.lookup? c.name = some e) (proper : e.isClosure = false)
      (path : TransGen (fun o i => i ∈ r.innerNames o) c.name d) (other : d ≠ c.name) : Nested r c d
  | around {e d} (described : r.lookup? c.name = some e) (proper : e.isClosure = false)
      (inner : e.isInner = true) (path : ReflTransGen (fun i o => r.enclosing? i = some o) c.name d)
      (enclosed : (r.enclosing? d).isSome) : Nested r c d
  | known {d} (super : d ∈ probed c) (enclosed : (r.enclosing? d).isSome) : Nested r c d
  | unknown {d} (super : d ∈ probed c) (absent : r.lookup? d = none) (dollar : '$' ∈ d.toList) :
      Nested r c d

lemma links_proper (p : Program) : ∀ l ∈ p.classes.flatMap links, l.1 ≠ l.2 := by
  intro l mem
  obtain ⟨c, -, among⟩ := mem_flatMap.1 mem
  simpa using (mem_filter.1 among).2

lemma nested_iff_collected (p : Program) (c : Register.Class) (n : String) :
    n ∈ (collected (.ofProgram p) c).map (·.name) ↔ ∃ d, Nested (.ofProgram p) c d ∧ internalName d = n := by
  have gathers := ofProgram_gathers p
  have down : (fun o i => (i, o) ∈ p.classes.flatMap links) =
      fun o i => i ∈ (Relations.ofProgram p).innerNames o := by
    funext o i
    exact propext gathers.mem_innerNames.symm
  have out : (fun i o => lastOuter (p.classes.flatMap links) i = some o) =
      fun i o => (Relations.ofProgram p).enclosing? i = some o := by
    funext i o
    rw [gathers.enclosing?_eq]
  constructor
  · intro mem
    obtain ⟨x, made, rfl⟩ := mem_map.1 mem
    rcases mem_append.1 made with own_ | super
    · obtain ⟨e, described, proper, ⟨a, b, path, link, other, rfl⟩ | ⟨inner, a, b, path, outer, -, rfl⟩⟩ :=
        (mem_ownNest_records gathers).1 own_
      · refine ⟨a, .inside described proper ?_ other, rfl⟩
        rw [← down]
        exact .tail' path link
      · refine ⟨a, .around described proper inner (out ▸ path) ?_, rfl⟩
        rw [gathers.enclosing?_eq, outer]
        rfl
    · rcases (mem_recordsOfSupers gathers).1 super with ⟨d, among, o, outer, rfl⟩ |
        ⟨d, isInterface, absent, made, among⟩
      · refine ⟨d, .known among ?_, rfl⟩
        rw [gathers.enclosing?_eq, outer]
        rfl
      · obtain ⟨dollar, named⟩ := (guessed_names isInterface d x.name).1 (mem_map.2 ⟨x, made, rfl⟩)
        refine ⟨d, .unknown (mem_append.2 ?_) absent dollar, named⟩
        cases isInterface with
        | false => exact .inl among
        | true => exact .inr among
  · rintro ⟨d, nested, rfl⟩
    cases nested with
    | inside described proper path other =>
      rw [← down, Relation.TransGen.tail'_iff] at path
      obtain ⟨b, path, link⟩ := path
      exact mem_map.2 ⟨_, mem_append_left _ ((mem_ownNest_records gathers).2
        ⟨_, described, proper, .inl ⟨d, b, path, link, other, rfl⟩⟩), rfl⟩
    | around described proper inner path enclosed =>
      rw [← out] at path
      rw [gathers.enclosing?_eq] at enclosed
      obtain ⟨b, outer⟩ := Option.isSome_iff_exists.1 enclosed
      by_cases back : b = c.name
      · -- the walk out stops in front of its start, and the walk down begins here
        subst back
        have link := lastOuter_mem outer
        exact mem_map.2 ⟨_, mem_append_left _ ((mem_ownNest_records gathers).2
          ⟨_, described, proper, .inl ⟨d, c.name, .refl, link, links_proper p _ link, rfl⟩⟩), rfl⟩
      · exact mem_map.2 ⟨_, mem_append_left _ ((mem_ownNest_records gathers).2
          ⟨_, described, proper, .inr ⟨inner, d, b, path, outer, back, rfl⟩⟩), rfl⟩
    | known super enclosed =>
      rw [gathers.enclosing?_eq] at enclosed
      obtain ⟨o, outer⟩ := Option.isSome_iff_exists.1 enclosed
      exact mem_map.2 ⟨_, mem_append_right _ ((mem_recordsOfSupers gathers).2
        (.inl ⟨d, super, o, outer, rfl⟩)), rfl⟩
    | unknown super absent dollar =>
      have made (isInterface : Bool) : ∃ x ∈ guessed isInterface d, x.name = internalName d :=
        mem_map.1 ((guessed_names isInterface d _).2 ⟨dollar, rfl⟩)
      rcases mem_append.1 super with among | among
      · obtain ⟨x, made, named⟩ := made false
        exact mem_map.2 ⟨x, mem_append_right _ ((mem_recordsOfSupers gathers).2
          (.inr ⟨d, false, absent, made, among⟩)), named⟩
      · obtain ⟨x, made, named⟩ := made true
        exact mem_map.2 ⟨x, mem_append_right _ ((mem_recordsOfSupers gathers).2
          (.inr ⟨d, true, absent, made, among⟩)), named⟩

/-- The names that a class records are, strictly ascending, those of the closure of its
nesting; and a record has an inner name just where it has an outer name. -/
theorem records_are_closure (p : Program) (c : Register.Class) :
    ((nestOf (.ofProgram p) c).records.map (·.name)).Pairwise (· < ·) ∧
    (∀ n, n ∈ (nestOf (.ofProgram p) c).records.map (·.name) ↔
      ∃ d, Nested (.ofProgram p) c d ∧ internalName d = n) ∧
    ∀ x ∈ (nestOf (.ofProgram p) c).records, x.innerName.isSome = x.outerName.isSome := by
  refine ⟨nestOf_names_ascending _ _, fun n => ?_, fun x member => ?_⟩
  · rw [mem_nestOf_names, nested_iff_collected]
  · obtain ⟨y, found, rfl⟩ := mem_nestOf_records.1 member
    exact demoted_paired (collected_paired (ofProgram_gathers p) (List.mem_of_find?_eq_some found))

end Restack.Nesting
