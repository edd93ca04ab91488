/-
# Walks through nested classes

The walk down has fuel for every link, so it comes to each class that links lead to
(`mem_visits`), and makes a record of each class listed there but the one it started from
(`mem_recordsInside`). The walk out stops where the chain ends, repeats or is about to come
back to its start; it leaves out only the class that its start encloses
(`mem_recordsAround`).
-/
import Mathlib.Data.List.Perm.Subperm
import Mathlib.Logic.Relation
import Restack.Nesting.Records
import Restack.Proofs.Lists
import Restack.Proofs.Nesting.Relations
import Restack.Proofs.Search

namespace Restack.Nesting

open Relation (ReflTransGen)
open List Restack.Lists
open Signature (internalName)
open Stack (InnerClass)

variable {r : Relations} {start i o : ClassId} {x : InnerClass}

/-! ## Down -/

/-- The classes that the walk down comes to, in order. -/
def visits (r : Relations) : Nat → List ClassId → List ClassId → List ClassId
  | 0, _, _ => []
  | _ + 1, [], _ => []
  | fuel + 1, id :: stack, seen =>
    if seen.contains id then visits r fuel stack seen
    else id :: visits r fuel ((innersOf r id).reverse ++ stack) (id :: seen)

lemma inside_eq (fuel : Nat) (stack seen : List ClassId) :
    inside r start fuel stack seen = (visits r fuel stack seen).flatMap fun id =>
      ((innersOf r id).filter (· != start)).flatMap (recordOf r · id) := by
  induction fuel generalizing stack seen with
  | zero => rfl
  | succ fuel ih =>
    cases stack with
    | nil => rfl
    | cons id stack =>
      rw [inside, visits]
      split
      · exact ih stack seen
      · rw [flatMap_cons, ← ih]

/-- How many classes are listed in those not seen yet. -/
def unseen (r : Relations) (seen : List ClassId) : Nat :=
  total (r.entries.toList.zipIdx.map fun x => if x.2 ∈ seen then 0 else x.1.inners.length)

lemma unseen_nil : unseen r [] = total (r.entries.toList.map fun e => e.inners.length) := by
  have same : (fun x : Entry × Nat => if x.2 ∈ ([] : List ClassId) then 0 else x.1.inners.length) =
      (fun e : Entry => e.inners.length) ∘ Prod.fst := by
    funext x
    simp
  rw [unseen, same, ← map_map, zipIdx_map_fst]

lemma unseen_cons {seen} (fresh : i ∉ seen) :
    unseen r (i :: seen) + (innersOf r i).length ≤ unseen r seen := by
  have le (x : Entry × Nat) : (if x.2 ∈ i :: seen then 0 else x.1.inners.length) ≤
      if x.2 ∈ seen then 0 else x.1.inners.length := by
    by_cases known : x.2 ∈ seen
    · simp [known]
    · by_cases same : x.2 = i <;> simp [known, same]
  cases here : r.entry? i with
  | none =>
    have empty : innersOf r i = [] := by rw [innersOf, here]; rfl
    rw [empty]
    exact total_map_le fun x _ => le x
  | some e =>
    have listed : (e, i) ∈ r.entries.toList.zipIdx := by
      rw [mem_zipIdx_iff_getElem?, Array.getElem?_toList]
      exact here
    refine total_map_add_le (fun x _ => le x) listed ?_
    simp [fresh, innersOf, here]

/-- The walk down as a search. -/
def walking (r : Relations) : Search ClassId (List ClassId) where
  next id := (innersOf r id).reverse
  passes seen id := seen.contains id
  mark seen id := id :: seen

lemma mem_walking {fuel stack seen} :
    i ∈ (walking r).run fuel stack seen ↔ i ∈ seen ∨ i ∈ visits r fuel stack seen := by
  induction fuel generalizing stack seen with
  | zero => simp [Search.run, visits]
  | succ fuel ih =>
    cases stack with
    | nil => simp [Search.run, visits]
    | cons id stack =>
      rw [visits]
      change i ∈ (if seen.contains id = true then _ else _) ↔ _
      split
      · exact ih
      · rw [ih, mem_cons, or_left_comm, ← or_assoc, ← mem_cons]
        rfl

lemma walking_lawful :
    (walking r).Lawful (fun _ => True) (fun _ => True) (fun seen id => id ∈ seen) (unseen r) where
  passes _ := by simp [walking]
  inv _ _ _ := trivial
  mark _ _ _ := mem_cons
  left _ _ fresh := by
    rw [walking, length_reverse]
    exact unseen_cons fresh

lemma mem_visits {fuel} (enough : 1 + unseen r [] ≤ fuel) :
    i ∈ visits r fuel [start] [] ↔ ReflTransGen (fun o i => i ∈ innersOf r o) start i := by
  have visited {i : ClassId} : i ∈ visits r fuel [start] [] ↔ i ∈ (walking r).run fuel [start] [] := by
    simp [mem_walking]
  rw [visited]
  constructor
  · refine walking_lawful.least trivial (fun o path i next _ => ?_) (by simp [ReflTransGen.refl])
      (by simp) i
    exact path.tail (mem_reverse.1 next)
  · obtain ⟨-, found⟩ := walking_lawful.found (s := []) trivial
      (show [start].length + unseen r [] ≤ fuel from enough) (by simp)
    intro path
    induction path with
    | refl => exact found.stack start mem_cons_self trivial
    | tail _ step ih => exact found.closed _ ih _ (mem_reverse.2 step) trivial

lemma mem_recordsInside_numbered : x ∈ recordsInside r start ↔ ∃ o i,
    ReflTransGen (fun o i => i ∈ innersOf r o) start o ∧ i ∈ innersOf r o ∧ i ≠ start ∧
      x ∈ recordOf r i o := by
  rw [recordsInside, inside_eq]
  have enough : 1 + unseen r [] ≤ 2 + total (r.entries.toList.map fun e => e.inners.length) := by
    rw [unseen_nil]
    omega
  simp only [mem_visits enough, mem_flatMap, mem_filter, bne_iff_ne]
  constructor
  · rintro ⟨o, path, i, ⟨inner, other⟩, made⟩
    exact ⟨o, i, path, inner, other, made⟩
  · rintro ⟨o, i, path, inner, other, made⟩
    exact ⟨o, path, i, ⟨inner, other⟩, made⟩

/-! ## Out -/

/-- The number of the class around a class. -/
def outerOf? (r : Relations) (i : ClassId) : Option ClassId := (r.entry? i).bind (·.enclosing)

lemma around_reached {fuel seen} (made : x ∈ around r start fuel seen i) :
    ∃ j o, ReflTransGen (fun i o => outerOf? r i = some o) i j ∧ outerOf? r j = some o ∧ o ≠ start ∧
      x ∈ recordOf r j o := by
  induction fuel generalizing seen i with
  | zero => cases made
  | succ fuel ih =>
    rw [around] at made
    split at made
    · cases made
    · split at made
      · cases made
      · rename_i outer found
        split at made
        · cases made
        · rename_i other
          rcases mem_append.1 made with here | later
          · exact ⟨i, outer, .refl, found, other, here⟩
          · obtain ⟨j, o, path, rest⟩ := ih later
            exact ⟨j, o, .head found path, rest⟩

/-- The walk out, from a class behind those it has seen, leaves nothing around them out but
what its start encloses. -/
lemma around_closed {fuel} {seen : List ClassId} (enough : r.entries.size < fuel + seen.length)
    (nodup : seen.Nodup) (bound : ∀ j ∈ seen, j < r.entries.size)
    (closed : ∀ j ∈ seen, ∀ o, outerOf? r j = some o → o = i ∨ o ∈ seen) (started : start = i ∨ start ∈ seen) :
    ∃ found : List ClassId, i ∈ found ∧ seen ⊆ found ∧ (∀ j ∈ found, ∀ o, outerOf? r j = some o → o ∈ found) ∧
      ∀ j ∈ found, j ∉ seen → ∀ o, outerOf? r j = some o → o ≠ start →
        ∀ x ∈ recordOf r j o, x ∈ around r start fuel seen i := by
  induction fuel generalizing seen i with
  | zero =>
    have short : seen.length ≤ (range r.entries.size).length :=
      (subperm_of_subset nodup fun j mem => mem_range.2 (bound j mem)).length_le
    rw [length_range] at short
    omega
  | succ fuel ih =>
    rw [around]
    split
    · rename_i known
      rw [contains_iff_mem] at known
      refine ⟨seen, known, Subset.refl _, fun j mem o outer => ?_, fun j mem new => absurd mem new⟩
      rcases closed j mem o outer with rfl | old
      · exact known
      · exact old
    · rename_i new
      rw [contains_iff_mem] at new
      -- the walk stops here: what it saw and the last class are all there is
      have stops (last : ∀ o, outerOf? r i = some o → o = start) : ∃ found : List ClassId,
          i ∈ found ∧ seen ⊆ found ∧ (∀ j ∈ found, ∀ o, outerOf? r j = some o → o ∈ found) ∧
          ∀ j ∈ found, j ∉ seen → ∀ o, outerOf? r j = some o → o ≠ start →
            ∀ x ∈ recordOf r j o, x ∈ ([] : List InnerClass) := by
        refine ⟨i :: seen, mem_cons_self, subset_cons_self _ _, fun j mem o outer => ?_,
          fun j mem fresh o outer other => ?_⟩
        · rcases mem_cons.1 mem with rfl | old
          · rw [last o outer]
            exact mem_cons.2 started
          · exact mem_cons.2 (closed j old o outer)
        · rcases mem_cons.1 mem with rfl | old
          · exact absurd (last o outer) other
          · exact absurd old fresh
      split
      · rename_i none_
        exact stops fun o outer => by
          rw [outerOf?, none_] at outer
          cases outer
      · rename_i outer found
        split
        · rename_i back
          exact stops fun o outer' => by
            rw [outerOf?, found] at outer'
            cases outer'
            exact back
        · have inside : i < r.entries.size := by
            by_contra beyond
            simp [ Relations.entry?, Nat.le_of_not_lt beyond] at found
          obtain ⟨found', last, seen', closed', made⟩ := @ih outer (i :: seen)
            (by rw [length_cons]; omega) (nodup_cons.2 ⟨new, nodup⟩)
            (forall_mem_cons.2 ⟨inside, bound⟩)
            (fun j mem o outer' => by
              rcases mem_cons.1 mem with rfl | old
              · rw [outerOf?, found] at outer'
                cases outer'
                exact .inl rfl
              · exact .inr (mem_cons.2 (closed j old o outer')))
            (.inr (mem_cons.2 started))
          refine ⟨found', seen' mem_cons_self, fun j mem => seen' (mem_cons_of_mem _ mem), closed', ?_⟩
          intro j mem fresh o outer' other' x record
          by_cases same : j = i
          · subst same
            rw [outerOf?, found] at outer'
            cases outer'
            exact mem_append_left _ record
          · exact mem_append_right _ (made j mem
              (fun old => (mem_cons.1 old).elim same fresh) o outer' other' x record)

lemma mem_recordsAround_numbered : x ∈ recordsAround r start ↔ ∃ i o,
    ReflTransGen (fun i o => outerOf? r i = some o) start i ∧ outerOf? r i = some o ∧ o ≠ start ∧
      x ∈ recordOf r i o := by
  constructor
  · exact around_reached
  · rintro ⟨i, o, path, outer, other, record⟩
    obtain ⟨found, first, -, closed, made⟩ := @around_closed r start start
      (r.entries.size + 1) [] (by simp) nodup_nil (by simp) (by simp) (.inl rfl)
    refine made i ?_ (by simp) o outer other x record
    clear outer record
    induction path with
    | refl => exact first
    | tail _ step ih => exact closed _ ih _ step

/-! ## By name -/

/-- The record of a class inside another, from what it says of itself. -/
def Own.record (own : Own) (inner outer : String) : InnerClass where
  name := internalName inner
  outerName := own.innerName.map fun _ => internalName outer
  innerName := own.innerName
  access := Access.ofInner own.access

lemma recordOf_eq {e} (here : r.entry? i = some e) : recordOf r i o = [e.own.record e.name (r.nameOf o)] := by
  simp only [recordOf, here]
  rfl

lemma walk_names {R S} (bound : ∀ i k, R i k → ∃ e, r.entry? k = some e)
    (steps : ∀ i e, r.entry? i = some e → ∀ d, S e.name d ↔ ∃ k e', R i k ∧ r.entry? k = some e' ∧ e'.name = d)
    {e} (here : r.entry? i = some e) (d : String) :
    ReflTransGen S e.name d ↔ ∃ k e', ReflTransGen R i k ∧ r.entry? k = some e' ∧ e'.name = d := by
  constructor
  · intro path
    induction path with
    | refl => exact ⟨i, e, .refl, here, rfl⟩
    | tail _ step ih =>
      obtain ⟨k, e', path, there, rfl⟩ := ih
      obtain ⟨k', e'', step, next, named⟩ := (steps k e' there _).1 step
      exact ⟨k', e'', path.tail step, next, named⟩
  · rintro ⟨k, e', path, there, rfl⟩
    induction path generalizing e' with
    | refl =>
      cases here.symm.trans there
      exact .refl
    | @tail j k path step ih =>
      obtain ⟨e'', before⟩ : ∃ e'', r.entry? j = some e'' := by
        cases path with
        | refl => exact ⟨e, here⟩
        | tail _ last => exact bound _ _ last
      exact (ih e'' before).tail ((steps j e'' before _).2 ⟨k, e', step, there, rfl⟩)

section Names

variable {names : List String} {ls : List (String × String)} {own : String → Own}
  (gathers : Gathers r names ls own) {d : String} (found : r.find? d = some start)

include gathers

lemma innersOf_spec {e} (here : r.entry? o = some e) :
    i ∈ innersOf r o ↔ ∃ e', r.entry? i = some e' ∧ (e'.name, e.name) ∈ ls := by
  rw [innersOf, here]
  exact gathers.inners o e here i

lemma innersOf_bound (mem : i ∈ innersOf r o) : (∃ e, r.entry? o = some e) ∧ ∃ e, r.entry? i = some e := by
  cases here : r.entry? o with
  | none =>
    rw [innersOf, here] at mem
    cases mem
  | some e =>
    obtain ⟨e', there, -⟩ := (innersOf_spec gathers here).1 mem
    exact ⟨⟨e, rfl⟩, e', there⟩

lemma outerOf?_bound (outer : outerOf? r i = some o) : ∃ e, r.entry? o = some e := by
  obtain ⟨e, here, around⟩ := Option.bind_eq_some_iff.1 outer
  exact gathers.bound i e o here around

lemma outerOf?_spec {e e'} (here : r.entry? i = some e) (there : r.entry? o = some e') :
    outerOf? r i = some o ↔ lastOuter ls e.name = some e'.name := by
  rw [outerOf?, here, Option.bind_some, ← gathers.enclosing i e here, Option.map_eq_some_iff]
  constructor
  · exact fun around => ⟨o, around, Relations.nameOf_eq there⟩
  · rintro ⟨k, around, named⟩
    obtain ⟨e'', at_⟩ := gathers.bound i e k here around
    rw [Relations.nameOf_eq at_] at named
    rw [around, gathers.distinct k o e'' e' at_ there named]

include found

/-- Records of the classes at any depth inside a class. -/
lemma mem_recordsInside : x ∈ recordsInside r start ↔ ∃ a b,
    ReflTransGen (fun o i => (i, o) ∈ ls) d b ∧ (a, b) ∈ ls ∧ a ≠ d ∧ x = (own a).record a b := by
  obtain ⟨e, here, rfl⟩ := (Relations.find?_eq_some gathers.distinct).1 found
  have walk := walk_names (r := r) (R := fun o i => i ∈ innersOf r o) (S := fun o i => (i, o) ∈ ls)
    (fun _ _ mem => (innersOf_bound gathers mem).2) (fun i e there d => by
      constructor
      · intro link
        obtain ⟨k, e', at_, rfl⟩ := (gathers.known d).1 (gathers.linked _ link).1
        exact ⟨k, e', (innersOf_spec gathers there).2 ⟨e', at_, link⟩, at_, rfl⟩
      · rintro ⟨k, e', mem, at_, rfl⟩
        obtain ⟨e'', at', link⟩ := (innersOf_spec gathers there).1 mem
        cases at_.symm.trans at'
        exact link) here
  rw [mem_recordsInside_numbered]
  constructor
  · rintro ⟨o, i, path, inner, other, made⟩
    obtain ⟨⟨e', there⟩, e'', at_⟩ := innersOf_bound gathers inner
    obtain ⟨e₁, at₁, link⟩ := (innersOf_spec gathers there).1 inner
    cases at_.symm.trans at₁
    rw [recordOf_eq at_, mem_singleton, gathers.own i e'' at_, Relations.nameOf_eq there] at made
    exact ⟨e''.name, e'.name, (walk _).2 ⟨o, e', path, there, rfl⟩, link,
      fun same => other (gathers.distinct i start e'' e at_ here same), made⟩
  · rintro ⟨a, b, path, link, other, rfl⟩
    obtain ⟨o, e', numbered, there, rfl⟩ := (walk b).1 path
    obtain ⟨i, e'', at_, rfl⟩ := (gathers.known a).1 (gathers.linked _ link).1
    refine ⟨o, i, numbered, (innersOf_spec gathers there).2 ⟨e'', at_, link⟩, ?_, ?_⟩
    · rintro rfl
      cases here.symm.trans at_
      exact other rfl
    · rw [recordOf_eq at_, mem_singleton, gathers.own i e'' at_, Relations.nameOf_eq there]

/-- Records of a class and of the classes around it, but for the one that it encloses itself. -/
lemma mem_recordsAround : x ∈ recordsAround r start ↔ ∃ a b,
    ReflTransGen (fun i o => lastOuter ls i = some o) d a ∧ lastOuter ls a = some b ∧ b ≠ d ∧
      x = (own a).record a b := by
  obtain ⟨e, here, rfl⟩ := (Relations.find?_eq_some gathers.distinct).1 found
  have walk := walk_names (r := r) (R := fun i o => outerOf? r i = some o)
    (S := fun i o => lastOuter ls i = some o)
    (fun _ _ outer => outerOf?_bound gathers outer) (fun i e there d => by
      constructor
      · intro outer
        obtain ⟨k, e', at_, rfl⟩ := (gathers.known d).1 (gathers.linked _ (lastOuter_mem outer)).2
        exact ⟨k, e', (outerOf?_spec gathers there at_).2 outer, at_, rfl⟩
      · rintro ⟨k, e', outer, at_, rfl⟩
        exact (outerOf?_spec gathers there at_).1 outer) here
  rw [mem_recordsAround_numbered]
  constructor
  · rintro ⟨i, o, path, outer, other, made⟩
    obtain ⟨e', there, around⟩ := Option.bind_eq_some_iff.1 outer
    obtain ⟨e'', at_⟩ := outerOf?_bound gathers outer
    rw [recordOf_eq there, mem_singleton, gathers.own i e' there, Relations.nameOf_eq at_] at made
    exact ⟨e'.name, e''.name, (walk _).2 ⟨i, e', path, there, rfl⟩, (outerOf?_spec gathers there at_).1 outer,
      fun same => other (gathers.distinct o start e'' e at_ here same), made⟩
  · rintro ⟨a, b, path, outer, other, rfl⟩
    obtain ⟨i, e', numbered, there, rfl⟩ := (walk a).1 path
    obtain ⟨o, e'', at_, rfl⟩ := (gathers.known b).1 (gathers.linked _ (lastOuter_mem outer)).2
    refine ⟨i, o, numbered, (outerOf?_spec gathers there at_).2 outer, ?_, ?_⟩
    · rintro rfl
      cases here.symm.trans at_
      exact other rfl
    · rw [recordOf_eq there, mem_singleton, gathers.own i e' there, Relations.nameOf_eq at_]

end Names

end Restack.Nesting
