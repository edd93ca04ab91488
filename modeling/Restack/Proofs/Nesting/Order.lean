/-
# Nesting does not depend on the order of classes

The order of a program's classes shows everywhere in its relations. In an `Orderly` program none
of it is left once classes go by their names: the last link of each class is the only one. Then
the records have one candidate for each name, and sorting leaves one list of them
(`nesting_ignores_order`).
-/
import Mathlib.Data.Finset.Dedup
import Mathlib.Data.List.Sort
import Restack.Proofs.Nesting.Agreement

namespace Restack.Nesting

open List

open Register (Program)
open Signature (internalName)
open Stack (InnerClass OuterClass)

/-! ## Relations without numbers -/

/-- All that relations hold of a class, with other classes by their names. -/
structure Summary extends Own where
  enclosing : Option String
  inners : Finset String

def Entry.summary (r : Relations) (e : Entry) : Summary where
  toOwn := e.own
  enclosing := e.enclosing.map r.nameOf
  inners := (e.inners.map r.nameOf).toFinset

def Relations.summary? (r : Relations) (d : String) : Option Summary := (r.lookup? d).map (·.summary r)

namespace Summary

def isClosure (s : Summary) : Bool := s.enclosingMethod.isSome && !s.hasItem

def isInner (s : Summary) : Bool := s.enclosing.isSome || s.enclosingMethod.isSome

/-- The outer class of a nested class that has no name of its own. -/
def outer (s : Summary) : Option OuterClass :=
  if !s.isClosure && s.isInner && s.innerName.isNone then
    s.enclosingMethod.elim (s.enclosing.map fun o => ⟨internalName o, none, none⟩) fun m =>
      some ⟨internalName m.owner, some m.name, some m.descriptor⟩
  else none

end Summary

@[simp] lemma Entry.summary_isClosure (r : Relations) (e : Entry) :
    (e.summary r).isClosure = e.isClosure := rfl

@[simp] lemma Entry.summary_isInner (r : Relations) (e : Entry) : (e.summary r).isInner = e.isInner := by
  simp [Entry.summary, Entry.isInner, Summary.isInner, Entry.own]

lemma Entry.summary_outer (r : Relations) (e : Entry) :
    (e.summary r).outer = if !e.isClosure && e.isInner && e.innerName.isNone then outerOf r e else none := by
  rw [Summary.outer, Entry.summary_isInner]
  congr 1
  rw [outerOf]
  cases method : e.enclosingMethod with
  | none => simp [Entry.summary, Entry.own, method, Function.comp_def]
  | some m => simp [Entry.summary, Entry.own, method]

section Gathered

variable {r : Relations} {names : List String} {ls : List (String × String)} {own : String → Own}
  (gathers : Gathers r names ls own) {c : Register.Class} {x : InnerClass}

include gathers

lemma ownNest_outer : (ownNest r c).outer = (r.summary? c.name).bind Summary.outer := by
  rw [ownNest, Relations.summary?]
  cases found : r.find? c.name with
  | none =>
    rw [Relations.lookup?_eq_none found]
    rfl
  | some id =>
    obtain ⟨e, here, named⟩ := (Relations.find?_eq_some gathers.distinct).1 found
    rw [(Relations.lookup?_eq_some gathers.distinct).2 ⟨id, here, named⟩]
    simp only [here, Option.map_some, Option.bind_some, Entry.summary_outer]
    cases e.isClosure <;> cases e.isInner <;> simp

lemma Gathers.summary?_eq (d : String) : r.summary? d = if d ∈ names then some
    { toOwn := own d, enclosing := lastOuter ls d, inners := (r.innerNames d).toFinset } else none := by
  have known := gathers.lookup?_isSome (d := d)
  have enclosing := gathers.enclosing?_eq d
  rw [Relations.summary?]
  rw [Relations.enclosing?] at enclosing
  rw [Relations.innerNames]
  cases found : r.lookup? d with
  | none =>
    rw [found] at known
    rw [if_neg (by simpa using known)]
    rfl
  | some e =>
    rw [found] at known enclosing
    rw [if_pos (known.1 rfl), ← gathers.own_eq found, ← enclosing]
    rfl

end Gathered

/-! ## Relations that gather the same -/

/-- Two ways to gather the same classes and links, where each class has one link at most. -/
structure Alike (names names' : List String) (ls ls' : List (String × String)) : Prop where
  names : ∀ d, d ∈ names ↔ d ∈ names'
  links : ∀ l, l ∈ ls ↔ l ∈ ls'
  formed : ∀ l ∈ ls, isClassName l.1 = true
  single : ∀ l ∈ ls, ∀ l' ∈ ls, l.1 = l'.1 → l = l'

lemma find?_eq_of_members {l l' : List InnerClass} (same : ∀ x, x ∈ l ↔ x ∈ l')
    (one : ∀ x ∈ l, ∀ y ∈ l, x.name = y.name → x = y) (n : String) :
    l.find? (·.name == n) = l'.find? (·.name == n) := by
  cases found : l.find? (·.name == n) with
  | none =>
    rw [find?_eq_none] at found
    exact (find?_eq_none.2 fun x mem => found x ((same x).2 mem)).symm
  | some x =>
    have mem := mem_of_find?_eq_some found
    have named := find?_some found
    cases found' : l'.find? (·.name == n) with
    | none => exact absurd named (find?_eq_none.1 found' x ((same x).1 mem))
    | some y =>
      have named' := find?_some found'
      rw [beq_iff_eq] at named named'
      rw [one x mem y ((same y).2 (mem_of_find?_eq_some found')) (named.trans named'.symm)]

section Alike

variable {r r' : Relations} {names names' : List String} {ls ls' : List (String × String)}
  {own : String → Own} (gathers : Gathers r names ls own) (gathers' : Gathers r' names' ls' own)
  (alike : Alike names names' ls ls') (c : Register.Class)

include alike

lemma Alike.lastOuter : lastOuter ls = lastOuter ls' := by
  have single {d o o' : String} (link : (d, o) ∈ ls) (link' : (d, o') ∈ ls) : o = o' :=
    congrArg Prod.snd (alike.single _ link _ link' rfl)
  funext d
  cases outer : Nesting.lastOuter ls d with
  | some o =>
    have link := (alike.links _).1 (lastOuter_mem outer)
    obtain ⟨o', outer'⟩ := lastOuter_isSome link
    rw [outer', single (lastOuter_mem outer) ((alike.links _).2 (lastOuter_mem outer'))]
  | none =>
    cases outer' : Nesting.lastOuter ls' d with
    | none => rfl
    | some o =>
      obtain ⟨o', found⟩ := lastOuter_isSome ((alike.links _).2 (lastOuter_mem outer'))
      rw [outer] at found
      cases found

lemma Alike.symm : Alike names' names ls' ls where
  names d := (alike.names d).symm
  links l := (alike.links l).symm
  formed l link := alike.formed l ((alike.links l).2 link)
  single l link l' link' := alike.single l ((alike.links l).2 link) l' ((alike.links l').2 link')

include gathers

lemma Alike.ownNest_single {x y} (recorded : x ∈ (ownNest r c).records)
    (recorded' : y ∈ (ownNest r c).records) (same : x.name = y.name) : x = y := by
  have linked {x : InnerClass} (recorded : x ∈ (ownNest r c).records) :
      ∃ l ∈ ls, x = (own l.1).record l.1 l.2 := by
    obtain ⟨e, -, -, ⟨a, b, -, link, -, made⟩ | ⟨-, a, b, -, outer, -, made⟩⟩ :=
      (mem_ownNest_records gathers).1 recorded
    · exact ⟨(a, b), link, made⟩
    · exact ⟨(a, b), lastOuter_mem outer, made⟩
  obtain ⟨l, link, rfl⟩ := linked recorded
  obtain ⟨l', link', rfl⟩ := linked recorded'
  have same' := internalName_injective (alike.formed l link) (alike.formed l' link') same
  rw [alike.single l link l' link' same']

include gathers'

lemma Alike.summary? (d : String) : r.summary? d = r'.summary? d := by
  have inners : (r.innerNames d).toFinset = (r'.innerNames d).toFinset := by
    ext i
    rw [mem_toFinset, mem_toFinset, gathers.mem_innerNames, gathers'.mem_innerNames, alike.links]
  rw [gathers.summary?_eq, gathers'.summary?_eq, alike.lastOuter, inners]
  simp only [alike.names]

lemma Alike.recordsOfSupers : recordsOfSupers r c = recordsOfSupers r' c := by
  have same (isInterface : Bool) : recordsOfSuper r isInterface = recordsOfSuper r' isInterface := by
    funext d
    rw [recordsOfSuper_eq gathers, recordsOfSuper_eq gathers', alike.lastOuter]
    simp only [gathers.lookup?_isSome, gathers'.lookup?_isSome, alike.names]
  rw [Nesting.recordsOfSupers, Nesting.recordsOfSupers, same, same]

lemma Alike.mem_ownNest {x} (mem : x ∈ (ownNest r c).records) : x ∈ (ownNest r' c).records := by
  obtain ⟨e, found, noClosure, walked⟩ := (mem_ownNest_records gathers).1 mem
  have same := alike.summary? gathers gathers' c.name
  rw [Relations.summary?, found] at same
  obtain ⟨e', found', summary⟩ := Option.map_eq_some_iff.1 same.symm
  rw [mem_ownNest_records gathers']
  refine ⟨e', found', ?_, ?_⟩
  · rw [← Entry.summary_isClosure r', summary, Entry.summary_isClosure, noClosure]
  · rw [← Entry.summary_isInner r', summary, Entry.summary_isInner, ← alike.lastOuter]
    simpa only [← alike.links] using walked

lemma Alike.collected_find? (n : String) :
    (collected r c).find? (·.name == n) = (collected r' c).find? (·.name == n) := by
  have same (x : InnerClass) : x ∈ (ownNest r c).records ↔ x ∈ (ownNest r' c).records :=
    ⟨alike.mem_ownNest gathers gathers' c, alike.symm.mem_ownNest gathers' gathers c⟩
  have own := find?_eq_of_members same (fun x recorded y recorded' =>
    alike.ownNest_single gathers c recorded recorded') n
  rw [collected, collected, find?_append, find?_append, own, alike.recordsOfSupers gathers gathers' c]

lemma Alike.nestOf : nestOf r c = nestOf r' c := by
  have outer : (ownNest r c).outer = (ownNest r' c).outer := by
    rw [ownNest_outer gathers, ownNest_outer gathers', alike.summary? gathers gathers']
  have ascending (r : Relations) : (Nesting.nestOf r c).records.Pairwise fun x y => x.name < y.name :=
    pairwise_map.1 (nestOf_names_ascending r c)
  have records : (Nesting.nestOf r c).records = (Nesting.nestOf r' c).records := by
    refine Pairwise.eq_of_mem_iff (ascending r) (ascending r') fun x => ?_
    simp only [mem_nestOf_records, alike.collected_find? gathers gathers' c]
  rw [Nest.mk.injEq]
  exact ⟨records, outer⟩

end Alike

/-! ## Programs in any order -/

/-- Each class is described once and linked to one class at most. -/
structure Orderly (p : Program) : Prop where
  distinct : (p.classes.map (·.name)).Nodup
  formed : ∀ c ∈ p.classes, ∀ d ∈ mentioned c, isClassName d = true
  single : ∀ l ∈ p.classes.flatMap links, ∀ l' ∈ p.classes.flatMap links, l.1 = l'.1 → l.2 = l'.2

variable {p q : Program}

lemma Orderly.ownOf_perm (orderly : Orderly p) (perm : p.classes.Perm q.classes) :
    ownOf p.classes = ownOf q.classes := by
  funext d
  refine (perm.filter (·.name == d)).foldl_eq' (fun c among c' among' o => ?_) _
  -- only one class has the name
  obtain ⟨mem, named⟩ := mem_filter.1 among
  obtain ⟨mem', named'⟩ := mem_filter.1 among'
  rw [beq_iff_eq] at named named'
  rw [inj_on_of_nodup_map orderly.distinct mem mem' (named.trans named'.symm)]

lemma Orderly.alike (orderly : Orderly p) (perm : p.classes.Perm q.classes) :
    Alike (p.classes.flatMap mentioned) (q.classes.flatMap mentioned)
      (p.classes.flatMap links) (q.classes.flatMap links) where
  names _ := (perm.flatMap_right mentioned).mem_iff
  links _ := (perm.flatMap_right links).mem_iff
  formed l link := by
    obtain ⟨c, among, named⟩ := mem_flatMap.1 ((ofProgram_gathers p).linked l link).1
    exact orderly.formed c among _ named
  single l link l' link' same := Prod.ext same (orderly.single l link l' link' same)

/-- The classes of an orderly program may come in any order: relations hold the same of
each class, and each class has the same records and outer class. -/
theorem nesting_ignores_order (orderly : Orderly p) (perm : p.classes.Perm q.classes) :
    (∀ d, (Relations.ofProgram p).summary? d = (Relations.ofProgram q).summary? d) ∧
      ∀ c, nestOf (.ofProgram p) c = nestOf (.ofProgram q) c := by
  have gathers := ofProgram_gathers p
  have gathers' := ofProgram_gathers q
  rw [← orderly.ownOf_perm perm] at gathers'
  have alike := orderly.alike perm
  exact ⟨alike.summary? gathers gathers', alike.nestOf gathers gathers'⟩

/-- A class that lists a member, which says where it is and holds a class of its own. -/
def nestedClasses : List Register.Class :=
  [{ plain "La/A;" with annotations := [note "MemberClasses" [("value", .array [.type "La/A$B;"])]] },
    { plain "La/A$B;" with annotations :=
      [note "EnclosingClass" [("value", .type "La/A;")],
        note "InnerClass" [("name", .string "B"), ("accessFlags", .int 9)]] },
    { plain "La/A$B$1;" with annotations :=
      [note "EnclosingMethod" [("value", .method ⟨"La/A$B;", "m", "()V"⟩)],
        note "InnerClass" [("name", .null), ("accessFlags", .int 0)]] }]
where
  plain (name : String) : Register.Class := ⟨1, name, some "Ljava/lang/Object;", [], none, [], [], []⟩
  note (name : String) (elements : List (String × Register.Value)) : Register.AttachedNote :=
    ⟨.system, "Ldalvik/annotation/" ++ name ++ ";", elements⟩

/-- Read backwards, the inner classes get their numbers first. -/
theorem nested_classes_reversed :
    let p : Program := ⟨35, nestedClasses⟩
    let q : Program := ⟨35, nestedClasses.reverse⟩
    Orderly p ∧ (Relations.ofProgram q).find? "La/A;" ≠ (Relations.ofProgram p).find? "La/A;" ∧
      "a/A$B$1" ∈ (nestOf (.ofProgram q) (nestedClasses.plain "La/A;")).records.map (·.name) ∧
      (∀ d, (Relations.ofProgram p).summary? d = (Relations.ofProgram q).summary? d) ∧
      ∀ c, nestOf (.ofProgram p) c = nestOf (.ofProgram q) c := by
  intro p q
  have orderly : Orderly p := ⟨by decide +kernel, by decide +kernel, by decide +kernel⟩
  exact ⟨orderly, by decide +kernel, mem_nestOf_names.2 (by decide +kernel),
    nesting_ignores_order orderly (List.reverse_perm _).symm⟩

end Restack.Nesting
