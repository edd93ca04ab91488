/-
# Which classes name an outer class

The outer class is chosen by the name that a class gives itself, the names of its own record only
when all records are sorted. So the two agree on whether the class is anonymous unless it gives
itself a name that cannot be one (`outer_iff_anonymous`).
-/
import Restack.Proofs.Nesting.Agreement

namespace Restack.Nesting

open List
open Register (Program)
open Signature (internalName)
open Stack (InnerClass)

lemma demoted_innerName (x : InnerClass) : (demoted x).innerName = x.innerName.filter isInnerName := by
  rw [demoted]
  cases named : x.innerName with
  | none => simp [named]
  | some n => cases valid : isInnerName n <;> simp [named, valid, Option.filter]

variable {p : Program} {c : Register.Class} {e : Entry} {id : ClassId}

lemma nestOf_outer {r : Relations} (distinct : r.Distinct) (described : r.lookup? c.name = some e)
    (proper : e.isClosure = false) (inner : e.isInner = true) :
    (nestOf r c).outer = if e.innerName.isNone then outerOf r e else none := by
  obtain ⟨i, here, named⟩ := (Relations.lookup?_eq_some distinct).1 described
  have found := (Relations.find?_eq_some distinct).2 ⟨e, here, named⟩
  simp only [nestOf, ownNest, found, here, proper, inner, if_true, Bool.false_eq_true, if_false]

/-- A class with an enclosing class that is no closure has a record of itself. It names an outer
class, its enclosing method or else its enclosing class, if and only if that record has no inner
name, as long as the name it gives itself, if any, can be one. -/
theorem outer_iff_anonymous (formed : WellNamed p) (among : c ∈ p.classes)
    (described : (Relations.ofProgram p).lookup? c.name = some e) (proper : e.isClosure = false)
    (enclosed : e.enclosing = some id) :
    internalName c.name ∈ (nestOf (.ofProgram p) c).records.map (·.name) ∧
    (∀ x ∈ (nestOf (.ofProgram p) c).records, x.name = internalName c.name →
      (((nestOf (.ofProgram p) c).outer.isSome = true ↔ x.innerName = none) ↔
        ∀ n, e.innerName = some n → isInnerName n = true)) ∧
    ∀ outer, (nestOf (.ofProgram p) c).outer = some outer →
      outer = match e.enclosingMethod with
        | some m => ⟨internalName m.owner, some m.name, some m.descriptor⟩
        | none => ⟨internalName ((Relations.ofProgram p).nameOf id), none, none⟩ := by
  have gathers := ofProgram_gathers p
  have inner : e.isInner = true := by simp [Entry.isInner, enclosed]
  have outer := nestOf_outer gathers.distinct described proper inner
  obtain ⟨i, here, named⟩ := (Relations.lookup?_eq_some gathers.distinct).1 described
  have own : ownOf p.classes c.name = e.own := named ▸ (gathers.own i e here).symm
  refine ⟨mem_nestOf_names.2 ((nested_iff_collected p c _).2 ⟨c.name, .around described proper inner .refl ?_,
    rfl⟩), fun x member same => ?_, fun o chosen => ?_⟩
  · simp [Relations.enclosing?, described, enclosed]
  · obtain ⟨y, found, rfl⟩ := mem_nestOf_records.1 member
    rw [demoted_name] at same
    obtain ⟨o, -, rfl⟩ := collected_known formed among (by rw [described]; rfl)
      (List.mem_of_find?_eq_some found) same
    rw [outer, demoted_innerName, own]
    simp only [Own.record, Entry.own, outerOf, enclosed]
    cases e.innerName with
    | none => cases e.enclosingMethod <;> simp
    | some n => simp
  · rw [outer] at chosen
    split at chosen
    · rw [outerOf, enclosed] at chosen
      cases method : e.enclosingMethod <;> simp only [method] at chosen <;>
        exact (Option.some.inj chosen).symm
    · cases chosen

/-- A class with an enclosing class and a name that cannot be one. -/
def misnamed : Register.Class :=
  ⟨1, "La/O$bad;", some "Ljava/lang/Object;", [], none,
    [⟨.system, ⟨"Ldalvik/annotation/EnclosingClass;", [⟨"value", .type "La/O;"⟩]⟩⟩,
      ⟨.system, ⟨"Ldalvik/annotation/InnerClass;", [⟨"name", .string "b-d"⟩, ⟨"accessFlags", .int 1⟩]⟩⟩],
    [], []⟩

/-- Its record has no inner name, and it names no outer class. -/
theorem misnamed_without_outer : WellNamed ⟨35, [misnamed]⟩ ∧
    (nestOf (.ofProgram ⟨35, [misnamed]⟩) misnamed).outer = none ∧
    ∃ e, (Relations.ofProgram ⟨35, [misnamed]⟩).lookup? misnamed.name = some e ∧ e.isClosure = false ∧
      e.enclosing = some 1 ∧ ∃ x ∈ (nestOf (.ofProgram ⟨35, [misnamed]⟩) misnamed).records,
        x.name = internalName misnamed.name ∧ x.innerName = none := by
  have formed : WellNamed ⟨35, [misnamed]⟩ := by decide +kernel
  have without : (nestOf (.ofProgram ⟨35, [misnamed]⟩) misnamed).outer = none := by decide +kernel
  have entry : ((Relations.ofProgram ⟨35, [misnamed]⟩).lookup? misnamed.name).any (fun e =>
      !e.isClosure && e.enclosing == some 1 && e.innerName == some "b-d") = true := by decide +kernel
  simp only [Option.any_eq_true, Bool.and_eq_true, Bool.not_eq_true', beq_iff_eq] at entry
  obtain ⟨e, described, ⟨proper, enclosed⟩, name⟩ := entry
  obtain ⟨listed, agree, -⟩ := outer_iff_anonymous formed (mem_singleton_self _) described proper enclosed
  obtain ⟨x, member, named⟩ := mem_map.1 listed
  refine ⟨formed, without, e, described, proper, enclosed, x, member, named, ?_⟩
  by_contra unlike
  have valid := (agree x member named).1 (by simp [without, unlike]) _ name
  revert valid
  decide +kernel

end Restack.Nesting
