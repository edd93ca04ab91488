/-
# Classes agree on a nested class, its outer class apart

The inner name and the access of the records of a class come from what the class says of itself,
so they are the same everywhere. The outer class is the one that the walk came from, so two
records of a class that is linked to two may differ there and nowhere else (`records_agree`).
-/
import Restack.Proofs.Nesting.Closure

namespace Restack.Nesting

open List

open Register (Program)
open Signature (internalName)
open Stack (InnerClass)

deriving instance DecidableEq for InnerClass

/-- Whether a descriptor has the letter and the semicolon of a class. -/
def isClassName (d : String) : Bool :=
  match d.toList with
  | 'L' :: rest => rest.getLast? == some ';'
  | _ => false

lemma toList_of_isClassName {d} (formed : isClassName d = true) :
    d.toList = 'L' :: ((internalName d).toList ++ [';']) := by
  rw [isClassName] at formed
  rw [internalName]
  split at formed
  · rename_i rest chars
    rw [beq_iff_eq] at formed
    simp only [chars, formed, if_true, String.toList_ofList]
    rw [dropLast_append_getLast? _ formed]
  · cases formed

lemma internalName_injective {d d'} (formed : isClassName d = true)
    (formed' : isClassName d' = true) (same : internalName d = internalName d') : d = d' := by
  rw [← String.toList_inj, toList_of_isClassName formed, toList_of_isClassName formed', same]

lemma demoted_record (own : Own) (d o o' : String) : demoted (own.record d o) = demoted (own.record d o') ∨
      (demoted (own.record d o)).outerName = some (internalName o) ∧
        demoted (own.record d o') = { demoted (own.record d o) with outerName := some (internalName o') } := by
  cases named : own.innerName with
  | none => exact .inl (by simp [Own.record, named])
  | some inner =>
    cases valid : isInnerName inner with
    | false => exact .inl (by simp [demoted, Own.record, named, valid])
    | true => exact .inr (by simp [demoted, Own.record, named, valid])

variable {p : Program}

/-- All class names in a program, super types included, are formed as such. -/
def WellNamed (p : Program) : Prop :=
  ∀ c ∈ p.classes, ∀ d ∈ mentioned c ++ probed c, isClassName d = true

instance : Decidable (WellNamed p) :=
  inferInstanceAs (Decidable (∀ c ∈ p.classes, ∀ d ∈ mentioned c ++ probed c, isClassName d = true))

lemma WellNamed.mentioned (formed : WellNamed p) {d}
    (mem : d ∈ p.classes.flatMap mentioned) : isClassName d = true := by
  obtain ⟨c, among, named⟩ := mem_flatMap.1 mem
  exact formed c among d (mem_append_left _ named)

lemma collected_known (formed : WellNamed p) {c} (among : c ∈ p.classes) {d}
    (known : ((Relations.ofProgram p).lookup? d).isSome = true) {x}
    (made : x ∈ collected (.ofProgram p) c) (named : x.name = internalName d) :
    ∃ o, (d, o) ∈ p.classes.flatMap links ∧ x = (ownOf p.classes d).record d o := by
  have gathers := ofProgram_gathers p
  have here := formed.mentioned (gathers.lookup?_isSome.1 known)
  have linked {a b : String} (link : (a, b) ∈ p.classes.flatMap links)
      (made : x = (ownOf p.classes a).record a b) :
      ∃ o, (d, o) ∈ p.classes.flatMap links ∧ x = (ownOf p.classes d).record d o := by
    have formed' := formed.mentioned (gathers.linked _ link).1
    obtain rfl : a = d := internalName_injective formed' here (by rw [← named, made]; rfl)
    exact ⟨b, link, made⟩
  rcases mem_append.1 made with own | super
  · obtain ⟨e, -, -, ⟨a, b, -, link, -, made⟩ | ⟨-, a, b, -, outer, -, made⟩⟩ :=
      (mem_ownNest_records gathers).1 own
    · exact linked link made
    · exact linked (lastOuter_mem outer) made
  · rcases (mem_recordsOfSupers gathers).1 super with ⟨a, -, b, outer, made⟩ |
      ⟨a, isInterface, absent, made, listed⟩
    · exact linked (lastOuter_mem outer) made
    · -- a name that nothing is known of is another one
      have name := (guessed_names isInterface a x.name).1 (mem_map.2 ⟨x, made, rfl⟩)
      have listed' : a ∈ probed c := by
        cases isInterface with
        | false => exact mem_append_left _ listed
        | true => exact mem_append_right _ listed
      have formed' := formed c among a (mem_append_right _ listed')
      obtain rfl : a = d := internalName_injective formed' here (name.2.trans named)
      rw [absent] at known
      cases known

/-- Two classes that record a class of the program have the same record of it, or it is
linked to two classes and each record names one of them. -/
theorem records_agree (formed : WellNamed p) {c c' : Register.Class} (one : c ∈ p.classes)
    (other : c' ∈ p.classes) {d : String} (known : ((Relations.ofProgram p).lookup? d).isSome = true)
    {x y : InnerClass} (recorded : x ∈ (nestOf (.ofProgram p) c).records)
    (recorded' : y ∈ (nestOf (.ofProgram p) c').records) (named : x.name = internalName d)
    (named' : y.name = internalName d) :
    x = y ∨ ∃ o o', o ≠ o' ∧ (d, o) ∈ p.classes.flatMap links ∧ (d, o') ∈ p.classes.flatMap links ∧
      x.outerName = some (internalName o) ∧ y = { x with outerName := some (internalName o') } := by
  obtain ⟨x₀, found, rfl⟩ := mem_nestOf_records.1 recorded
  obtain ⟨y₀, found', rfl⟩ := mem_nestOf_records.1 recorded'
  rw [demoted_name] at named named'
  obtain ⟨o, link, rfl⟩ := collected_known formed one known (List.mem_of_find?_eq_some found) named
  obtain ⟨o', link', rfl⟩ := collected_known formed other known (List.mem_of_find?_eq_some found') named'
  by_cases same : o = o'
  · exact .inl (by rw [same])
  · exact (demoted_record (ownOf p.classes d) d o o').imp id fun ⟨outer, rest⟩ =>
      ⟨o, o', same, link, link', outer, rest⟩

/-- A class that two others list as their member. -/
def sharedMember : Program where
  version := 35
  classes :=
    [listing "La/A;", listing "La/B;", { plain "La/X;" with
        annotations := [⟨.system, ⟨"Ldalvik/annotation/InnerClass;",
          [⟨"name", .string "X"⟩, ⟨"accessFlags", .int 1⟩]⟩⟩] }]
where
  plain (name : String) : Register.Class := ⟨1, name, some "Ljava/lang/Object;", [], none, [], [], []⟩
  listing (name : String) : Register.Class :=
    { plain name with
      annotations := [⟨.system, ⟨"Ldalvik/annotation/MemberClasses;",
        [⟨"value", .array [.type "La/X;"]⟩]⟩⟩] }

/-- The member keeps its first outer class there, and has the second one as its own. -/
theorem records_of_shared_member :
    let a : InnerClass := ⟨"a/X", some "a/A", some "X", 1⟩
    let b : InnerClass := ⟨"a/X", some "a/B", some "X", 1⟩
    a ∈ (nestOf (.ofProgram sharedMember) (sharedMember.listing "La/A;")).records ∧
      b ∈ (nestOf (.ofProgram sharedMember) (sharedMember.listing "La/B;")).records ∧
      ∃ o o', o ≠ o' ∧ ("La/X;", o) ∈ sharedMember.classes.flatMap links ∧
        ("La/X;", o') ∈ sharedMember.classes.flatMap links ∧
        a.outerName = some (internalName o) ∧ b = { a with outerName := some (internalName o') } := by
  intro a b
  have inA : a ∈ (nestOf (.ofProgram sharedMember) (sharedMember.listing "La/A;")).records := by
    decide +kernel
  have inB : b ∈ (nestOf (.ofProgram sharedMember) (sharedMember.listing "La/B;")).records := by
    decide +kernel
  have agree := records_agree (p := sharedMember) (by decide +kernel) (.head _) (.tail _ (.head _))
    (d := "La/X;") (by decide +kernel) inA inB (by decide +kernel) (by decide +kernel)
  exact ⟨inA, inB, agree.resolve_left (by decide)⟩

end Restack.Nesting
