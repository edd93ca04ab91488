/-
# Helpers and the calls of them

A class has the decoder's methods behind its own just when a string of some body was rebuilt, and
every call that was put into a body finds a helper (`helpers_match_calls`). What was put into a
body shows when the class is converted under another tag, since nothing but the names of helpers
depends on the tag.
-/
import Restack.Proofs.Conversion.Independence

namespace Restack.Conversion

open LongString (decoder decodeString decodeStringDescriptor ClassHelpers)
open Nesting (Relations)
open List Restack.Outcome
open Register (MethodRef)
open Signature (internalName)
open Stack (Instruction)

def codeAt? (x : Stack.Method) (i : Nat) : Option Instruction := x.code.bind (·.instructions[i]?)

/-- Instruction number `i` of method number `k`. -/
def instruction? (out : ConvertedClass) (k i : Nat) : Option Instruction :=
  out.file.methods[k]?.bind (codeAt? · i)

/-- The instruction at this place was put into a method of the class by the conversion: under
some other tag it is another one. -/
structure Inserted (s : Setting) (version : Nat) (r : Relations) (tag : UInt32) (c : Register.Class)
    (k i : Nat) (x : Instruction) : Prop where
  own : k < c.methods.length
  here : ∃ out, convertClass s version r tag c = .ok out ∧ instruction? out k i = some x
  elsewhere : ∃ tag' out, convertClass s version r tag' c = .ok out ∧ instruction? out k i ≠ some x

/-- The strings of a body were rebuilt, but it could not be lowered. -/
def RebuiltInVain (s : Setting) (tag : UInt32) (c : Register.Class) (m : Register.Method) : Prop :=
  rebuilds s m = true ∧ (bodyFailure? s tag c m).isSome = true

/-- The methods behind those of the class itself. -/
def appendedHelpers (c : Register.Class) (out : ConvertedClass) : List Stack.Method :=
  out.file.methods.drop c.methods.length

variable {s : Setting} {version : Nat} {r : Relations} {tag tag' : UInt32} {c : Register.Class}
  {m : Register.Method} {out out' : ConvertedClass}

/-! ## Bodies -/

lemma decoderRef_other (tag : UInt32) (owner : String) :
    ∃ tag', decoderRef s tag c owner ≠ decoderRef s tag' c owner := by
  have differ : decoderRef s 0 c owner ≠ decoderRef s 1 c owner := by
    intro same
    have names : (ClassHelpers.mk "" none 0 false).helperName decodeString =
        (ClassHelpers.mk "" none 1 false).helperName decodeString := congrArg (·.name) same
    exact absurd names (by decide +kernel)
  by_cases same : decoderRef s tag c owner = decoderRef s 0 c owner
  · exact ⟨1, same ▸ differ⟩
  · exact ⟨0, same⟩

/-- The call of the decoder in the methods of an owner. -/
def decoderCall (s : Setting) (tag : UInt32) (c : Register.Class) (owner : String) : Instruction :=
  .method .invokestatic (internalName owner) ((freshHelpers s tag c).helperName decodeString)
    decodeStringDescriptor false

/-- What a method has at a place where it differs under two tags. -/
lemma emission_differs {x x'} (made : emission s tag c m = .ok x)
    (made' : emission s tag' c m = .ok x') {i} (differ : codeAt? x.method i ≠ codeAt? x'.method i) :
    rebuilds s m = true ∧ bodyFailure? s tag c m = none ∧
      codeAt? x.method i = some (decoderCall s tag c m.ref.owner) := by
  cases has : m.code with
  | none =>
    rw [emission_eq, has] at made made'
    cases made
    cases made'
    exact absurd rfl differ
  | some code =>
    have both := translation_alike s tag tag' c c m code
    have failure : bodyFailure? s tag c m = failure? (translation s tag c m code) := by
      rw [bodyFailure?, has, Option.bind_some]
    rw [rebuilds, has, failure]
    rw [emission_eq, has, Option.map_some] at made made'
    generalize translation s tag c m code = body at both made
    generalize translation s tag' c m code = body' at both made'
    cases both with
    | error e =>
      cases made.symm.trans made'
      exact absurd rfl differ
    | ok alike =>
      cases made
      cases made'
      refine ⟨?_, rfl, ?_⟩
      · by_contra same
        have equal := alike.instructions.eq (Bool.eq_false_iff.2 same)
        exact differ (congrArg (·[i]?) equal)
      · rcases alike.instructions.place i with equal | ⟨x, y, here, -, calls⟩
        · exact absurd equal differ
        · exact here.trans (congrArg some calls.1)

lemma emission_differs_of_rebuilds {x} (made : emission s tag c m = .ok x)
    (rebuilt : rebuilds s m = true) (converted : bodyFailure? s tag c m = none) :
    ∃ tag' i y, codeAt? x.method i = some y ∧
      ∀ x', emission s tag' c m = .ok x' → codeAt? x'.method i ≠ some y := by
  obtain ⟨code, has, rebuilt⟩ := (Option.any_eq_true _ _).1 rebuilt
  obtain ⟨tag', other⟩ := decoderRef_other (s := s) (c := c) tag m.ref.owner
  have both := translation_alike s tag tag' c c m code
  rw [rebuilt] at both
  rw [bodyFailure?, has, Option.bind_some] at converted
  refine ⟨tag', ?_⟩
  rw [emission_eq, has, Option.map_some] at made
  simp only [emission_eq, has, Option.map_some]
  generalize translation s tag c m code = body at both made converted
  generalize translation s tag' c m code = body' at both
  cases both with
  | error e => cases converted
  | ok alike =>
    cases made
    obtain ⟨i, y, z, here, there, calls⟩ := alike.instructions.exists_place rfl
    refine ⟨i, y, here, fun x' made' same => ?_⟩
    cases made'
    have equal : decoderCall s tag c m.ref.owner = decoderCall s tag' c m.ref.owner :=
      calls.1.symm.trans ((Option.some.inj (same.symm.trans there)).trans calls.2)
    have names : (decoderRef s tag c m.ref.owner).name = (decoderRef s tag' c m.ref.owner).name := by
      injection equal
    exact other (congrArg (MethodRef.mk m.ref.owner · decodeStringDescriptor) names)

/-! ## Classes -/

/-- The name and descriptor of a method. -/
def keyOf (x : Stack.Method) : String × String := (x.header.name, x.header.descriptor)

/-- The names and descriptors of the decoder's methods in a class. -/
def decoderKeys (s : Setting) (tag : UInt32) (c : Register.Class) : List (String × String) :=
  decoder.methods.map fun t => ((freshHelpers s tag c).helperName t.name, t.descriptor)

section Classes

variable (builtin : s.templates = LongString.builtin) (all : ∀ offer, s.wantsMethod offer = true)
include builtin all

omit builtin in
lemma wantedMethods_eq : wantedMethods s c = c.methods := by
  rw [wantedMethods, filter_eq_self]
  intro m _
  exact all _

lemma helperMethods_keys (used : Bool) :
    (helperMethods s.wantsMethod { freshHelpers s tag c with used }).map keyOf =
      if used then decoderKeys s tag c else [] := by
  have template : (freshHelpers s tag c).template = some decoder := by
    rw [freshHelpers, builtin]
    rfl
  cases used with
  | false => simp [helperMethods, ClassHelpers.methods, template]
  | true =>
    simp only [helperMethods, template, all]
    rfl

lemma appendedHelpers_keys (made : convertClass s version r tag c = .ok out) :
    (appendedHelpers c out).map keyOf = if c.methods.any (rebuilds s) then decoderKeys s tag c else [] := by
  have stands := (convertClass_stands made).1.helpers
  rw [wantedMethods_eq all] at stands
  rw [appendedHelpers, stands, helperMethods_keys builtin all]

omit builtin in
lemma Inserted.call {k i : Nat} {x : Instruction} (inserted : Inserted s version r tag c k i x) :
    ∃ m, c.methods[k]? = some m ∧ rebuilds s m = true ∧ bodyFailure? s tag c m = none ∧
      x = decoderCall s tag c m.ref.owner := by
  obtain ⟨own, ⟨out, made, here⟩, tag', out', made', other⟩ := inserted
  have found : (wantedMethods s c)[k]? = some c.methods[k] := by
    rw [wantedMethods_eq all, getElem?_eq_getElem own]
  obtain ⟨y, emitted, at_⟩ := (convertClass_stands made).2 k _ found
  obtain ⟨y', emitted', at_'⟩ := (convertClass_stands made').2 k _ found
  rw [instruction?, at_] at here
  rw [instruction?, at_'] at other
  obtain ⟨rebuilt, converted, call⟩ := emission_differs emitted emitted' (here ▸ other.symm)
  exact ⟨_, getElem?_eq_getElem own, rebuilt, converted, Option.some.inj (here.symm.trans call)⟩

omit builtin in
lemma inserted_of_rebuilds (made : convertClass s version r tag c = .ok out) (mem : m ∈ c.methods)
    (rebuilt : rebuilds s m = true) (converted : bodyFailure? s tag c m = none) :
    ∃ k i x, Inserted s version r tag c k i x := by
  obtain ⟨k, own, rfl⟩ := getElem_of_mem mem
  have found : (wantedMethods s c)[k]? = some c.methods[k] := by
    rw [wantedMethods_eq all, getElem?_eq_getElem own]
  obtain ⟨y, emitted, at_⟩ := (convertClass_stands made).2 k _ found
  obtain ⟨tag', i, x, here, other⟩ := emission_differs_of_rebuilds emitted rebuilt converted
  have calm := (convertClass_isOk version r tag).1 ⟨out, made⟩
  obtain ⟨out', made'⟩ := (convertClass_isOk version r tag').2
    fun m wanted aborts => calm m wanted (by rwa [Aborts, bodyFailure?_congr tag tag' c c])
  obtain ⟨y', emitted', at_'⟩ := (convertClass_stands made').2 k _ found
  refine ⟨k, i, x, own, ⟨out, made, ?_⟩, tag', out', made', ?_⟩
  · rw [instruction?, at_, Option.bind_some, here]
  · rw [instruction?, at_']
    exact other y' emitted'

/-- The helpers of a class stand behind its methods, each of the decoder's once, just when some
body has a call put into it or lost one in failing. Every call that was put into a body has the
name and descriptor of a helper, and the class as owner where the method names the class. -/
theorem helpers_match_calls (made : convertClass s version r tag c = .ok out) :
    (appendedHelpers c out ≠ [] → (appendedHelpers c out).map keyOf = decoderKeys s tag c) ∧
    (appendedHelpers c out ≠ [] ↔
      (∃ k i x, Inserted s version r tag c k i x) ∨ ∃ m ∈ c.methods, RebuiltInVain s tag c m) ∧
    ∀ k i x, Inserted s version r tag c k i x → ∃ m, c.methods[k]? = some m ∧
      ∃ h ∈ appendedHelpers c out, ∃ owner,
        x = .method .invokestatic owner h.header.name h.header.descriptor false ∧
        (m.ref.owner = c.name → owner = internalName c.name) := by
  have keys := appendedHelpers_keys builtin all made
  have appended : appendedHelpers c out ≠ [] ↔ c.methods.any (rebuilds s) = true := by
    rw [ne_eq, ← List.map_eq_nil_iff (f := keyOf), keys]
    cases c.methods.any (rebuilds s) <;> simp [decoderKeys, decoder]
  refine ⟨fun some_ => ?_, ?_, fun k i x inserted => ?_⟩
  · rw [keys, if_pos (appended.1 some_)]
  · rw [appended, List.any_eq_true]
    constructor
    · rintro ⟨m, member, rebuilt⟩
      cases failed : bodyFailure? s tag c m with
      | none => exact .inl (inserted_of_rebuilds all made member rebuilt failed)
      | some e => exact .inr ⟨m, member, rebuilt, by rw [failed]; rfl⟩
    · rintro (⟨k, i, x, inserted⟩ | ⟨m, member, rebuilt, -⟩)
      · obtain ⟨m, at_, rebuilt, -⟩ := inserted.call all
        exact ⟨m, List.mem_of_getElem? at_, rebuilt⟩
      · exact ⟨m, member, rebuilt⟩
  · obtain ⟨m, at_, rebuilt, -, rfl⟩ := inserted.call all
    have used : c.methods.any (rebuilds s) = true :=
      List.any_eq_true.2 ⟨m, List.mem_of_getElem? at_, rebuilt⟩
    rw [if_pos used] at keys
    have key : ((freshHelpers s tag c).helperName decodeString, decodeStringDescriptor) ∈
        (appendedHelpers c out).map keyOf := keys ▸ List.mem_cons_self
    obtain ⟨h, member, same⟩ := List.mem_map.1 key
    obtain ⟨name, descriptor⟩ := Prod.mk.inj same
    refine ⟨m, at_, h, member, internalName m.ref.owner, ?_, fun own => by rw [own]⟩
    rw [name, descriptor, decoderCall]

end Classes

/-- A greeting has its helpers behind it, and its call finds one. -/
theorem greeting_calls_helper : ∃ out k i x h,
    convertClass shortStrings 35 .empty 1 (greetingClass [greeting]) = .ok out ∧
    Inserted shortStrings 35 .empty 1 (greetingClass [greeting]) k i x ∧
    h ∈ appendedHelpers (greetingClass [greeting]) out ∧
    x = .method .invokestatic "Greeting" h.header.name h.header.descriptor false := by
  have ok : (convertClass shortStrings 35 .empty 1 (greetingClass [greeting])).isOk = true := by
    decide +kernel
  have rebuilt : rebuilds shortStrings greeting = true := by decide +kernel
  have converted : (bodyFailure? shortStrings 1 (greetingClass [greeting]) greeting).isNone = true := by
    decide +kernel
  obtain ⟨out, made⟩ := exists_of_isOk ok
  obtain ⟨-, -, calls⟩ := helpers_match_calls rfl (fun _ => rfl) made
  obtain ⟨k, i, x, inserted⟩ := inserted_of_rebuilds (fun _ => rfl) made List.mem_cons_self rebuilt
    (Option.isNone_iff_eq_none.1 converted)
  obtain ⟨m, at_, h, member, owner, call, own⟩ := calls k i x inserted
  obtain rfl : m = greeting := by simpa [greetingClass] using List.mem_of_getElem? at_
  have named : internalName (greetingClass [greeting]).name = "Greeting" := by decide
  rw [own rfl, named] at call
  exact ⟨out, k, i, x, h, made, inserted, member, call⟩

/-- A greeting that could not be lowered leaves helpers behind that no body calls. -/
theorem brokenGreeting_leaves_helpers : ∃ out,
    convertClass shortStrings 35 .empty 1 (greetingClass [brokenGreeting]) = .ok out ∧
    appendedHelpers (greetingClass [brokenGreeting]) out ≠ [] ∧
    ¬ ∃ k i x, Inserted shortStrings 35 .empty 1 (greetingClass [brokenGreeting]) k i x := by
  have ok : (convertClass shortStrings 35 .empty 1 (greetingClass [brokenGreeting])).isOk = true := by
    decide +kernel
  have rebuilt : rebuilds shortStrings brokenGreeting = true := by decide +kernel
  have failed : (bodyFailure? shortStrings 1 (greetingClass [brokenGreeting]) brokenGreeting).isSome =
      true := by decide +kernel
  obtain ⟨out, made⟩ := exists_of_isOk ok
  refine ⟨out, made, ?_, ?_⟩
  · intro none_
    have keys := appendedHelpers_keys rfl (fun _ => rfl) made
    rw [none_, if_pos (by simpa [greetingClass] using rebuilt)] at keys
    cases keys
  · rintro ⟨k, i, x, inserted⟩
    obtain ⟨m, at_, -, converted, -⟩ := inserted.call fun _ => rfl
    obtain rfl : m = brokenGreeting := by
      simpa [greetingClass] using List.mem_of_getElem? at_
    rw [converted] at failed
    cases failed

end Restack.Conversion
