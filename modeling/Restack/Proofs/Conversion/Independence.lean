/-
# Methods are converted independently

Two classes that agree in name, access and annotations convert a method that both have alike,
wherever it stands and whatever stands beside it (`methods_independent`). Its body depends on the
order in which its own blocks are closed, and on no other method's.
-/
import Restack.Proofs.Conversion.Renaming

namespace Restack.Conversion

open Lowering (Recalled)
open Nesting (Relations)
open List Restack.Outcome
open Register (MethodRef)
open Stack (Body)

/-- The same code but for calls, which go to `d` on the one side and to `d'` on the other. -/
structure BodyRenamed (d d' : MethodRef) (body body' : Body) : Prop where
  tryCatches : body.tryCatches = body'.tryCatches
  instructions : List.Forall₂ (fun x y => x = y ∨ Recalled d d' x y) body.instructions body'.instructions

/-- The same method but for such calls. -/
structure MethodRenamed (d d' : MethodRef) (x y : Stack.Method) : Prop where
  rest : y = { x with code := y.code }
  code : Option.Rel (BodyRenamed d d') x.code y.code

/-- A converted class with its methods in order, once each, the helpers behind them, and the
failures of the bodies that cannot be converted. -/
structure Stands (s : Setting) (tag : UInt32) (c : Register.Class) (out : ConvertedClass) : Prop where
  headers : (out.file.methods.take (wantedMethods s c).length).map (·.header) =
    (wantedMethods s c).map methodHeader
  helpers : out.file.methods.drop (wantedMethods s c).length = helperMethods s.wantsMethod
    { freshHelpers s tag c with used := (wantedMethods s c).any (rebuilds s) }
  failures : out.failures = (wantedMethods s c).filterMap (memberFailure? s tag c)

variable {s : Setting} {tag tag' : UInt32} {c c' : Register.Class} {m : Register.Method}

lemma BodyAlike.renamed {d d' flag body body'}
    (alike : BodyAlike d d' flag body body') : BodyRenamed d d' body body' :=
  ⟨alike.tryCatches, alike.instructions.forall₂⟩

lemma BodyRenamed.refl {d d'} (body : Body) : BodyRenamed d d' body body :=
  (BodyAlike.refl body).renamed

lemma declaration_congr (access : c'.access = c.access) (annotations : c'.annotations = c.annotations) :
    declaration c' m = declaration c m := by
  unfold declaration elementDefault? Register.Class.annotationDefault?
  rw [access, annotations]

lemma withBody_renamed {d d' body body'} (both : Both (BodyRenamed d d') body body') :
    Both (fun out out' => MethodRenamed d d' out.method out'.method)
      (withBody s.options c m (some body)) (withBody s.options c m (some body')) := by
  cases both with
  | ok renamed => exact .ok ⟨rfl, .some renamed⟩
  | error e =>
    refine .refl (fun out => ⟨rfl, ?_⟩) _
    cases out.method.code with
    | none => exact .none
    | some body => exact .some (.refl body)

lemma emission_renamed (s : Setting) (tag tag' : UInt32) (m : Register.Method)
    (access : c'.access = c.access) (annotations : c'.annotations = c.annotations) :
    Both (fun out out' => MethodRenamed (decoderRef s tag c m.ref.owner) (decoderRef s tag' c' m.ref.owner)
      out.method out'.method) (emission s tag c m) (emission s tag' c' m) := by
  have same (body : Option (Except Failure Body)) :
      withBody s.options c' m body = withBody s.options c m body := by
    unfold withBody
    rw [declaration_congr access annotations]
  rw [emission_eq, emission_eq, same]
  cases m.code with
  | none => exact .ok ⟨rfl, .none⟩
  | some code =>
    exact withBody_renamed ((translation_alike s tag tag' c c' m code).mono fun _ _ => BodyAlike.renamed)

lemma bodyFailure?_congr (tag tag' : UInt32) (c c' : Register.Class) :
    bodyFailure? s tag c m = bodyFailure? s tag' c' m := by
  unfold bodyFailure?
  congr 1
  funext code
  have both := translation_alike s tag tag' c c' m code
  generalize translation s tag c m code = x at both
  generalize translation s tag' c' m code = y at both
  cases both <;> rfl

lemma convertClass_stands {version r out}
    (made : convertClass s version r tag c = .ok out) : Stands s tag c out ∧
      ∀ (i : Nat) m, (wantedMethods s c)[i]? = some m →
        ∃ x, emission s tag c m = .ok x ∧ out.file.methods[i]? = some x.method := by
  have failures := convertClass_failures made
  rw [convertClass_eq] at made
  obtain ⟨done, emitted, rfl⟩ := map_ok.1 made
  have each := emissions_ok.1 emitted
  have length : (done.map (·.2.method)).length = (wantedMethods s c).length := by
    rw [length_map, each.length_eq]
  refine ⟨⟨?_, ?_, failures⟩, fun i m at_ => ?_⟩
  · rw [← length]
    dsimp only [assembled]
    rw [take_left]
    clear failures length emitted made
    generalize wantedMethods s c = ms at each
    induction each with
    | nil => rfl
    | cons first _ ih =>
      rw [map_cons, map_cons, ih]
      rw [emission_eq] at first
      exact congrArg (· :: _) (withBody_ok first.1).1
  · rw [← length]
    exact drop_left
  · obtain ⟨inside, rfl⟩ := List.getElem?_eq_some_iff.1 at_
    have inside' : i < done.length := each.length_eq ▸ inside
    have here := (forall₂_iff_get.1 each).2 i inside inside'
    refine ⟨done[i].2, here.1, ?_⟩
    dsimp only [assembled]
    rw [getElem?_append_left (by rwa [length_map]), getElem?_map, getElem?_eq_getElem inside']
    rfl

/-- The same setting with another order for the blocks of each method. -/
def Setting.closedBy (s : Setting) (closing : Closing) : Setting :=
  { s with options := { s.options with closing } }

section Closing

variable {closing : Closing} (same : closing.order m = s.options.closing.order m)

include same

lemma translation_closedBy : translation (s.closedBy closing) tag c m = translation s tag c m := by
  funext code
  unfold translation convertBody bodyCode normalForm
  rw [← same]
  rfl

lemma emission_closedBy : emission (s.closedBy closing) tag c m = emission s tag c m := by
  rw [emission_eq, emission_eq, translation_closedBy same]
  rfl

lemma memberFailure?_closedBy : memberFailure? (s.closedBy closing) tag c m = memberFailure? s tag c m := by
  rw [memberFailure?, memberFailure?, bodyFailure?, bodyFailure?, translation_closedBy same]

end Closing

/-- All of a method but its code is in its declaration. -/
lemma emission_declares {out} (made : emission s tag c m = .ok out) :
    out.method = { declaration c m with code := out.method.code } := by
  rw [emission_eq] at made
  unfold withBody at made
  split at made
  · cases made
    rfl
  · cases made
    rfl
  · split at made <;> cases made
    cases s.options.stubFailures <;> rfl

/-- A class is converted unless one of its own bodies ends the conversion, and then its methods
stand in order before the helpers. Wherever a method stands in two such classes, it is the same
but for its code; and if its blocks are closed in the same order, the code is the same but for the
decoder's name, and it fails in both or in neither. -/
theorem methods_independent (s : Setting) (closing : Closing) {c c' : Register.Class}
    (name : c'.name = c.name) (access : c'.access = c.access) (annotations : c'.annotations = c.annotations)
    (version version' : Nat) (r r' : Relations) (tag tag' : UInt32) :
    ((∃ out, convertClass s version r tag c = .ok out) ↔ ∀ m ∈ wantedMethods s c, ¬ Aborts s tag c m) ∧
    (∀ m, closing.order m = s.options.closing.order m →
      memberFailure? s tag c m = memberFailure? (s.closedBy closing) tag' c' m) ∧
    ∀ out out', convertClass s version r tag c = .ok out →
      convertClass (s.closedBy closing) version' r' tag' c' = .ok out' →
      Stands s tag c out ∧ Stands (s.closedBy closing) tag' c' out' ∧
      ∀ (i j : Nat) m, (wantedMethods s c)[i]? = some m → (wantedMethods s c')[j]? = some m →
        ∃ x y, out.file.methods[i]? = some x ∧ out'.file.methods[j]? = some y ∧
          y = { x with code := y.code } ∧ (closing.order m = s.options.closing.order m →
            MethodRenamed (decoderRef s tag c m.ref.owner) (decoderRef s tag' c' m.ref.owner) x y) := by
  refine ⟨convertClass_isOk version r tag, fun m same => ?_, fun out out' made made' => ?_⟩
  · rw [memberFailure?_closedBy same, memberFailure?, memberFailure?, bodyFailure?_congr tag tag' c c', name]
  · obtain ⟨stands, at_⟩ := convertClass_stands made
    obtain ⟨stands', at_'⟩ := convertClass_stands made'
    refine ⟨stands, stands', fun i j m here here' => ?_⟩
    obtain ⟨x, emitted, found⟩ := at_ i m here
    obtain ⟨y, emitted', found'⟩ := at_' j m here'
    refine ⟨x.method, y.method, found, found', ?_, fun same => ?_⟩
    · have declared := emission_declares emitted'
      rw [declaration_congr access annotations] at declared
      rw [emission_declares emitted]
      exact declared
    · have both := emission_renamed s tag tag' m access annotations
      rw [emission_closedBy same] at emitted'
      rw [emitted, emitted'] at both
      cases both with
      | ok renamed => exact renamed

/-- Returns a string of eight letters. -/
def greeting : Register.Method where
  access := 8
  ref := ⟨"LGreeting;", "greet", "()Ljava/lang/String;"⟩
  code := some
    { registers := 1
      instructions := [.constString 0 "abcdefgh", .returnValue .object 0]
      tries := [] }

/-- Returns such a string where nothing may be returned. -/
def brokenGreeting : Register.Method :=
  { greeting with ref := ⟨"LGreeting;", "greet", "()V"⟩ }

def greetingClass (methods : List Register.Method) : Register.Class where
  name := "LGreeting;"
  access := 1
  superclass := some "Ljava/lang/Object;"
  methods := methods

/-- Strings of more than four bytes are rebuilt. -/
def shortStrings : Setting := { options := { maxStringLength := 4 } }

/-- A greeting is the same behind a broken one as alone, but for the decoder. -/
theorem greeting_independent : ∃ out out' x y,
    convertClass shortStrings 35 .empty 1 (greetingClass [brokenGreeting, greeting]) = .ok out ∧
    convertClass shortStrings 35 .empty 2 (greetingClass [greeting]) = .ok out' ∧
    out.file.methods[1]? = some x ∧ out'.file.methods[0]? = some y ∧
    MethodRenamed (decoderRef shortStrings 1 (greetingClass [brokenGreeting, greeting]) "LGreeting;")
      (decoderRef shortStrings 2 (greetingClass [greeting]) "LGreeting;") x y := by
  have ok : (convertClass shortStrings 35 .empty 1 (greetingClass [brokenGreeting, greeting])).isOk = true := by
    decide +kernel
  have ok' : (convertClass shortStrings 35 .empty 2 (greetingClass [greeting])).isOk = true := by
    decide +kernel
  obtain ⟨out, made⟩ := exists_of_isOk ok
  obtain ⟨out', made'⟩ := exists_of_isOk ok'
  have named : (greetingClass [greeting]).name = (greetingClass [brokenGreeting, greeting]).name := rfl
  obtain ⟨-, -, each⟩ := methods_independent shortStrings shortStrings.options.closing named rfl rfl
    35 35 .empty .empty 1 2
  obtain ⟨x, y, found, found', -, renamed⟩ := (each out out' made made').2.2 1 0 greeting rfl rfl
  exact ⟨out, out', x, y, made, made', found, found', renamed rfl⟩

end Restack.Conversion
