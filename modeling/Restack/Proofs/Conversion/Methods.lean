/-
# Methods one at a time

What a class knows of its helpers is settled before its first method, but for whether a helper is
called, and no conversion looks at that. So the methods of a class are what each of them gives
alone (`convertMethods_eq`), behind them the helpers if the strings of some body were rebuilt
(`convertClass_eq`).
-/
import Restack.Conversion.Class
import Restack.Proofs.Outcome

namespace Restack.Conversion

open LongString (ClassHelpers hasLongString decoderTemplate)
open Nesting (Relations)
open List Restack.Outcome
open Signature (internalName)

/-- What a class knows of its helpers before its first method. -/
def freshHelpers (s : Setting) (tag : UInt32) (c : Register.Class) : ClassHelpers :=
  .ofClass (internalName c.name) s.templates tag

/-- The body of a method that is converted alone. -/
def translation (s : Setting) (tag : UInt32) (c : Register.Class) (m : Register.Method)
    (code : Register.Code) : Except Failure Stack.Body :=
  (convertBody s.options (freshHelpers s tag c) m code).2

/-- A method that is converted alone. -/
def emission (s : Setting) (tag : UInt32) (c : Register.Class) (m : Register.Method) :
    Except Failure ConvertedMethod :=
  (convertMethod s.options c (freshHelpers s tag c) m).map (·.2)

/-- Whether a body in normal form has a string that is rebuilt. -/
def rebuildsForm (s : Setting) (ir : Ir.Method) : Bool :=
  s.options.splitStrings && (hasLongString ir s.options.maxStringLength &&
    (s.templates decoderTemplate).isSome)

/-- Whether strings of a body are rebuilt. -/
def rebuildsBody (s : Setting) (m : Register.Method) (code : Register.Code) : Bool :=
  (normalForm s.options m code).toOption.any (rebuildsForm s)

/-- Whether strings of a method are rebuilt. -/
def rebuilds (s : Setting) (m : Register.Method) : Bool := m.code.any (rebuildsBody s m)

/-- The methods that the receiver takes. -/
def wantedMethods (s : Setting) (c : Register.Class) : List Register.Method :=
  c.methods.filter fun m => s.wantsMethod ⟨methodHeader m⟩

/-! ## Helpers that are called -/

lemma rebuildStrings_used (h : ClassHelpers) (used : Bool) (m : Ir.Method) (limit : Nat) :
    ClassHelpers.rebuildStrings { h with used } m limit =
      ({ h with used := used || (hasLongString m limit && h.template.isSome) },
        (h.rebuildStrings m limit).2) := by
  unfold ClassHelpers.rebuildStrings ClassHelpers.isEnabled
  by_cases long : (hasLongString m limit && h.template.isSome) = true
  · rw [long, Bool.or_true]
    rfl
  · rw [if_neg long, if_neg long, Bool.eq_false_iff.2 long, Bool.or_false]

variable {s : Setting} {tag : UInt32} {c : Register.Class} {m : Register.Method}

lemma bodyCode_used (code : Register.Code) (used : Bool) :
    bodyCode s.options { freshHelpers s tag c with used } m code = ({ freshHelpers s tag c with
          used := used || rebuildsBody s m code }, (bodyCode s.options (freshHelpers s tag c) m code).2) := by
  unfold bodyCode rebuildsBody
  cases normalForm s.options m code with
  | error e => simp [Except.toOption]
  | ok ir =>
    cases split : s.options.splitStrings with
    | false => simp [Except.toOption, rebuildsForm, split]
    | true =>
      simp only [rebuildStrings_used, Except.toOption, Option.any_some, rebuildsForm, split,
        Bool.true_and, if_true]
      rfl

/-- What a method gives with the outcome of its body, if it has one. -/
def withBody (options : Options) (c : Register.Class) (m : Register.Method) :
    Option (Except Failure Stack.Body) → Except Failure ConvertedMethod
  | none => .ok ⟨declaration c m, none⟩
  | some (.ok body) => .ok ⟨(declaration c m).addCode body, none⟩
  | some (.error e) =>
    if e.aborts then .error e
    else .ok ⟨if options.stubFailures then (declaration c m).addCode (failureStub e)
      else declaration c m, some e⟩

lemma convertMethod_none (helpers : ClassHelpers) (bare : m.code = none) :
    convertMethod s.options c helpers m = (withBody s.options c m none).map (helpers, ·) := by
  unfold convertMethod
  rw [bare]
  rfl

lemma convertMethod_some (helpers : ClassHelpers) {code} (has : m.code = some code) :
    convertMethod s.options c helpers m =
      (withBody s.options c m (some (convertBody s.options helpers m code).2)).map
        ((convertBody s.options helpers m code).1, ·) := by
  unfold convertMethod
  rw [has]
  dsimp only
  generalize convertBody s.options helpers m code = made
  obtain ⟨after, ⟨e⟩ | body⟩ := made
  · simp only [withBody]
    split <;> rfl
  · rfl

lemma emission_eq : emission s tag c m = withBody s.options c m (m.code.map (translation s tag c m)) := by
  rw [emission]
  cases has : m.code with
  | none =>
    rw [convertMethod_none _ has]
    rfl
  | some code =>
    rw [convertMethod_some _ has, Option.map_some, translation]
    cases withBody s.options c m (some (convertBody s.options (freshHelpers s tag c) m code).2) <;> rfl

lemma convertMethod_used (used : Bool) : convertMethod s.options c { freshHelpers s tag c with used } m =
      (emission s tag c m).map fun out =>
        ({ freshHelpers s tag c with used := used || rebuilds s m }, out) := by
  rw [emission_eq]
  cases has : m.code with
  | none =>
    rw [convertMethod_none _ has, rebuilds, has, Option.any_none, Bool.or_false]
    rfl
  | some code =>
    rw [convertMethod_some _ has, rebuilds, has, convertBody, bodyCode_used]
    rfl

/-! ## What a method gives alone -/

/-- The form that is lowered: a normal form with its long strings rebuilt. -/
def loweredForm (s : Setting) (tag : UInt32) (c : Register.Class) (ir : Ir.Method) : Ir.Method :=
  if s.options.splitStrings then
    ((freshHelpers s tag c).rebuildStrings ir s.options.maxStringLength).2.1
  else ir

lemma translation_eq (code : Register.Code) : translation s tag c m code = (normalForm s.options m code >>= fun ir =>
      (Lowering.lower (loweredForm s tag c ir)).mapError (·.inStage "lower")).mapError
        (·.within ("method " ++ m.ref.text)) := by
  unfold translation convertBody bodyCode loweredForm
  cases normalForm s.options m code with
  | error e => rfl
  | ok ir => cases s.options.splitStrings <;> rfl

/-- The failure of an attempt. -/
def failure? {α : Type} : Except Failure α → Option Failure
  | .ok _ => none
  | .error e => some e

/-- Why the body of a method cannot be converted. -/
def bodyFailure? (s : Setting) (tag : UInt32) (c : Register.Class) (m : Register.Method) :
    Option Failure :=
  m.code.bind fun code => failure? (translation s tag c m code)

/-- The body of a method ends the conversion of the program. -/
def Aborts (s : Setting) (tag : UInt32) (c : Register.Class) (m : Register.Method) : Prop :=
  ∃ e, bodyFailure? s tag c m = some e ∧ e.aborts = true

lemma withBody_ok {out body} (made : withBody s.options c m body = .ok out) :
    out.method.header = methodHeader m ∧ out.failure = body.bind failure? ∧ ∀ b, out.method.code = some b →
        body = some (.ok b) ∨ ∃ e, body = some (.error e) ∧ b = failureStub e := by
  unfold withBody at made
  split at made
  · cases made
    exact ⟨rfl, rfl, nofun⟩
  · cases made
    refine ⟨rfl, rfl, fun b coded => .inl ?_⟩
    cases coded
    rfl
  · split at made
    · cases made
    · cases made
      refine ⟨by cases s.options.stubFailures <;> rfl, rfl, fun b coded => .inr ⟨_, rfl, ?_⟩⟩
      split at coded <;> cases coded
      rfl

lemma withBody_isOk {body} : (∃ out, withBody s.options c m body = .ok out) ↔
      ∀ e, body.bind failure? = some e → e.aborts = false := by
  unfold withBody
  split
  · simp
  · simp [failure?]
  · rename_i e
    cases aborts : e.aborts <;> simp [failure?, aborts]

lemma emission_ok {out} (made : emission s tag c m = .ok out) : out.failure = bodyFailure? s tag c m := by
  rw [emission_eq] at made
  rw [(withBody_ok made).2.1, bodyFailure?]
  cases m.code <;> rfl

lemma emission_isOk : (∃ out, emission s tag c m = .ok out) ↔ ¬ Aborts s tag c m := by
  have same : (m.code.map (translation s tag c m)).bind failure? = bodyFailure? s tag c m := by
    rw [bodyFailure?]
    cases m.code <;> rfl
  rw [emission_eq, withBody_isOk, same, Aborts]
  simp

/-! ## Classes -/

/-- The methods of a list that the receiver takes, each with what it gives alone. -/
def emissions (s : Setting) (tag : UInt32) (c : Register.Class) (ms : List Register.Method) :
    Except Failure (List (Register.Method × ConvertedMethod)) :=
  (ms.filter fun m => s.wantsMethod ⟨methodHeader m⟩).mapM fun m => (emission s tag c m).map (m, ·)

lemma emissions_skip {ms} (refused : s.wantsMethod ⟨methodHeader m⟩ = false) :
    emissions s tag c (m :: ms) = emissions s tag c ms := by
  rw [emissions, filter_cons_of_neg (by simp [refused]), emissions]

lemma emissions_cons {ms} (wanted : s.wantsMethod ⟨methodHeader m⟩ = true) :
    emissions s tag c (m :: ms) = emission s tag c m >>= fun out =>
      emissions s tag c ms >>= fun later => .ok ((m, out) :: later) := by
  rw [emissions, filter_cons_of_pos (by simp [wanted]), mapM_cons]
  cases emission s tag c m <;> rfl

/-- Methods are converted in order, each as if it were alone. -/
lemma convertMethods_eq (used : Bool) (ms : List Register.Method) :
    convertMethods s.options s.wantsMethod c { freshHelpers s tag c with used } ms =
      (emissions s tag c ms).map fun done => ({ freshHelpers s tag c with
            used := used || (ms.filter fun m => s.wantsMethod ⟨methodHeader m⟩).any (rebuilds s) }, done) := by
  induction ms generalizing used with
  | nil => simp [convertMethods, emissions, Except.map, pure, Except.pure]
  | cons m ms ih =>
    rw [convertMethods]
    cases asked : s.wantsMethod ⟨methodHeader m⟩ with
    | false =>
      rw [if_pos (by simp), ih, emissions_skip asked, filter_cons_of_neg (by simp [asked])]
    | true =>
      rw [if_neg (by simp), convertMethod_used, emissions_cons asked,
        filter_cons_of_pos (by simp [asked]), any_cons, ← Bool.or_assoc]
      cases emission s tag c m with
      | error e => rfl
      | ok out =>
        simp only [Except.map, bind, Except.bind]
        rw [ih]
        cases emissions s tag c ms <;> rfl

/-- The report of a method whose body cannot be converted. -/
def memberFailure? (s : Setting) (tag : UInt32) (c : Register.Class) (m : Register.Method) :
    Option MemberFailure :=
  (bodyFailure? s tag c m).map fun failure => ⟨c.name, m.ref.name ++ m.ref.descriptor, failure⟩

lemma emissions_ok {done} : emissions s tag c c.methods = .ok done ↔
      List.Forall₂ (fun m out => emission s tag c m = .ok out.2 ∧ out.1 = m) (wantedMethods s c) done := by
  have each (m : Register.Method) (out : Register.Method × ConvertedMethod) :
      (emission s tag c m).map (m, ·) = .ok out ↔ emission s tag c m = .ok out.2 ∧ out.1 = m := by
    obtain ⟨of, out⟩ := out
    cases emission s tag c m <;> simp [Except.map, and_comm, eq_comm]
  rw [emissions, mapM_ok]
  simp only [each]
  rfl

lemma emissions_isOk {ms} : (∃ done, emissions s tag c ms = .ok done) ↔
    ∀ m ∈ ms.filter fun m => s.wantsMethod ⟨methodHeader m⟩, ¬ Aborts s tag c m := by
  simp only [← emission_isOk]
  rw [emissions, mapM_isOk]
  refine forall₂_congr fun m _ => ?_
  cases emission s tag c m <;> simp [Except.map]

lemma emissions_failures {done} (made : emissions s tag c c.methods = .ok done) :
    done.filterMap (failureOf? c) = (wantedMethods s c).filterMap (memberFailure? s tag c) := by
  have stand := emissions_ok.1 made
  clear made
  generalize wantedMethods s c = ms at stand
  induction stand with
  | nil => rfl
  | cons first _ ih =>
    obtain ⟨made, rfl⟩ := first
    rw [filterMap_cons, filterMap_cons, ih, failureOf?, memberFailure?, emission_ok made]

/-- The converted class, given its converted methods. -/
def assembled (s : Setting) (version : Nat) (r : Relations) (tag : UInt32) (c : Register.Class)
    (done : List (Register.Method × ConvertedMethod)) : ConvertedClass where
  file := {
    header := some (classHeader version r c)
    innerClasses := (Nesting.nestOf r c).records
    outerClass := (Nesting.nestOf r c).outer
    annotations := notes c.annotations
    fields := c.fields.map (convertField s.options (initialised c))
    methods := done.map (·.2.method) ++ helperMethods s.wantsMethod { freshHelpers s tag c with
      used := (wantedMethods s c).any (rebuilds s) }
    closed := true }
  failures := done.filterMap (failureOf? c)

lemma convertClass_eq (version : Nat) (r : Relations) : convertClass s version r tag c =
    (emissions s tag c c.methods).map (assembled s version r tag c) := by
  have fresh : ClassHelpers.ofClass (classHeader version r c).name s.templates tag =
      { freshHelpers s tag c with used := false } := rfl
  unfold convertClass
  dsimp only
  rw [fresh, convertMethods_eq]
  cases emissions s tag c c.methods <;> rfl

lemma convertClass_isOk (version : Nat) (r : Relations) (tag : UInt32) :
    (∃ out, convertClass s version r tag c = .ok out) ↔ ∀ m ∈ wantedMethods s c, ¬ Aborts s tag c m := by
  rw [wantedMethods, ← emissions_isOk, convertClass_eq]
  cases emissions s tag c c.methods <;> simp [Except.map]

lemma convertClass_failures {version r out} (made : convertClass s version r tag c = .ok out) :
    out.failures = (wantedMethods s c).filterMap (memberFailure? s tag c) := by
  rw [convertClass_eq] at made
  obtain ⟨done, emitted, rfl⟩ := map_ok.1 made
  exact emissions_failures emitted

end Restack.Conversion
