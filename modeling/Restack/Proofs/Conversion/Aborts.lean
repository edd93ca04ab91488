/-
# Conversions that end early

Taking an array type apart, counting the registers of the parameters and numbering slots end the
whole conversion where the type is not divisible or the numbers do not fit into sixteen bits
(`translation_aborts`). These apart every program is converted to its last class
(`convertProgram_reports`).
-/
import Restack.Proofs.Conversion.Methods
import Restack.Proofs.Lifting.Failures
import Restack.Proofs.LoweringFailures

namespace Restack.Conversion

open Lifting (TooManyRegisters lift_fails lift_allocates)
open Lowering (lower_fails slotDemand LowerFault)
open Nesting (Relations)
open List Restack.Outcome
open Pass (Divisible)
open Signature (internalName)

variable {s : Setting} {tag : UInt32} {c : Register.Class} {m : Register.Method}

/-- What is beyond the bounds of the conversion in a body that ends it. -/
inductive Overruns (s : Setting) (tag : UInt32) (c : Register.Class) (m : Register.Method)
    (code : Register.Code) : Cause → Prop
  | arrayType {type} (allocated : type ∈ code.arrayTypes) (indivisible : ¬ Divisible type) :
      Overruns s tag c m code (.indivisibleArrayType type)
  | parameters (many : TooManyRegisters m) : Overruns s tag c m code .parameterOverflow
  | slots {ir} (normal : normalForm s.options m code = .ok ir)
      (many : 65536 ≤ slotDemand (loweredForm s tag c ir)) : Overruns s tag c m code .slotOverflow

lemma normalForm_fails (code : Register.Code) :
    FailsOnly (fun cause => cause.aborts = true → Overruns s tag c m code cause) (normalForm s.options m code) := by
  refine .bind (.mapError (fun _ => rfl) ((lift_fails m code _).mono ?_)) fun lifted made => ?_
  · intro cause only aborts
    obtain ⟨rfl, many⟩ := only aborts
    exact .parameters many
  · have lifted_ := mapError_ok.1 made
    obtain ⟨param, marked⟩ := Lifting.lift_marked lifted_
    -- Passes bring in no array types but those of arrays of arrays, which can be taken apart.
    have divides := Pass.run_divides (S := fun type => type ∈ code.arrayTypes ∨ Divisible type)
      (p := Pipeline.standard) (fun _ bracket => .inr (Pass.divisible_of_bracket bracket))
      (marked.having fun b block here s mem type found =>
        .inl (lift_allocates lifted_ b block here s mem type found))
    refine divides.mono fun cause => ?_
    rintro ⟨type, rfl, allocated | divisible, indivisible⟩ -
    · exact .arrayType allocated indivisible
    · exact absurd divisible indivisible

/-- A form is lowered with an abort only where slots cannot be numbered. -/
lemma slotOverflow_of_aborts {n cause} (fault : LowerFault n cause)
    (aborts : cause.aborts = true) : cause = .slotOverflow ∧ 65536 ≤ slotDemand n := by
  rcases fault with input | form | overflow
  · cases input <;> cases aborts
  · cases form <;> cases aborts
  · exact overflow

/-- A body ends the conversion only where it is beyond its bounds. -/
lemma translation_aborts (code : Register.Code) :
    FailsOnly (fun cause => cause.aborts = true → Overruns s tag c m code cause)
      (translation s tag c m code) := by
  rw [translation_eq]
  refine .mapError (fun _ => rfl) ((normalForm_fails code).bind fun ir normal => ?_)
  refine .mapError (fun _ => rfl) ((lower_fails _).mono fun cause fault aborts => ?_)
  obtain ⟨rfl, many⟩ := slotOverflow_of_aborts fault aborts
  exact .slots normal many

lemma overruns_of_aborts {e} (failed : bodyFailure? s tag c m = some e) (aborts : e.aborts = true) :
    ∃ code, m.code = some code ∧ Overruns s tag c m code e.cause := by
  obtain ⟨code, has, failed⟩ := Option.bind_eq_some_iff.1 failed
  unfold failure? at failed
  split at failed
  · cases failed
  · rename_i e' failed'
    cases failed
    exact ⟨code, has, translation_aborts code e failed' aborts⟩

/-- Whether a receiver takes a class. -/
def takes (collector : Stack.Collector) (c : Register.Class) : Bool :=
  !collector.refused.contains (internalName c.name)

/-- The classes of a program that a receiver takes, with their positions. -/
def takenClasses (collector : Stack.Collector) (p : Register.Program) : List (Register.Class × Nat) :=
  p.classes.zipIdx.filter fun ci => takes collector ci.1

/-- One class more in a report, with the failures of its own. -/
def Report.count (report : Report) (failures : List MemberFailure) : Report :=
  { report with classes := report.classes + 1, failures := report.failures ++ failures }

variable {version : Nat} {r : Relations} {done next : Outcome}

lemma addClass_refused (refused : takes done.collector c = false) : addClass s version r done c tag =
      .ok { done with report := { done.report with skipped := done.report.skipped + 1 } } := by
  rw [takes, Bool.not_eq_false'] at refused
  unfold addClass Stack.Collector.create?
  rw [if_pos refused]

lemma addClass_taken (taken : takes done.collector c = true) :
    addClass s version r done c tag = (convertClass s version r tag c).map fun converted =>
      ⟨{ done.collector with classes := done.collector.classes ++ [converted.file] },
        done.report.count converted.failures⟩ := by
  rw [takes] at taken
  unfold addClass Stack.Collector.create?
  rw [if_neg (by simpa using taken)]
  cases convertClass s version r tag c with
  | error e => rfl
  | ok converted =>
    simp [Except.map, bind, Except.bind, Stack.Collector.setLast, Report.count]

/-- What a run of classes does to the outcome before it. -/
structure Adds (s : Setting) (tags : Nat → UInt32) (cs : List (Register.Class × Nat))
    (before after : Outcome) : Prop where
  refused : after.collector.refused = before.collector.refused
  classes : after.report.classes =
    before.report.classes + (cs.filter fun ci => takes before.collector ci.1).length
  skipped : after.report.classes + after.report.skipped =
    before.report.classes + before.report.skipped + cs.length
  failures : after.report.failures = before.report.failures ++
    (cs.filter fun ci => takes before.collector ci.1).flatMap fun ci =>
      (wantedMethods s ci.1).filterMap (memberFailure? s (tags ci.2) ci.1)

variable {tags : Nat → UInt32} {cs : List (Register.Class × Nat)}

lemma takes_of_refused {k k'} (same : k'.refused = k.refused) : takes k' = takes k := by
  funext c
  rw [takes, takes, same]

lemma addClass_adds {i} (made : addClass s version r done c (tags i) = .ok next) :
    Adds s tags [(c, i)] done next := by
  cases taken : takes done.collector c with
  | false =>
    rw [addClass_refused taken] at made
    cases made
    constructor <;> simp [taken]
    omega
  | true =>
    rw [addClass_taken taken] at made
    cases converted : convertClass s version r (tags i) c with
    | error e =>
      rw [converted] at made
      cases made
    | ok out =>
      rw [converted] at made
      cases made
      constructor <;> simp [taken, Report.count, convertClass_failures converted]
      omega

lemma Adds.trans {ds last} (first : Adds s tags cs done next) (second : Adds s tags ds next last) :
    Adds s tags (cs ++ ds) done last := by
  have same := takes_of_refused first.refused
  constructor
  · rw [second.refused, first.refused]
  · rw [second.classes, first.classes, same, filter_append, length_append, Nat.add_assoc]
  · rw [second.skipped, first.skipped, length_append, Nat.add_assoc]
  · rw [second.failures, first.failures, same, filter_append, flatMap_append, append_assoc]

/-- A class is added unless one of its bodies ends the conversion. -/
lemma addClass_isOk (version : Nat) (r : Relations) : (∃ next, addClass s version r done c tag = .ok next) ↔
    (takes done.collector c = true → ∀ m ∈ wantedMethods s c, ¬ Aborts s tag c m) := by
  cases taken : takes done.collector c with
  | false => simp [addClass_refused taken]
  | true =>
    rw [addClass_taken taken, ← convertClass_isOk version r]
    cases convertClass s version r tag c <;> simp [Except.map]

lemma addClasses_adds
    (made : cs.foldlM (fun done ci => addClass s version r done ci.1 (tags ci.2)) done = .ok next) :
    Adds s tags cs done next := by
  induction cs generalizing done with
  | nil =>
    cases made
    constructor <;> simp
  | cons ci cs ih =>
    obtain ⟨mid, first, rest⟩ := foldlM_cons_ok.1 made
    exact (addClass_adds first).trans (ih rest)

lemma addClasses_isOk :
    (∃ next, cs.foldlM (fun done ci => addClass s version r done ci.1 (tags ci.2)) done = .ok next) ↔
      ∀ ci ∈ cs, takes done.collector ci.1 = true →
        ∀ m ∈ wantedMethods s ci.1, ¬ Aborts s (tags ci.2) ci.1 m := by
  induction cs generalizing done with
  | nil => simp [pure, Except.pure]
  | cons ci cs ih =>
    simp only [foldlM_cons_ok, forall_mem_cons]
    constructor
    · rintro ⟨last, mid, first, rest⟩
      have later := ih.1 ⟨last, rest⟩
      rw [takes_of_refused (addClass_adds first).refused] at later
      exact ⟨(addClass_isOk version r).1 ⟨mid, first⟩, later⟩
    · rintro ⟨first, later⟩
      obtain ⟨mid, made⟩ := (addClass_isOk version r).2 first
      rw [← takes_of_refused (addClass_adds made).refused] at later
      obtain ⟨last, rest⟩ := ih.2 later
      exact ⟨last, mid, made, rest⟩

/-- A program is converted to its report unless a body that the receiver takes ends the
conversion, and a body does so only beyond its bounds. The report counts every class, and it
has the failures of the bodies taken, in order and no others. -/
theorem convertProgram_reports (s : Setting) (tags : Nat → UInt32) (p : Register.Program)
    (collector : Stack.Collector) :
    ((∃ out, convertProgram s tags p collector = .ok out) ↔
      ∀ ci ∈ takenClasses collector p, ∀ m ∈ wantedMethods s ci.1, ¬ Aborts s (tags ci.2) ci.1 m) ∧
    (∀ out, convertProgram s tags p collector = .ok out →
      out.report.classes = (takenClasses collector p).length ∧
      out.report.classes + out.report.skipped = p.classes.length ∧
      out.report.failures = (takenClasses collector p).flatMap fun ci =>
        (wantedMethods s ci.1).filterMap (memberFailure? s (tags ci.2) ci.1)) ∧
    (∀ c tag m e, bodyFailure? s tag c m = some e → e.aborts = true →
      ∃ code, m.code = some code ∧ Overruns s tag c m code e.cause) := by
  refine ⟨?_, fun out made => ?_, fun c tag m e => overruns_of_aborts⟩
  · refine addClasses_isOk.trans ?_
    simp only [takenClasses, List.mem_filter, and_imp]
  · have adds : Adds s tags p.classes.zipIdx ⟨collector, {}⟩ out := addClasses_adds made
    refine ⟨?_, ?_, ?_⟩
    · rw [adds.classes, takenClasses, Nat.zero_add]
    · rw [adds.skipped, List.length_zipIdx, Nat.zero_add, Nat.zero_add]
    · rw [adds.failures, takenClasses, List.nil_append]

/-- Allocates an array of a type without text. -/
def namelessArray : Register.Method where
  access := 8
  ref := ⟨"LNameless;", "make", "()Ljava/lang/Object;"⟩
  code := some
    { registers := 2
      instructions := [.const 0 1, .newArray 1 0 "", .returnValue .object 1]
      tries := [] }

def namelessArrayClass : Register.Class where
  name := "LNameless;"
  access := 1
  superclass := some "Ljava/lang/Object;"
  methods := [namelessArray]

/-- One body that allocates such an array leaves its program without a report. -/
theorem namelessArray_ends :
    ¬ ∃ out, convertProgram {} spreadTag ⟨35, [namelessArrayClass]⟩ (.skipping []) = .ok out := by
  have computed : (bodyFailure? {} (spreadTag 0) namelessArrayClass namelessArray).any (·.aborts) = true := by
    decide +kernel
  obtain ⟨e, failed, aborts⟩ := (Option.any_eq_true _ _).1 computed
  rw [(convertProgram_reports {} spreadTag ⟨35, [namelessArrayClass]⟩ (.skipping [])).1]
  intro none_aborts
  exact none_aborts (namelessArrayClass, 0) (.head _) namelessArray (.head _) ⟨e, failed, aborts⟩

end Restack.Conversion
