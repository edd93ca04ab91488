/-
# Bodies under different tags

The tag of a class is in the names of its helpers. A body that is converted under either of two
tags fails alike or is the same but for the calls of the decoder (`translation_alike`), and it
has such a call just where a string was rebuilt.
-/
import Restack.Proofs.Conversion.Methods
import Restack.Proofs.LongString.Alike
import Restack.Proofs.Lowering.Alike
import Restack.Proofs.LoweringFailures

namespace Restack.Conversion

open LongString (decodeString decodeStringDescriptor rebuildAll_alike ClassHelpers)
open Lowering (Recalled lower_alike)
open Restack.Outcome
open Register (MethodRef)
open Stack (Body)

/-- The decoder that rebuilt strings call, in methods of an owner. -/
def decoderRef (s : Setting) (tag : UInt32) (c : Register.Class) (owner : String) : MethodRef :=
  ⟨owner, (freshHelpers s tag c).helperName decodeString, decodeStringDescriptor⟩

/-- Two bodies that differ in calls only; the flag tells whether they do. -/
structure BodyAlike (d d' : MethodRef) (flag : Bool) (body body' : Body) : Prop where
  tryCatches : body.tryCatches = body'.tryCatches
  instructions : Alike (Recalled d d') flag body.instructions body'.instructions

lemma BodyAlike.refl {d d' : MethodRef} (body : Body) : BodyAlike d d' false body body :=
  ⟨rfl, .refl _⟩

variable {s : Setting} {m : Register.Method} {code : Register.Code} {ir : Ir.Method}

lemma normalForm_keeps (normal : normalForm s.options m code = .ok ir) : ir.Linked ∧ ir.owner = m.ref.owner := by
  obtain ⟨lifted, made, run⟩ := bind_ok.1 normal
  have made := mapError_ok.1 made
  obtain ⟨head, linked, -⟩ := standard_keeps (Lifting.lift_linked made) run
  obtain ⟨signature, -, -, -, -, -, -, parsed, -⟩ := Lifting.lift_rendering made
  exact ⟨linked, congrArg Prod.fst (head.trans (Lifting.lift_head made parsed))⟩

variable (s) in
/-- Under two tags the same form is lowered but for the decoder. -/
lemma lower_loweredForm_alike (linked : ir.Linked) (tag tag' : UInt32) (c c' : Register.Class) :
    Both (BodyAlike (decoderRef s tag c ir.owner) (decoderRef s tag' c' ir.owner) (rebuildsForm s ir))
      (Lowering.lower (loweredForm s tag c ir)) (Lowering.lower (loweredForm s tag' c' ir)) := by
  cases rebuilds : rebuildsForm s ir with
  | false =>
    have same (tag : UInt32) (c : Register.Class) : loweredForm s tag c ir = ir := by
      unfold loweredForm
      split
      · rename_i split_
        rw [rebuildsForm, split_] at rebuilds
        rw [ClassHelpers.rebuildStrings, if_neg]
        exact Bool.eq_false_iff.1 rebuilds
      · rfl
    rw [same, same]
    exact .refl .refl _
  | true =>
    simp only [rebuildsForm, Bool.and_eq_true] at rebuilds
    obtain ⟨split_, long, enabled⟩ := rebuilds
    have rebuilt (tag : UInt32) (c : Register.Class) : loweredForm s tag c ir =
        ir.layout.foldl (LongString.rebuildBlock (decoderRef s tag c ir.owner) s.options.maxStringLength) ir := by
      rw [loweredForm, if_pos split_, ClassHelpers.rebuildStrings, if_pos]
      · rfl
      · rw [long]
        exact enabled
    obtain ⟨blocks, swapped, same, alike, marks⟩ := rebuildAll_alike
      (decoderRef s tag c ir.owner) (decoderRef s tag' c' ir.owner) s.options.maxStringLength linked
    rw [rebuilt, rebuilt, same]
    refine (lower_alike alike).mono ?_
    rintro body body' ⟨tryCatches, instructions⟩
    rw [marks long] at instructions
    exact ⟨tryCatches, instructions⟩

/-- Under two tags a body fails alike or is the same but for the decoder, which it calls just
where a string was rebuilt. -/
lemma translation_alike (s : Setting) (tag tag' : UInt32) (c c' : Register.Class)
    (m : Register.Method) (code : Register.Code) :
    Both (BodyAlike (decoderRef s tag c m.ref.owner) (decoderRef s tag' c' m.ref.owner)
      (rebuildsBody s m code)) (translation s tag c m code) (translation s tag' c' m code) := by
  rw [translation_eq, translation_eq, rebuildsBody]
  cases normal : normalForm s.options m code with
  | error e => exact .error _
  | ok ir =>
    obtain ⟨linked, owner⟩ := normalForm_keeps normal
    rw [← owner]
    exact ((lower_loweredForm_alike s linked tag tag' c c').mapError _).mapError _

end Restack.Conversion
