/-
# Why lowering fails

Lowering refuses what no code stands for (`InputFault`). Its other checks are of the method's own
form (`FormFault`). And slots are numbers of sixteen bits, which are enough unless parameters and
locals need more (`slotDemand`). `lower_fails` says that nothing else makes it fail.
-/
import Mathlib.Data.Finset.Card
import Mathlib.Data.Finset.Dedup
import Restack.Proofs.Lowering.Slots
import Restack.Proofs.Lowering.Table
import Restack.Proofs.Pass.CallSites

namespace Restack.Lowering

open List Ir
open Outcome
open Stack (Instruction)

/-! ## Faults -/

/-- The expression that a statement evaluates. -/
def evaluated? : Stmt → Option Expr
  | .assign _ e | .effect e => some e
  | _ => none

/-- What a method asks for that no code stands for. -/
inductive InputFault (m : Method) : Cause → Prop
  | longString {text} (operand : .const (.string text) ∈ m.operands)
      (long : Text.maxConstantLength < Text.modifiedLength text) :
      InputFault m (.longString (Text.modifiedLength text))
  | strayException {b block before rest dst}
      (here : m.block? b = some block) (split : block.stmts = before ++ .assign dst .caught :: rest)
      (inner : before ≠ [] ∨ m.isHandler b = false) : InputFault m .strayException
  | orderedReferences {b block test first second yes no v} (here : m.block? b = some block)
      (ends : block.terminator = .branch test first second yes no) (ordered : test ≠ .eq ∧ test ≠ .ne)
      (operand : v ∈ first :: second.toList) (reference : (m.valueType v).isRef = true) :
      InputFault m (.orderedReferences test)
  | voidReturnsValue {b block v} (here : m.block? b = some block)
      (ends : block.terminator = .ret (some v)) (void : m.returnType = "V") :
      InputFault m .voidReturnsValue
  | unfillableArray {b block array data}
      (here : m.block? b = some block) (member : .fillArrayData array data ∈ block.stmts)
      (reference : (Ty.ofDescriptor (fillElement (m.valueType array) data)).isRef = true) :
      InputFault m (.unfillableArray (fillElement (m.valueType array) data))
  | tooManyDimensions {b block s type dims}
      (here : m.block? b = some block) (member : s ∈ block.stmts)
      (allocates : evaluated? s = some (.newMultiArray type dims)) (many : 255 < dims.length) :
      InputFault m (.tooManyDimensions dims.length type)
  | handleMismatch {b block s site}
      (here : m.block? b = some block) (member : s ∈ block.stmts) (calls : s.site? = some site)
      (mismatch : ∀ h, Conversion.handle site.bootstrap ≠ .ok h) :
      InputFault m (.handleMismatch site.bootstrap.kind site.bootstrap.member)
  | bootstrapArgument {b block s site v} (here : m.block? b = some block) (member : s ∈ block.stmts)
      (calls : s.site? = some site) (argument : v ∈ site.arguments)
      (unloadable : Conversion.constant? v = none) : InputFault m (.bootstrapArgument v)

/-- What a method lacks that passes are to see to. -/
inductive FormFault (m : Method) : Cause → Prop
  | remainingPhis {b} (listed : b ∈ m.layout) (phis : m.phisOf b ≠ []) :
      FormFault m (.remainingPhis b)
  | parameterRange {b block s i}
      (here : m.block? b = some block) (member : s ∈ block.stmts) (reads : s.param? = some i)
      (outside : m.params.size ≤ i) : FormFault m (.parameterRange i)
  | missingBlock {b} (listed : b ∈ m.layout) (absent : m.block? b = none) :
      FormFault m (.missingBlock b)
  | unknownTarget {b t block} (here : m.block? b = some block)
      (leads : t ∈ block.terminator.successors)
      (unlisted : ¬ (m.layout.Nodup ∧ t ∈ m.layout ∧ (m.block? t).isSome = true)) :
      FormFault m (.unknownTarget t)
  | missingSlot {l} (appears : l ∈ appearances m) (outside : m.locals.size ≤ l.index) :
      FormFault m (.missingSlot l)
  | unevaluable {b block e} (here : m.block? b = some block)
      (member : .effect e ∈ block.stmts) (given : (∃ i, e = .param i) ∨ e = .caught) :
      FormFault m (.unevaluable e)

/-- As many slots as the parameters and locals of a method can need: two for each local. -/
def slotDemand (m : Method) : Nat := paramSlots m + 2 * (appearances m).toFinset.card

/-- Why lowering fails. -/
def LowerFault (m : Method) (cause : Cause) : Prop :=
  InputFault m cause ∨ FormFault m cause ∨ cause = .slotOverflow ∧ 65536 ≤ slotDemand m

/-! ## Slots -/

variable {s : Stmt} {slot width : Nat} {element : String} {bits : Int64} {next : Option BlockId}

section Slots

variable {m : Method}

lemma width_le (t : Ty) : t.width ≤ 2 := by
  rw [Ty.width]
  split <;> omega

lemma pinParam_fails {slots b block} (here : m.block? b = some block) (mem : s ∈ block.stmts) :
    FailsOnly (LowerFault m) (pinParam (paramOffsets 0 m.params.toList).toArray slots s) := by
  have length (next : Nat) (ds : List String) : (paramOffsets next ds).length = ds.length := by
    induction ds generalizing next with
    | nil => rfl
    | cons d ds ih => simp [paramOffsets, ih]
  unfold pinParam
  split
  · split
    · exact .ok _
    · rename_i dst i absent
      refine .fail (.inr (.inl (.parameterRange here mem rfl ?_)))
      simpa [length] using absent
  · exact .ok _

lemma pinParams_fails (m : Method) : FailsOnly (LowerFault m) (pinParams m) := by
  refine .foldlM (P := fun _ => True) trivial (fun _ _ _ _ _ _ => trivial) fun slots b listed _ => ?_
  split
  · exact .ok _
  · rename_i block here
    split
    · exact .foldlM (P := fun _ => True) trivial (fun _ _ _ _ _ _ => trivial)
        fun slots s mem _ => pinParam_fails here mem
    · rename_i phis
      refine .fail (.inr (.inl (.remainingPhis listed ?_)))
      rw [Method.phisOf_eq here]
      simpa using phis

lemma overlaps_fails {taken takenWidth bound} (narrow : width ≤ 2) (below : taken + takenWidth ≤ bound) :
    FailsOnly (fun cause => cause = .slotOverflow ∧ 65536 ≤ bound + 1)
      (overlaps slot width taken takenWidth) := by
  unfold overlaps slotBehind
  refine .bind ?_ fun behind found => ?_
  · split
    · exact .ok _
    · exact .fail ⟨rfl, by omega⟩
  · split at found
    · cases found
      split
      · refine .bind ?_ fun _ _ => .ok _
        split
        · exact .ok _
        · exact .fail ⟨rfl, by omega⟩
      · exact .ok _
    · simp at found

lemma overlaps_true {taken takenWidth}
    (made : overlaps slot width taken takenWidth = .ok true) : slot < taken + takenWidth := by
  unfold overlaps slotBehind at made
  obtain ⟨behind, found, made⟩ := bind_ok.1 made
  split at found
  · cases found
    split at made
    · assumption
    · cases made
  · simp at found

lemma anyM_fails {α : Type} {Q p} {xs : List α}
    (each : ∀ x ∈ xs, FailsOnly Q (p x)) : FailsOnly Q (xs.anyM p) := by
  induction xs with
  | nil => exact .ok _
  | cons x xs ih =>
    obtain ⟨first, rest⟩ := forall_mem_cons.1 each
    refine first.bind fun found _ => ?_
    cases found with
    | true => exact .ok _
    | false => exact ih rest

lemma anyM_true {α : Type} {p : α → Except Failure Bool} {xs : List α}
    (made : xs.anyM p = .ok true) : ∃ x ∈ xs, p x = .ok true := by
  induction xs with
  | nil => cases made
  | cons x xs ih =>
    obtain ⟨found, here, made⟩ := bind_ok.1 made
    cases found with
    | true => exact ⟨x, mem_cons_self, here⟩
    | false =>
      obtain ⟨y, mem, holds⟩ := ih made
      exact ⟨y, mem_cons_of_mem _ mem, holds⟩

/-- The search goes on only where something is taken, so it does not pass the bound. -/
lemma firstFit_fails {taken bound} (narrow : width ≤ 2)
    (below : ∀ t ∈ taken, t.1 + t.2 ≤ bound) {fuel} (start : slot ≤ bound) :
    FailsOnly (fun cause => cause = .slotOverflow ∧ 65536 ≤ bound + 1) (firstFit width taken fuel slot) ∧
      ∀ found, firstFit width taken fuel slot = .ok found → found ≤ bound := by
  induction fuel generalizing slot with
  | zero =>
    refine ⟨.ok _, fun found made => ?_⟩
    cases made
    exact start
  | succ fuel ih =>
    have looks : FailsOnly (fun cause => cause = .slotOverflow ∧ 65536 ≤ bound + 1)
        (taken.anyM fun t => overlaps slot width t.1 t.2) :=
      anyM_fails fun t mem => overlaps_fails narrow (below t mem)
    have next (blocked : (taken.anyM fun t => overlaps slot width t.1 t.2) = .ok true) :
        slot + 1 ≤ bound := by
      obtain ⟨t, mem, overlapping⟩ := anyM_true blocked
      exact Nat.lt_of_lt_of_le (overlaps_true overlapping) (below t mem)
    constructor
    · refine looks.bind fun blocked looked => ?_
      cases blocked with
      | true => exact (ih (next looked)).1
      | false => exact .ok _
    · intro found made
      obtain ⟨blocked, looked, made⟩ := bind_ok.1 made
      cases blocked with
      | true => exact (ih (next looked)).2 found made
      | false =>
        cases made
        exact start

/-- Some locals have slots, and all slots end before two for each of these are used up. -/
structure Stacked (m : Method) (slots : Slots) (placed : Finset Local) : Prop where
  among : placed ⊆ (appearances m).toFinset
  have_slots : ∀ l ∈ placed, (slots.of? l).isSome = true
  below : ∀ l x, slots.of? l = some x →
    x + (m.localType l).width ≤ paramSlots m + 1 + 2 * placed.card

lemma pinParams_stacked {pinned} (made : pinParams m = .ok pinned) : Stacked m pinned ∅ := by
  refine ⟨Finset.empty_subset _, by simp, fun l x found => ?_⟩
  obtain ⟨i, -, offset⟩ := pinParams_pinned made found
  obtain ⟨d, -, -, below⟩ := paramOffsets_spec offset
  have narrow := width_le (m.localType l)
  have wide : 1 ≤ (Ty.ofDescriptor d).width := by
    rw [Ty.width]
    split <;> omega
  rw [paramSlots]
  omega

section Placing

variable {slots : Slots} {placed : Finset Local} {l : Local} (stacked : Stacked m slots placed)
  (appears : l ∈ appearances m)

include stacked

lemma Stacked.taken_below : ∀ t ∈ ((conflicts m).getD l.index []).filterMap fun n =>
      (slots.of? n).map fun slot => (slot, (m.localType n).width),
    t.1 + t.2 ≤ paramSlots m + 1 + 2 * placed.card := by
  intro t mem
  obtain ⟨n, -, found⟩ := mem_filterMap.1 mem
  obtain ⟨x, at_, rfl⟩ := Option.map_eq_some_iff.1 found
  exact stacked.below n x at_

lemma Stacked.fresh (open_ : ¬ (slots.of? l).isSome = true) : l ∉ placed :=
  fun mem => open_ (stacked.have_slots l mem)

include appears

lemma Stacked.insert_subset : insert l placed ⊆ (appearances m).toFinset :=
  Finset.insert_subset (mem_toFinset.2 appears) stacked.among

lemma Stacked.place_fails : FailsOnly (LowerFault m) (place m (conflicts m) (paramSlots m) slots l) := by
  unfold place
  split
  · exact .ok _
  · rename_i open_
    refine .bind ?_ fun _ _ => .ok _
    refine (firstFit_fails (width_le _) stacked.taken_below (by omega)).1.mono ?_
    rintro cause ⟨rfl, beyond⟩
    refine .inr (.inr ⟨rfl, ?_⟩)
    have count := Finset.card_le_card (stacked.insert_subset appears)
    rw [Finset.card_insert_of_notMem (stacked.fresh open_)] at count
    rw [slotDemand]
    omega

lemma Stacked.place {slots'} (made : place m (conflicts m) (paramSlots m) slots l = .ok slots') :
    ∃ placed', Stacked m slots' placed' := by
  unfold Lowering.place at made
  split at made
  · cases made
    exact ⟨placed, stacked⟩
  · rename_i open_
    obtain ⟨x, fitted, made⟩ := bind_ok.1 made
    cases made
    have low := (firstFit_fails (width_le _) stacked.taken_below (by omega)).2 x fitted
    by_cases inside : l.index < slots.size
    · refine ⟨insert l placed, stacked.insert_subset appears, fun k mem => ?_, fun k y found => ?_⟩
      · rw [Slots.of?_set inside]
        split
        · rfl
        · rename_i other
          exact stacked.have_slots k (Finset.mem_of_mem_insert_of_ne mem other)
      · rw [Finset.card_insert_of_notMem (stacked.fresh open_)]
        rw [Slots.of?_set inside] at found
        split at found
        · rename_i same
          cases found
          have narrow := width_le (m.localType k)
          omega
        · have old := stacked.below k y found
          omega
    · rw [Array.setIfInBounds_eq_of_size_le (Nat.le_of_not_lt inside)]
      exact ⟨placed, stacked⟩

end Placing

lemma assignSlots_fails (m : Method) : FailsOnly (LowerFault m) (assignSlots m) := by
  refine (pinParams_fails m).bind fun pinned pins => ?_
  refine .foldlM (P := fun slots => ∃ placed, Stacked m slots placed) ⟨∅, pinParams_stacked pins⟩ ?_ ?_
  · rintro slots l slots' appears ⟨placed, stacked⟩ made
    exact stacked.place appears made
  · rintro slots l appears ⟨placed, stacked⟩
    exact stacked.place_fails appears

end Slots

/-! ## Expressions -/

section Code

variable {Q : Cause → Prop} {f : Frame}

lemma applied_fails {vs i} (loads : ∀ v ∈ vs, FailsOnly Q (load f v)) : FailsOnly Q (applied f vs i) :=
  (FailsOnly.mapM loads).bind fun _ _ => .ok _

lemma handle_fails {h} (mismatch : (∀ c, Conversion.handle h ≠ .ok c) → Q (.handleMismatch h.kind h.member)) :
    FailsOnly Q (Conversion.handle h) := by
  intro e failed
  have refused : ∀ c, Conversion.handle h ≠ .ok c := by
    intro c made
    rw [failed] at made
    cases made
  unfold Conversion.handle at failed
  split at failed
  · cases failed
  · cases failed
  · cases failed
    exact mismatch refused

/-- What makes an expression fail beside its operands. -/
structure Allows (Q : Cause → Prop) (e : Expr) : Prop where
  given : (∃ i, e = .param i) ∨ e = .caught → Q (.unevaluable e)
  dimensions : ∀ type dims, e = .newMultiArray type dims → 255 < dims.length →
    Q (.tooManyDimensions dims.length type)
  bootstrap : ∀ site, e.site? = some site → (∀ h, Conversion.handle site.bootstrap ≠ .ok h) →
    Q (.handleMismatch site.bootstrap.kind site.bootstrap.member)
  argument : ∀ site v, e.site? = some site → v ∈ site.arguments → Conversion.constant? v = none →
    Q (.bootstrapArgument v)

lemma exprCode_fails {e} (loads : ∀ v ∈ e.values, FailsOnly Q (load f v))
    (allows : Allows Q e) : FailsOnly Q (exprCode f e) := by
  cases e with
  | value v | unary op v => exact (loads v mem_cons_self).bind fun _ _ => .ok _
  | param i => exact .fail (allows.given (.inl ⟨i, rfl⟩))
  | caught => exact .fail (allows.given (.inr rfl))
  | newInstance type => exact .ok _
  | getStatic field => exact .ok _
  | filledArray type vs =>
    refine .bind (.mapM fun e mem => ?_) fun _ _ => .ok _
    exact (loads e.1 (fst_mem_of_mem_zipIdx mem)).bind fun _ _ => .ok _
  | newMultiArray type dims =>
    refine (FailsOnly.mapM loads).bind fun pushes _ => ?_
    exact .guard (fun many => allows.dimensions type dims rfl many) fun _ => .ok _
  | invokeCustom site args =>
    refine (FailsOnly.mapM loads).bind fun pushes _ => ?_
    refine (handle_fails (allows.bootstrap site rfl)).bind fun bootstrap _ => ?_
    refine .bind (.mapM fun v mem => ?_) fun _ _ => .ok _
    rw [bootstrapArgument]
    split
    · exact .ok _
    · rename_i unloadable
      exact .fail (allows.argument site v rfl mem unloadable)
  | newObject type constructor args => exact (applied_fails loads).bind fun _ _ => .ok _
  | _ => exact applied_fails loads

lemma dataElement?_none (none_ : dataElement? element bits = none) :
    (Ty.ofDescriptor element).isRef = true := by
  rw [dataElement?] at none_
  split at none_
  iterate 4 cases none_
  rename_i int long float double
  have known : Ty.ofDescriptor element ≠ .unknown := by
    rw [Ty.ofDescriptor]
    repeat' split
    all_goals simp
  cases kind : Ty.ofDescriptor element with
  | ref d => rfl
  | unknown => exact absurd kind known
  | int => exact absurd kind int
  | long => exact absurd kind long
  | float => exact absurd kind float
  | double => exact absurd kind double

lemma dataElement?_pushes {c} (found : dataElement? element bits = some c) :
    FailsOnly Q (pushConstant c) := by
  rw [dataElement?] at found
  split at found
  iterate 4
    cases found
    exact .ok _
  cases found

lemma fillCode_fails {array i} (loads : FailsOnly Q (load f array))
    (reference : (Ty.ofDescriptor element).isRef = true → Q (.unfillableArray element)) :
    FailsOnly Q (fillCode f array element bits i) := by
  rw [fillCode]
  split
  · rename_i none_
    exact .fail (reference (dataElement?_none none_))
  · rename_i c found
    exact loads.bind fun _ _ => (dataElement?_pushes found).bind fun _ _ => .ok _

/-! ## Statements and terminators -/

lemma store_fails {l} (slot : FailsOnly Q (f.slot l)) : FailsOnly Q (store f l) :=
  slot.bind fun _ _ => .ok _

lemma assignCode_fails {dst e} (slot : FailsOnly Q (f.slot dst))
    (loads : ∀ v ∈ e.values, FailsOnly Q (load f v)) (allows : Allows Q e) :
    FailsOnly Q (assignCode f dst e) :=
  (exprCode_fails loads allows).bind fun _ _ => (store_fails slot).bind fun _ _ => .ok _

lemma stmtCode_fails (slot : ∀ l, s.def? = some l → FailsOnly Q (f.slot l))
    (loads : ∀ v ∈ s.values, FailsOnly Q (load f v))
    (allows : ∀ e, evaluated? s = some e → (∀ dst i, s ≠ .assign dst (.param i)) →
      (∀ dst, s ≠ .assign dst .caught) → Allows Q e)
    (stray : ∀ dst, s = .assign dst .caught → Q .strayException)
    (reference : ∀ array data, s = .fillArrayData array data →
      (Ty.ofDescriptor (fillElement (f.method.valueType array) data)).isRef = true →
      Q (.unfillableArray (fillElement (f.method.valueType array) data))) : FailsOnly Q (stmtCode f s) := by
  unfold stmtCode
  split
  · exact .ok _
  · exact .fail (stray _ rfl)
  · split
    · exact .ok _
    · exact assignCode_fails (slot _ rfl) loads (allows _ rfl (by simp) (by simp))
  · rename_i dst e param caught _
    exact assignCode_fails (slot _ rfl) loads
      (allows e rfl (fun _ i same => param i (Stmt.assign.inj same).2)
        fun _ same => caught (Stmt.assign.inj same).2)
  · exact (exprCode_fails loads (allows _ rfl (by simp) (by simp))).bind fun _ _ => .ok _
  · exact applied_fails loads
  · exact applied_fails loads
  · exact applied_fails loads
  · rename_i array data
    refine .bind (.mapM fun e mem => ?_) fun _ _ => .ok _
    exact fillCode_fails (loads array mem_cons_self) (reference array data rfl)
  · exact applied_fails loads
  · exact applied_fails loads

lemma branchOpcode_fails {test againstZero reference}
    (ordered : reference = true → test ≠ .eq ∧ test ≠ .ne → Q (.orderedReferences test)) :
    FailsOnly Q (branchOpcode test againstZero reference) := by
  unfold branchOpcode
  split
  iterate 4 exact .ok _
  · rename_i eqZero neZero eq ne
    refine .fail (ordered rfl ?_)
    cases againstZero with
    | true => exact ⟨fun same => eqZero rfl same, fun same => neZero rfl same⟩
    | false => exact ⟨fun same => eq rfl same, fun same => ne rfl same⟩
  all_goals exact .ok _

lemma jumpCode_fails {b} (target : FailsOnly Q (f.target b)) : FailsOnly Q (jumpCode f next b) := by
  rw [jumpCode]
  split
  · exact .ok _
  · exact target.bind fun _ _ => .ok _

lemma terminatorCode_fails {t} (loads : ∀ v ∈ t.values, FailsOnly Q (load f v))
    (targets : ∀ b ∈ t.successors, FailsOnly Q (f.target b))
    (ordered : ∀ test first second yes no v, t = .branch test first second yes no →
      v ∈ first :: second.toList → (f.method.valueType v).isRef = true → test ≠ .eq ∧ test ≠ .ne →
      Q (.orderedReferences test))
    (void : ∀ v, t = .ret (some v) → f.method.returnType = "V" → Q .voidReturnsValue) :
    FailsOnly Q (terminatorCode f next t) := by
  unfold terminatorCode
  split
  · exact jumpCode_fails (targets _ mem_cons_self)
  · rename_i test first second yes no
    have operands : ∀ v ∈ first :: second.toList, FailsOnly Q (load f v) := by
      intro v mem
      refine loads v ?_
      cases second <;> simpa [Terminator.values] using mem
    refine (FailsOnly.mapM operands).bind fun pushes _ => ?_
    refine (branchOpcode_fails fun reference wrong => ?_).bind fun op _ => ?_
    · obtain ⟨v, mem, isRef⟩ := any_eq_true.1 reference
      exact ordered test first second yes no v rfl mem isRef wrong
    · refine (targets yes (by simp [Terminator.successors])).bind fun taken _ => ?_
      exact (jumpCode_fails (targets no (by simp [Terminator.successors]))).bind fun _ _ => .ok _
  · rename_i v cases default
    refine (loads v mem_cons_self).bind fun push _ => ?_
    refine (switchCode_fails fun b mem => targets b ?_).bind fun _ _ => .ok _
    rw [Terminator.successors, mem_eraseDups]
    exact mem
  · exact .ok _
  · rename_i v
    split
    · rename_i none_
      refine .fail (void v rfl ?_)
      rw [Method.returnTy?] at none_
      split at none_
      · assumption
      · cases none_
    · exact applied_fails loads
  · exact applied_fails loads

end Code

/-! ## Whole methods -/

section Method

variable {m : Method} {b : BlockId} {block : Block}

lemma mem_operands {v} (here : m.block? b = some block)
    (mem : v ∈ block.stmts.flatMap Stmt.values ++ block.terminator.values) : v ∈ m.operands := by
  refine mem_flatMap.2 ⟨block, Method.mem_blockList.2 ⟨b, here⟩, ?_⟩
  rw [append_assoc]
  exact mem_append_right _ mem

lemma mem_appearances {l} (listed : b ∈ m.layout) (here : m.block? b = some block)
    (mem : l ∈ block.stmts.flatMap stmtLocals ++ localsOf block.terminator.values) : l ∈ appearances m :=
  mem_flatMap.2 ⟨block, mem_filterMap.2 ⟨b, listed, here⟩, mem⟩

lemma appearances_below {mark} (marked : m.Marked mark) {l}
    (appears : l ∈ appearances m) : l.index < m.locals.size := by
  obtain ⟨block, listed, among⟩ := mem_flatMap.1 appears
  obtain ⟨b, -, here⟩ := mem_filterMap.1 listed
  have old := marked.blocks b block here
  rcases mem_append.1 among with inside | ending
  · obtain ⟨s, mem, mentioned⟩ := mem_flatMap.1 inside
    rcases mem_append.1 mentioned with defines | read
    · exact ((old.stmts s mem).defines l (Option.mem_toList.1 defines)).1
    · exact (old.stmts s mem).reads _ (mem_localsOf.1 read) l rfl
  · exact old.terminator _ (mem_localsOf.1 ending) l rfl

variable {slots : Slots} (made : assignSlots m = .ok slots)

include made

lemma slot_fails {l} (appears : l ∈ appearances m) :
    FailsOnly (LowerFault m) ((frameOf m slots).slot l) := by
  rw [Frame.slot]
  split
  · exact .ok _
  · rename_i none_
    refine .fail (.inr (.inl (.missingSlot appears ?_)))
    by_contra inside
    obtain ⟨-, -, -, placed⟩ := assignSlots_allotted made
    simpa [none_] using placed l appears (Nat.lt_of_not_le inside)

lemma load_fails {v} (operand : v ∈ m.operands) (appears : ∀ l, v = .var l → l ∈ appearances m) :
    FailsOnly (LowerFault m) (load (frameOf m slots) v) := by
  cases v with
  | var l => exact (slot_fails made (appears l rfl)).bind fun _ _ => .ok _
  | const c =>
    cases c with
    | literal bits wide => cases wide <;> exact .ok _
    | string text =>
      simp only [load, pushConstant]
      split
      · rename_i long
        exact .fail (.inl (.longString operand long))
      · exact .ok _
    | _ => exact .ok _

omit made in
lemma target_fails {t : BlockId} (here : m.block? b = some block) (leads : t ∈ block.terminator.successors) :
    FailsOnly (LowerFault m) ((frameOf m slots).target t) := by
  rw [Frame.target]
  split
  · exact .ok _
  · rename_i none_
    refine .fail (.inr (.inl (.unknownTarget here leads ?_)))
    rintro ⟨once, listed, found⟩
    obtain ⟨target, there⟩ := Option.isSome_iff_exists.1 found
    have inside := Method.index_lt_of_block? there
    rw [position?_of_mem once inside (getElem?_idxOf listed)] at none_
    cases none_

/-- A statement fails with a fault of the method; one that is not the first of a handler may
be a stray read of an exception. -/
lemma stmtCode_fault (listed : b ∈ m.layout) (here : m.block? b = some block) (mem : s ∈ block.stmts)
    (stray : ∀ dst, s = .assign dst .caught → InputFault m .strayException) :
    FailsOnly (LowerFault m) (stmtCode (frameOf m slots) s) := by
  have appears {l : Local} (among : l ∈ stmtLocals s) : l ∈ appearances m :=
    mem_appearances listed here (mem_append_left _ (mem_flatMap.2 ⟨s, mem, among⟩))
  refine stmtCode_fails (fun l defines => slot_fails made (appears ?_)) (fun v among => ?_) ?_
    (fun dst same => .inl (stray dst same)) ?_
  · exact mem_append_left _ (Option.mem_toList.2 defines)
  · refine load_fails made (mem_operands here (mem_append_left _
      (mem_flatMap.2 ⟨s, mem, among⟩))) fun l same => appears (mem_append_right _ ?_)
    exact mem_localsOf.2 (same ▸ among)
  · intro e evaluates param caught
    refine ⟨fun given => ?_, fun type dims same many => ?_, fun site calls mismatch => ?_,
      fun site v calls argument unloadable => ?_⟩
    · cases s with
      | assign dst e' =>
        cases evaluates
        rcases given with ⟨i, rfl⟩ | rfl
        · exact absurd rfl (param dst i)
        · exact absurd rfl (caught dst)
      | effect e' =>
        cases evaluates
        exact .inr (.inl (.unevaluable here mem given))
      | _ => cases evaluates
    · subst same
      exact .inl (.tooManyDimensions here mem evaluates many)
    · refine .inl (.handleMismatch here mem ?_ mismatch)
      cases s <;> cases evaluates <;> exact calls
    · refine .inl (.bootstrapArgument here mem ?_ argument unloadable)
      cases s <;> cases evaluates <;> exact calls
  · rintro array data rfl reference
    exact .inl (.unfillableArray here mem reference)

lemma terminatorCode_fault (listed : b ∈ m.layout) (here : m.block? b = some block) :
    FailsOnly (LowerFault m) (terminatorCode (frameOf m slots) next block.terminator) := by
  refine terminatorCode_fails (fun v among => ?_) (fun t leads => target_fails here leads) ?_ ?_
  · refine load_fails made (mem_operands here (mem_append_right _ among)) fun l same => ?_
    exact mem_appearances listed here (mem_append_right _ (mem_localsOf.2 (same ▸ among)))
  · intro test first second yes no v ends operand reference ordered
    exact .inl (.orderedReferences here ends ordered operand reference)
  · intro v ends void
    exact .inl (.voidReturnsValue here ends void)

lemma blockRest_fault {entry : List Instruction} {stmts : List Stmt} (listed : b ∈ m.layout)
    (here : m.block? b = some block) (inside : ∀ s ∈ stmts, s ∈ block.stmts ∧
      ∀ dst, s = .assign dst .caught → InputFault m .strayException) :
    FailsOnly (LowerFault m) (Except.mapError (·.within ("block " ++ b.text)) do
      let calm ← stmtsCode (frameOf m slots) (stmts.takeWhile (!Stmt.canThrow ·))
      let rest ← stmtsCode (frameOf m slots) (stmts.dropWhile (!Stmt.canThrow ·))
      let ending ← terminatorCode (frameOf m slots) next block.terminator
      .ok (⟨entry, calm, rest ++ ending, isGuarded m b block⟩ : BlockCode)) := by
  refine .mapError (fun _ => rfl) (.bind ?_ fun calm _ => .bind ?_ fun rest _ =>
    (terminatorCode_fault made listed here).bind fun _ _ => .ok _)
  · refine .bind (.mapM fun s mem => ?_) fun _ _ => .ok _
    obtain ⟨among, stray⟩ := inside s ((takeWhile_sublist _).mem mem)
    exact stmtCode_fault made listed here among stray
  · refine .bind (.mapM fun s mem => ?_) fun _ _ => .ok _
    obtain ⟨among, stray⟩ := inside s ((dropWhile_sublist _).mem mem)
    exact stmtCode_fault made listed here among stray

lemma blockCode_fault {position} (listed : b ∈ m.layout) :
    FailsOnly (LowerFault m) (blockCode (frameOf m slots) b position next) := by
  rw [blockCode]
  split
  · rename_i absent
    exact .fail (.inr (.inl (.missingBlock listed absent)))
  · rename_i block here
    split
    · -- In a handler only the first statement may read the exception.
      unfold handlerEntry
      split
      · rename_i dst rest heads
        have appears : dst ∈ appearances m := by
          refine mem_appearances listed here ?_
          rw [heads]
          exact mem_append_left _ mem_cons_self
        refine (FailsOnly.bind (store_fails (slot_fails made appears)) fun _ _ => .ok _).bind ?_
        rintro ⟨entry, stmts⟩ entered
        obtain ⟨_, -, entered⟩ := bind_ok.1 entered
        cases entered
        refine blockRest_fault made listed here fun s mem => ?_
        refine ⟨heads ▸ mem_cons_of_mem _ mem, fun l same => ?_⟩
        obtain ⟨before, after, split_⟩ := append_of_mem mem
        have inner : block.stmts = (.assign dst .caught :: before) ++ .assign l .caught :: after := by
          rw [heads, split_, same]
          rfl
        exact .strayException here inner (.inl (by simp))
      · rename_i other
        refine (FailsOnly.ok _).bind ?_
        rintro ⟨entry, stmts⟩ entered
        cases entered
        refine blockRest_fault made listed here fun s mem => ⟨mem, fun l same => ?_⟩
        obtain ⟨before, after, split_⟩ := append_of_mem mem
        subst same
        refine .strayException here split_ (.inl ?_)
        rintro rfl
        exact other l after split_
    · rename_i plain
      refine (FailsOnly.ok _).bind ?_
      rintro ⟨entry, stmts⟩ entered
      cases entered
      refine blockRest_fault made listed here fun s mem => ⟨mem, fun l same => ?_⟩
      obtain ⟨before, after, split_⟩ := append_of_mem mem
      subst same
      exact .strayException here split_ (.inr (by simpa using plain))

lemma blockCodes_fault {position layout} (listed : ∀ b ∈ layout, b ∈ m.layout) :
    FailsOnly (LowerFault m) (blockCodes (frameOf m slots) position layout) := by
  induction layout generalizing position with
  | nil => exact .ok _
  | cons b layout ih =>
    obtain ⟨first, rest⟩ := forall_mem_cons.1 listed
    exact (blockCode_fault made first).bind fun _ _ => (ih rest).bind fun _ _ => .ok _

end Method

/-- Lowering fails for what a method asks for, for its form, or for want of slots. -/
lemma lower_fails (m : Method) : FailsOnly (LowerFault m) (lower m) :=
  (assignSlots_fails m).bind fun _ made =>
    (blockCodes_fault made fun _ listed => listed).bind fun _ _ => .ok _

end Restack.Lowering
