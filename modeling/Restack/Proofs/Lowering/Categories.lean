/-
# Categories of values in slots

The code of a statement or terminator loads nothing but the slots of its operands, each as what
its type is (`stmtCode_loads`, `terminatorCode_loads`). `Contents.run` is what code leaves in the
slots, by category; a value stays in its slots just as long as the last store into them is of its
kind and to its place (`Contents.run_holds_iff`).
-/
import Mathlib.Data.List.Induction
import Restack.Proofs.Lowering.Frames

namespace Restack.Lowering

open List Ir
open Stack (Instruction Opcode)

inductive Category where
  | int
  | long
  | float
  | double
  | ref
deriving DecidableEq

def Category.width : Category → Nat
  | .long | .double => 2
  | _ => 1

def category : Ty → Category
  | .long => .long
  | .float => .float
  | .double => .double
  | .ref _ => .ref
  | .int | .unknown => .int

@[simp] lemma width_category (t : Ty) : (category t).width = t.width := by cases t <;> rfl

lemma Category.width_pos (k : Category) : 0 < k.width := by cases k <;> decide

/-- The slot that an instruction loads, and as what. -/
def loaded? : Instruction → Option (Nat × Category)
  | .var op slot =>
    if op = Opcode.iload then some (slot, .int)
    else if op = Opcode.lload then some (slot, .long)
    else if op = Opcode.fload then some (slot, .float)
    else if op = Opcode.dload then some (slot, .double)
    else if op = Opcode.aload then some (slot, .ref)
    else none
  | _ => none

/-- The slot that an instruction stores to, and what it leaves there. -/
def stored? : Instruction → Option (Nat × Category)
  | .var op slot =>
    if op.isStore then
      some (slot, if op = Opcode.lstore then .long
        else if op = Opcode.fstore then .float
        else if op = Opcode.dstore then .double
        else if op = Opcode.astore then .ref
        else .int)
    else none
  | .iinc slot _ => some (slot, .int)
  | _ => none

lemma stored?_plain {i} (plain : isPlain i = true) : stored? i = none := by
  cases i with
  | var op slot => simp [stored?, isStore_of_isLoad plain]
  | label | iinc => simp [isPlain] at plain
  | _ => rfl

variable {f : Frame} {slot : Nat} {k : Category}

lemma load_loaded {l i} (made : load f (.var l) = .ok i) :
    ∃ x, f.slots.of? l = some x ∧ loaded? i = some (x, category (f.method.localType l)) := by
  obtain ⟨x, found, made⟩ := Outcome.bind_ok.1 made
  cases made
  refine ⟨x, slot_ok.1 found, ?_⟩
  cases f.method.localType l <;> rfl

lemma store_stored {l i} (made : store f l = .ok i) :
    ∃ x, f.slots.of? l = some x ∧ stored? i = some (x, category (f.method.localType l)) := by
  obtain ⟨x, found, made⟩ := Outcome.bind_ok.1 made
  cases made
  refine ⟨x, slot_ok.1 found, ?_⟩
  cases f.method.localType l <;> rfl

/-- An instruction that loads no slot but those of locals among the operands. -/
def LoadsOf (f : Frame) (vs : List Value) (i : Instruction) : Prop :=
  ∀ x k, loaded? i = some (x, k) →
    ∃ l, .var l ∈ vs ∧ f.slots.of? l = some x ∧ category (f.method.localType l) = k

section Loading

variable {vs : List Value} {code : List Instruction} {i : Instruction}

lemma LoadsOf.of_none (silent : loaded? i = none) : LoadsOf f vs i := by
  intro x k found
  rw [silent] at found
  cases found

lemma pushConstant_loads {c} (made : pushConstant c = .ok i) : LoadsOf f vs i := by
  refine .of_none ?_
  have pushes := pushConstant_constant made
  cases i <;> first | rfl | cases pushes

lemma Piece.loadsOf {site?} (part : Piece f vs site? i) : LoadsOf f vs i := by
  cases part with
  | @load v _ among made =>
    cases v with
    | var l =>
      obtain ⟨x, placed, found⟩ := load_loaded made
      intro y k here
      cases found.symm.trans here
      exact ⟨l, among, placed, rfl⟩
    | const c => exact pushConstant_loads made
  | constant made => exact pushConstant_loads made
  | custom => exact .of_none rfl
  | go goes => cases i <;> first | exact .of_none rfl | exact absurd rfl goes
  | work works => cases i <;> first | exact .of_none rfl | cases works

/-- A statement loads its operands and nothing else. -/
lemma stmtCode_loads {s} (made : stmtCode f s = .ok code) (mem : i ∈ code) : LoadsOf f s.values i := by
  rcases stmtCode_pieces made with ⟨-, parts⟩ | ⟨_, _, -, rfl⟩ | ⟨_, _, -, -, rfl⟩ |
    ⟨dst, e, body, last, rfl, -, -, parts, stored, rfl⟩
  · exact (parts i mem).loadsOf
  · cases mem
  · cases mem
  · rcases mem_append.1 mem with inside | same
    · exact (parts i inside).loadsOf
    · cases mem_singleton.1 same
      obtain ⟨x, -, made⟩ := Outcome.bind_ok.1 stored
      cases made
      refine .of_none ?_
      cases f.method.localType dst <;> rfl

lemma terminatorCode_loads {next t}
    (made : terminatorCode f next t = .ok code) (mem : i ∈ code) : LoadsOf f t.values i :=
  (terminatorCode_pieces made i mem).loadsOf

end Loading

instance (slot width slot' width' : Nat) : Decidable (Apart slot width slot' width') :=
  inferInstanceAs (Decidable (_ ∨ _))

/-- An instruction that stores nothing into the slots of a value. -/
def Spares (slot : Nat) (k : Category) (i : Instruction) : Prop :=
  ∀ y k', stored? i = some (y, k') → Apart y k'.width slot k.width

/-- The stores of code into the slots of a value. -/
def storesInto (slot : Nat) (k : Category) (code : List Instruction) : List (Nat × Category) :=
  (code.filterMap stored?).filter fun w => !decide (Apart w.1 w.2.width slot k.width)

/-- The last store of code into the slots of a value, if there is one, leaves such a
value there. -/
def Settles (slot : Nat) (k : Category) (code : List Instruction) : Prop :=
  ∀ w, (storesInto slot k code).getLast? = some w → w = (slot, k)

namespace Contents

variable {c : Contents Category} {code : List Instruction}

/-- What is left by code whose stores leave what their opcodes say. -/
def run (c : Contents Category) (code : List Instruction) : Contents Category :=
  code.foldl (fun c i => match stored? i with
    | some (slot, k) => c.put slot k.width k
    | none => c) c

lemma run_append {code'} : c.run (code ++ code') = (c.run code).run code' :=
  foldl_append

lemma run_cons {i} : c.run (i :: code) = (c.run [i]).run code := rfl

lemma run_stored {i y} (stores : stored? i = some (y, k)) : c.run [i] = c.put y k.width k := by
  rw [run, foldl_cons, foldl_nil, stores]

lemma run_still (still : ∀ i ∈ code, stored? i = none) : c.run code = c := by
  induction code with
  | nil => rfl
  | cons i code ih =>
    obtain ⟨first, rest⟩ := forall_mem_cons.1 still
    rw [run, foldl_cons, first]
    exact ih rest

lemma run_plain (plain : Plain code) : c.run code = c :=
  run_still fun i mem => stored?_plain (plain i mem)

lemma put_apart_iff {V} {c : Contents V} {y width' width u v} (apart : Apart y width' slot width) :
    (c.put y width' u).Holds slot width v ↔ c.Holds slot width v := by
  refine ⟨fun holds n small => ?_, fun holds => holds.put apart⟩
  have here := holds n small
  rwa [put, if_neg (by rcases apart with before | behind <;> omega)] at here

lemma put_touching_iff {y k'} (touches : ¬ Apart y k'.width slot k.width) :
    (c.put y k'.width k').Holds slot k.width k ↔ (y, k') = (slot, k) := by
  constructor
  · intro holds
    have near : ¬ (y + k'.width ≤ slot ∨ slot + k.width ≤ y) := touches
    have positive := k'.width_pos
    have positive' := k.width_pos
    -- the first slot that both values take
    have here := holds (max y slot - slot) (by omega)
    rw [put, if_pos (by omega)] at here
    simp only [Option.some.injEq, Share.mk.injEq] at here
    have same : y = slot := by omega
    rw [same, here.1]
  · intro same
    cases same
    exact holds_put

/-- Code leaves a value in its slots as long as it settles there. -/
lemma run_holds_iff (holds : c.Holds slot k.width k) :
    (c.run code).Holds slot k.width k ↔ Settles slot k code := by
  induction code using reverseRecOn with
  | nil => exact ⟨fun _ w found => (nomatch found), fun _ => holds⟩
  | append_singleton code i ih =>
    rw [run_append]
    cases stores : stored? i with
    | none =>
      rw [run_still (by simpa using stores), ih]
      simp [Settles, storesInto, stores]
    | some w =>
      obtain ⟨y, k'⟩ := w
      rw [run_stored stores]
      by_cases apart : Apart y k'.width slot k.width
      · rw [put_apart_iff apart, ih]
        simp [Settles, storesInto, stores, apart]
      · rw [put_touching_iff apart]
        simp [Settles, storesInto, stores, apart, eq_comm]

end Contents

/-- What a statement assigns. -/
def kindOf (m : Method) (s : Stmt) : Category :=
  match s.def? with
  | some dst => category (m.localType dst)
  | none => .int

lemma run_stmtCode {c : Contents Category} {s code}
    (made : stmtCode f s = .ok code) : c.run code = c.after (kindOf f.method s) code := by
  rcases stmtCode_pieces made with ⟨-, parts⟩ | ⟨_, _, -, rfl⟩ | ⟨_, _, -, -, rfl⟩ |
    ⟨dst, e, body, i, rfl, -, -, parts, stores, rfl⟩
  · rw [Contents.run_plain parts.plain, Contents.after_plain parts.plain]
  · rfl
  · rfl
  · obtain ⟨x, placed, put⟩ := Contents.after_store (c := c) (v := kindOf f.method (.assign dst e)) body
      (fun i mem => written?_plain (parts i mem).plain) stores
    obtain ⟨y, placed', stored⟩ := store_stored stores
    cases placed.symm.trans placed'
    rw [put, Contents.run_append, Contents.run_plain parts.plain, Contents.run_stored stored, width_category]
    rfl

end Restack.Lowering
