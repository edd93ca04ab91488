/-
# The instructions of lowered code

Code for a statement or a terminator consists of instructions of a few kinds (`Piece`): one
that pushes an operand or a constant, one that calls through a call site, one that goes to
blocks of the layout, and others that work on what is on the stack. Only the store of what a
statement defines stands beside them, last of all (`stmtCode_pieces`). What every kind has, all
code has.
-/
import Restack.Lowering.Lower
import Restack.Proofs.Ir.Values
import Restack.Proofs.Lowering.Switch

namespace Restack.Lowering

open List Outcome Ir
open Register (CallSite)
open Stack (Instruction)

/-- Whether an instruction works on the stack alone: it is no label or jump, uses no slot and
brings no constant. -/
def isWork : Instruction → Bool
  | .label _ | .var .. | .iinc .. | .ldc _ | .invokeDynamic .. | .jump .. | .tableSwitch ..
  | .lookupSwitch .. => false
  | _ => true

/-- The labels that an instruction may go to. -/
def targets : Instruction → List Stack.Label
  | .jump _ l => [l]
  | .tableSwitch _ _ default labels | .lookupSwitch default _ labels => default :: labels
  | _ => []

/-- What an instruction does for the operands and the call site of its statement. -/
inductive Piece (f : Frame) (vs : List Value) (site? : Option CallSite) : Instruction → Prop
  | load {v i} (among : v ∈ vs) (made : load f v = .ok i) : Piece f vs site? i
  | constant {c i} (made : pushConstant c = .ok i) : Piece f vs site? i
  | custom {site bootstrap arguments}
      (called : site? = some site) (converted : site.arguments.mapM bootstrapArgument = .ok arguments) :
      Piece f vs site? (.invokeDynamic site.name site.descriptor bootstrap arguments)
  | go {i} (goes : targets i ≠ [])
      (leads : ∀ l ∈ targets i, ∃ b, f.target b = .ok l) : Piece f vs site? i
  | work {i} (works : isWork i = true) : Piece f vs site? i

def Pieces (f : Frame) (vs : List Value) (site? : Option CallSite) (code : List Instruction) : Prop :=
  ∀ i ∈ code, Piece f vs site? i

variable {f : Frame} {vs : List Value} {site? : Option CallSite} {code : List Instruction} {i : Instruction}

namespace Pieces

lemma nil : Pieces f vs site? [] := by simp [Pieces]

lemma cons (first : Piece f vs site? i) (rest : Pieces f vs site? code) : Pieces f vs site? (i :: code) :=
  forall_mem_cons.2 ⟨first, rest⟩

lemma append {code'} (left : Pieces f vs site? code) (right : Pieces f vs site? code') :
    Pieces f vs site? (code ++ code') :=
  fun i mem => (mem_append.1 mem).elim (left i) (right i)

lemma flatten {α : Type} {xs : List α} {parts}
    {g : α → Except Failure (List Instruction)} (made : xs.mapM g = .ok parts)
    (each : ∀ x ∈ xs, ∀ code, g x = .ok code → Pieces f vs site? code) : Pieces f vs site? parts.flatten := by
  intro i mem
  obtain ⟨part, there, inside⟩ := mem_flatten.1 mem
  obtain ⟨x, among, here⟩ := Lists.forall₂_mem_right (mapM_ok.1 made) there
  exact each x among part here i inside

lemma loads {pushes} (made : vs.mapM (load f) = .ok pushes) : Pieces f vs site? pushes := by
  intro i mem
  obtain ⟨v, among, here⟩ := Lists.forall₂_mem_right (mapM_ok.1 made) mem
  exact .load among here

end Pieces

lemma Piece.jump {op b l} (known : f.target b = .ok l) : Piece f vs site? (.jump op l) :=
  .go (cons_ne_nil _ _) (forall_mem_singleton.2 ⟨b, known⟩)

lemma Piece.number (n : Int32) : Piece f vs site? (Stack.pushInt n) :=
  .constant (c := .int n) rfl

lemma applied_pieces (made : applied f vs i = .ok code) (works : isWork i = true) :
    Pieces f vs site? code := by
  obtain ⟨pushes, loads, made⟩ := bind_ok.1 made
  cases made
  exact (Pieces.loads loads).append (.cons (.work works) .nil)

lemma unaryCode_pieces (op : Register.UnaryOp) : Pieces f vs site? (unaryCode op) := by
  cases op with
  | notLong => exact .cons (.constant (c := .long (-1)) rfl) (.cons (.work rfl) .nil)
  | notInt => exact .cons (.work rfl) (.cons (.work rfl) .nil)
  | _ => exact .cons (.work rfl) .nil

lemma newArray_works (type : String) : isWork (newArray type) = true := by
  unfold newArray
  dsimp only
  split <;> rfl

lemma elementCode_pieces {element v n} (among : v ∈ vs)
    (made : elementCode f element v n = .ok code) : Pieces f vs site? code := by
  obtain ⟨i, loaded, made⟩ := bind_ok.1 made
  cases made
  exact .cons (.work rfl) (.cons (.number _) (.cons (.load among loaded) (.cons (.work rfl) .nil)))

lemma exprCode_pieces {e} (made : exprCode f e = .ok code) : Pieces f e.values e.site? code := by
  cases e with
  | value v =>
    obtain ⟨i, loaded, made⟩ := bind_ok.1 made
    cases made
    exact .cons (.load mem_cons_self loaded) .nil
  | param | caught => simp [exprCode] at made
  | unary op v =>
    obtain ⟨i, loaded, made⟩ := bind_ok.1 made
    cases made
    exact .cons (.load mem_cons_self loaded) (unaryCode_pieces op)
  | newArray type size => exact applied_pieces made (newArray_works type)
  | newInstance | getStatic =>
    cases made
    exact .cons (.work rfl) .nil
  | filledArray type vs =>
    obtain ⟨stores, each, made⟩ := bind_ok.1 made
    cases made
    refine .cons (.number _) (.cons (.work (newArray_works type)) (.flatten each ?_))
    rintro ⟨v, n⟩ mem code here
    exact elementCode_pieces ((mem_zipIdx' mem).2 ▸ getElem_mem _) here
  | newMultiArray type dims =>
    obtain ⟨pushes, loads, made⟩ := bind_ok.1 made
    obtain ⟨-, made⟩ := guard_ok.1 made
    cases made
    exact (Pieces.loads loads).append (.cons (.work rfl) .nil)
  | invokeCustom site args =>
    obtain ⟨pushes, loads, made⟩ := bind_ok.1 made
    obtain ⟨bootstrap, -, made⟩ := bind_ok.1 made
    obtain ⟨arguments, converted, made⟩ := bind_ok.1 made
    cases made
    exact (Pieces.loads loads).append (.cons (.custom rfl converted) .nil)
  | newObject type constructor args =>
    obtain ⟨call, applied, made⟩ := bind_ok.1 made
    cases made
    exact .cons (.work rfl) (.cons (.work rfl) (applied_pieces applied rfl))
  | _ => exact applied_pieces made rfl

lemma fillCode_pieces {array element bits n} (among : array ∈ vs)
    (made : fillCode f array element bits n = .ok code) : Pieces f vs site? code := by
  simp only [fillCode] at made
  split at made
  · simp at made
  · obtain ⟨target, loaded, made⟩ := bind_ok.1 made
    obtain ⟨i, pushed, made⟩ := bind_ok.1 made
    cases made
    exact .cons (.load among loaded) (.cons (.number _) (.cons (.constant pushed) (.cons (.work rfl) .nil)))

lemma assignCode_pieces {dst e} (made : assignCode f dst e = .ok code) :
    ∃ body i, Pieces f e.values e.site? body ∧ store f dst = .ok i ∧ code = body ++ [i] := by
  obtain ⟨value, evaluated, made⟩ := bind_ok.1 made
  obtain ⟨i, stored, made⟩ := bind_ok.1 made
  cases made
  exact ⟨value, i, exprCode_pieces evaluated, stored, rfl⟩

/-- The code of a statement ends with the store of what it defines, if it defines something
that is neither a parameter nor a copy within a slot; nothing else in it stores. -/
lemma stmtCode_pieces {s} (made : stmtCode f s = .ok code) :
    (s.def? = none ∧ Pieces f s.values s.site? code) ∨ (∃ dst i, s = .assign dst (.param i) ∧ code = []) ∨
      (∃ dst src, s = .assign dst (.value (.var src)) ∧ sharesSlot f dst src ∧ code = []) ∨
      ∃ dst e body i, s = .assign dst e ∧ (∀ n, e ≠ .param n) ∧ e ≠ .caught ∧
        Pieces f e.values e.site? body ∧ store f dst = .ok i ∧ code = body ++ [i] := by
  cases s with
  | assign dst e =>
    unfold stmtCode at made
    split at made
    · rename_i shape
      cases shape
      cases made
      exact .inr (.inl ⟨_, _, rfl, rfl⟩)
    · simp at made
    · rename_i src shape
      cases shape
      split at made
      · rename_i shares
        cases made
        exact .inr (.inr (.inl ⟨_, _, rfl, shares, rfl⟩))
      · obtain ⟨body, i, parts, stored, whole⟩ := assignCode_pieces made
        exact .inr (.inr (.inr ⟨_, _, body, i, rfl, by simp, by simp, parts, stored, whole⟩))
    · rename_i other caught _ shape
      cases shape
      obtain ⟨body, i, parts, stored, whole⟩ := assignCode_pieces made
      refine .inr (.inr (.inr ⟨_, _, body, i, rfl, ?_, ?_, parts, stored, whole⟩))
      · exact fun n => other n
      · exact caught
    all_goals simp_all
  | effect e =>
    obtain ⟨value, evaluated, made⟩ := bind_ok.1 made
    cases made
    refine .inl ⟨rfl, (exprCode_pieces evaluated).append ?_⟩
    cases f.method.exprType? e with
    | none => exact .nil
    | some t => exact .cons (.work rfl) .nil
  | arrayStore | putField | putStatic | monitorEnter | monitorExit =>
    exact .inl ⟨rfl, applied_pieces made rfl⟩
  | fillArrayData array data =>
    obtain ⟨parts, each, made⟩ := bind_ok.1 made
    cases made
    exact .inl ⟨rfl, .flatten each fun p _ code => fillCode_pieces mem_cons_self⟩

lemma jumpCode_pieces {next b} (made : jumpCode f next b = .ok code) : Pieces f vs site? code := by
  unfold jumpCode at made
  split at made
  · cases made
    exact .nil
  · obtain ⟨l, known, made⟩ := bind_ok.1 made
    cases made
    exact .cons (.jump known) .nil

lemma switchCode_pieces {cases default}
    (made : switchCode f cases default = .ok code) : Pieces f vs site? code := by
  obtain ⟨fallback, known, ⟨first, last, labels, -, -, rfl, related⟩ | ⟨labels, rfl, related⟩ |
    ⟨-, rfl⟩⟩ := switchCode_forms made
  · refine .cons (.go (cons_ne_nil _ _) (forall_mem_cons.2 ⟨⟨_, known⟩, fun l mem => ?_⟩)) .nil
    obtain ⟨k, -, goes⟩ := Lists.forall₂_mem_right related mem
    exact ⟨_, goes⟩
  · refine .cons (.go (cons_ne_nil _ _) (forall_mem_cons.2 ⟨⟨_, known⟩, fun l mem => ?_⟩)) .nil
    obtain ⟨c, -, goes⟩ := Lists.forall₂_mem_right related mem
    exact ⟨_, goes⟩
  · exact .cons (.work rfl) (.cons (.jump known) .nil)

lemma terminatorCode_pieces {next t}
    (made : terminatorCode f next t = .ok code) : Pieces f t.values none code := by
  cases t with
  | goto b => exact jumpCode_pieces made
  | branch test first second yes no =>
    obtain ⟨pushes, loads, made⟩ := bind_ok.1 made
    obtain ⟨op, -, made⟩ := bind_ok.1 made
    obtain ⟨taken, known, made⟩ := bind_ok.1 made
    obtain ⟨jump, jumps, made⟩ := bind_ok.1 made
    cases made
    exact (Pieces.loads loads).append (.cons (.jump known) (jumpCode_pieces jumps))
  | switch v cases default =>
    obtain ⟨i, loaded, made⟩ := bind_ok.1 made
    obtain ⟨rest, switched, made⟩ := bind_ok.1 made
    cases made
    exact .cons (.load mem_cons_self loaded) (switchCode_pieces switched)
  | ret value =>
    cases value with
    | none =>
      cases made
      exact .cons (.work rfl) .nil
    | some v =>
      simp only [terminatorCode] at made
      split at made
      · simp at made
      · exact applied_pieces made rfl
  | throw v => exact applied_pieces made rfl

end Restack.Lowering
