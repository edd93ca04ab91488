/-
# How stack code moves control

A machine for the part of stack code that decides where control goes: labels,
loads and stores, constants, `pop`, jumps and switches. A value of either width is one
entry of the stack. What a test answers and which key a value has is left open (`Sense`),
so a statement over every `Sense` covers every way a run can branch. A step that
needs an operand and finds the stack empty does not exist.
-/
import Restack.Register.Operation
import Restack.Stack.Instruction

namespace Restack.Stack

open List

open Register (Test)

/-- The test of a conditional jump and how many operands it takes; a single one
is tested against zero or null. -/
def Opcode.test? (op : Opcode) : Option (Test × Nat) :=
  [(Opcode.ifeq, Test.eq, 1), (.ifne, .ne, 1), (.iflt, .lt, 1), (.ifge, .ge, 1), (.ifgt, .gt, 1),
    (.ifle, .le, 1), (.ifIcmpeq, .eq, 2), (.ifIcmpne, .ne, 2), (.ifIcmplt, .lt, 2),
    (.ifIcmpge, .ge, 2), (.ifIcmpgt, .gt, 2), (.ifIcmple, .le, 2), (.ifAcmpeq, .eq, 2),
    (.ifAcmpne, .ne, 2), (.ifnull, .eq, 1), (.ifnonnull, .ne, 1)].lookup op

def Opcode.isLoad (op : Opcode) : Bool := Opcode.iload ≤ op && op ≤ Opcode.aload

def Opcode.isStore (op : Opcode) : Bool := Opcode.istore ≤ op && op ≤ Opcode.astore

/-- Whether an instruction pushes a value that does not depend on the state. -/
def Instruction.isConstant : Instruction → Bool
  | .simple op => Opcode.aconstNull ≤ op && op ≤ Opcode.dconst1
  | .int op _ => op == Opcode.bipush || op == Opcode.sipush
  | .field op _ _ _ => op == Opcode.getstatic
  | .ldc _ => true
  | _ => false

def Instruction.isLabel (l : Label) : Instruction → Bool
  | .label l' => l' == l
  | _ => false

/-- What values mean where control depends on them. -/
structure Sense (V : Type) where
  /-- The value a constant instruction pushes. -/
  pushed : Instruction → V
  /-- The answer of a test to its operands, the first pushed one first. -/
  holds : Test → List V → Bool
  /-- The key under which a switch looks a value up. -/
  key : V → Int32

structure State (V : Type) where
  pc : Nat
  stack : List V
  slots : Nat → V

namespace Sense

variable {V : Type} (S : Sense V)

/-- The value an instruction pushes that only pushes one. -/
def read (slots : Nat → V) : Instruction → Option V
  | .var op slot => if op.isLoad then some (slots slot) else none
  | i => if i.isConstant then some (S.pushed i) else none

/-- Where a switch instruction goes with a key. -/
def dispatch (k : Int32) : Instruction → Option Label
  | .tableSwitch min max default targets =>
    if min ≤ k ∧ k ≤ max then targets[(k.toInt - min.toInt).toNat]? else some default
  | .lookupSwitch default keys targets => some (((keys.zip targets).lookup k).getD default)
  | _ => none

/-- The state at a label. -/
def jump (code : List Instruction) (l : Label) (stack : List V) (slots : Nat → V) : State V :=
  ⟨code.findIdx (Instruction.isLabel l), stack, slots⟩

/-- One instruction; none where the instruction has no step in this machine. -/
def step (code : List Instruction) (s : State V) : Option (State V) :=
  match code[s.pc]? with
  | none => none
  | some (.label _) => some { s with pc := s.pc + 1 }
  | some (.jump op l) =>
    if op = Opcode.goto then some (jump code l s.stack s.slots)
    else match op.test? with
      | none => none
      | some (test, count) =>
        if s.stack.length < count then none
        else
          let stack := s.stack.drop count
          if S.holds test (s.stack.take count).reverse then some (jump code l stack s.slots)
          else some ⟨s.pc + 1, stack, s.slots⟩
  | some (.var op slot) =>
    if op.isLoad then some ⟨s.pc + 1, s.slots slot :: s.stack, s.slots⟩
    else if op.isStore then
      match s.stack with
      | v :: stack => some ⟨s.pc + 1, stack, fun n => if n = slot then v else s.slots n⟩
      | [] => none
    else none
  | some i =>
    if i.isConstant then some ⟨s.pc + 1, S.pushed i :: s.stack, s.slots⟩
    else match s.stack with
      | [] => none
      | v :: stack =>
        match i with
        | .simple op => if op = Opcode.pop then some ⟨s.pc + 1, stack, s.slots⟩ else none
        | i => (dispatch (S.key v) i).map fun l => jump code l stack s.slots

end Sense

/-- A run all of whose executed positions are allowed. -/
inductive Steps {V} (S : Sense V) (code : List Instruction) (allowed : Nat → Prop) :
    State V → State V → Prop where
  | refl (s : State V) : Steps S code allowed s s
  | head {s t u} (here : allowed s.pc) (stepped : S.step code s = some t)
      (rest : Steps S code allowed t u) : Steps S code allowed s u

namespace Steps

variable {V : Type} {S : Sense V} {code : List Instruction} {allowed : Nat → Prop} {s t u : State V}

theorem single (here : allowed s.pc) (stepped : S.step code s = some t) :
    Steps S code allowed s t :=
  .head here stepped (.refl t)

theorem trans (first : Steps S code allowed s t) (second : Steps S code allowed t u) :
    Steps S code allowed s u := by
  induction first with
  | refl => exact second
  | head here stepped _ ih => exact .head here stepped (ih second)

theorem mono {allowed'} (weaker : ∀ pc, allowed pc → allowed' pc)
    (run : Steps S code allowed s t) : Steps S code allowed' s t := by
  induction run with
  | refl => exact .refl _
  | head here stepped _ ih => exact .head (weaker _ here) stepped ih

theorem not_arrives {allowed'} (goal : State V → Prop)
    (run : Steps S code allowed s t) (stuck : S.step code t = none)
    (elsewhere : ∀ r : State V, allowed r.pc → ¬ goal r) (last : ¬ goal t)
    (arrived : goal u) : ¬ Steps S code allowed' s u := by
  induction run with
  | refl =>
    intro other
    cases other with
    | refl => exact last arrived
    | head _ stepped _ => rw [stuck] at stepped; cases stepped
  | head here stepped _ ih =>
    intro other
    cases other with
    | refl => exact elsewhere _ here arrived
    | head _ stepped' rest =>
      rw [stepped] at stepped'
      cases stepped'
      exact ih stuck last rest

end Steps

/-- A list of instructions stands at a position of the code. -/
def Stands (code : List Instruction) (pc : Nat) (part : List Instruction) : Prop :=
  part <+: code.drop pc

namespace Stands

variable {code part rest : List Instruction} {pc : Nat} {i : Instruction}

theorem head (stands : Stands code pc (i :: rest)) : code[pc]? = some i := by
  obtain ⟨after, whole⟩ := stands
  have := congrArg (·[0]?) whole
  simpa [getElem?_drop] using this.symm

theorem tail (stands : Stands code pc (i :: rest)) : Stands code (pc + 1) rest := by
  obtain ⟨after, whole⟩ := stands
  refine ⟨after, ?_⟩
  rw [← drop_drop, ← whole]
  rfl

theorem right (stands : Stands code pc (part ++ rest)) : Stands code (pc + part.length) rest := by
  induction part generalizing pc with
  | nil => simpa using stands
  | cons i part ih =>
    have := ih (tail stands)
    simpa [Nat.add_assoc, Nat.add_comm 1] using this

theorem left (stands : Stands code pc (part ++ rest)) : Stands code pc part :=
  (prefix_append part rest).trans stands

theorem append (before part after : List Instruction) :
    Stands (before ++ part ++ after) before.length part :=
  ⟨after, by simp⟩

end Stands

namespace Sense

variable {V : Type} (S : Sense V) {code : List Instruction} {pc : Nat} {stack : List V}
  {slots : Nat → V}

theorem step_label {l} (here : code[pc]? = some (.label l)) :
    S.step code ⟨pc, stack, slots⟩ = some ⟨pc + 1, stack, slots⟩ := by
  simp [step, here]

theorem step_goto {l} (here : code[pc]? = some (.jump .goto l)) :
    S.step code ⟨pc, stack, slots⟩ = some (jump code l stack slots) := by
  simp [step, here]

theorem step_read {i v} (here : code[pc]? = some i) (value : S.read slots i = some v) :
    S.step code ⟨pc, stack, slots⟩ = some ⟨pc + 1, v :: stack, slots⟩ := by
  cases i <;> simp_all [step, read, Instruction.isConstant]

/-- A conditional jump with its operands on an otherwise empty stack. -/
theorem step_test (slots : Nat → V) {op l test vs}
    (here : code[pc]? = some (.jump op l)) (tests : op.test? = some (test, vs.length))
    (conditional : op ≠ Opcode.goto) :
    S.step code ⟨pc, vs.reverse, slots⟩ =
      some (if S.holds test vs then jump code l [] slots else ⟨pc + 1, [], slots⟩) := by
  have whole : vs.reverse.take vs.length = vs.reverse := by simp [take_of_length_le]
  have none_left : vs.reverse.drop vs.length = [] := by simp [drop_of_length_le]
  simp only [step, here, if_neg conditional, tests, length_reverse, Nat.lt_irrefl, if_false,
    whole, none_left, reverse_reverse]
  split <;> rfl

theorem step_pop {v} (here : code[pc]? = some (.simple .pop)) :
    S.step code ⟨pc, v :: stack, slots⟩ = some ⟨pc + 1, stack, slots⟩ := by
  simp [step, here, Instruction.isConstant, Opcode.pop, Opcode.aconstNull, Opcode.dconst1]

theorem step_dispatch {i v l} (here : code[pc]? = some i) (goes : dispatch (S.key v) i = some l) :
    S.step code ⟨pc, v :: stack, slots⟩ = some (jump code l stack slots) := by
  cases i <;> simp_all [step, dispatch, Instruction.isConstant]

theorem step_pop_empty (here : code[pc]? = some (.simple .pop)) :
    S.step code ⟨pc, [], slots⟩ = none := by
  simp [step, here, Instruction.isConstant, Opcode.pop, Opcode.aconstNull, Opcode.dconst1]

theorem step_store_empty {op slot} (here : code[pc]? = some (.var op slot))
    (stores : op.isStore) (loads : op.isLoad = false) :
    S.step code ⟨pc, [], slots⟩ = none := by
  simp [step, here, stores, loads]

end Sense

theorem Steps.push_all {V S code} (allowed : Nat → Prop)
    {slots pushes} {vs : List V} (stack : List V) {pc}
    (stands : Stands code pc pushes) (values : pushes.map (S.read slots) = vs.map some)
    (inside : ∀ k < pushes.length, allowed (pc + k)) :
    Steps S code allowed ⟨pc, stack, slots⟩ ⟨pc + pushes.length, vs.reverse ++ stack, slots⟩ := by
  induction pushes generalizing pc vs stack with
  | nil =>
    have : vs = [] := by simpa using values.symm
    subst this
    exact .refl _
  | cons i pushes ih =>
    cases vs with
    | nil => simp at values
    | cons v vs =>
      simp only [map_cons, cons.injEq] at values
      have next := ih (v :: stack) stands.tail values.2 fun k bound => by
        have := inside (k + 1) (by simpa using bound)
        simpa [Nat.add_assoc, Nat.add_comm 1] using this
      refine .head (by simpa using inside 0 (by simp)) (S.step_read stands.head values.1) ?_
      simpa [Nat.add_assoc, Nat.add_comm 1] using next

end Restack.Stack
