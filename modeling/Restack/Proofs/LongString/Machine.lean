/-
# Running helper methods

A machine for the stack code of templates: frames with an operand stack and slots,
calls of template methods, and the library routines that the decoder uses. A string is
its units; a buffer is an address. `Reaches` is a run of any length; the lemmas
`Reaches.*` run one instruction each.
-/
import Restack.LongString.Template
import Restack.Proofs.Outcome
import Restack.Proofs.Stack.Machine
import Restack.Signature.Descriptor

namespace Restack.LongString

open Stack (Instruction Opcode Label)

/-! ## Values -/

inductive Word where
  | int (v : Int32)
  /-- A string by its sixteen-bit units. -/
  | text (units : List Nat)
  /-- An array of strings. -/
  | texts (parts : List (List Nat))
  | buffer (address : Nat)

def Word.isInt : Word → Bool
  | .int _ => true
  | _ => false

inductive Fault where
  | thrown (exception : String)
  | stuck

/-- The contents of buffers by address; none before the constructor has run. -/
abbrev Heap := List (Option (List Nat))

/-- The unit in the low sixteen bits. -/
def lowUnit (v : Int32) : Nat := (v.toInt % 65536).toNat

/-- The value of a digit or letter. -/
def digitValue? (u : Nat) : Option Nat :=
  if 48 ≤ u ∧ u ≤ 57 then some (u - 48)
  else if 65 ≤ u ∧ u ≤ 90 then some (u - 55)
  else if 97 ≤ u ∧ u ≤ 122 then some (u - 87)
  else none

/-- Digits of a radix, most significant first, behind those that make up `n`. -/
def digits? (radix : Nat) : Nat → List Nat → Option Nat
  | n, [] => some n
  | n, u :: rest =>
    match digitValue? u with
    | some d => if d < radix then digits? radix (radix * n + d) rest else none
    | none => none

/-- Whether a text has a minus sign, and the text behind its sign. -/
def signed : List Nat → Bool × List Nat
  | 43 :: rest => (false, rest)
  | 45 :: rest => (true, rest)
  | text => (false, text)

/-- A number with an optional sign in a radix from 2 to 36, if it fits. -/
def parseInt? (radix : Int32) (text : List Nat) : Option Int32 :=
  let (negative, numeral) := signed text
  if numeral.isEmpty || radix.toInt < 2 || 36 < radix.toInt then none
  else (digits? radix.toInt.toNat 0 numeral).bind fun n =>
    let v : Int := if negative then -n else n
    if (Int32.ofInt v).toInt = v then some (Int32.ofInt v) else none

/-! ## Library routines -/

inductive Routine where
  | construct
  | append
  | finish
  | length
  | substring
  | parseInt
deriving DecidableEq

/-- How each routine is called. -/
def routines : List ((Opcode × String × String × String) × Routine) :=
  [((.invokespecial, builder, "<init>", "()V"), .construct),
    ((.invokevirtual, builder, "append", "(C)Ljava/lang/StringBuilder;"), .append),
    ((.invokevirtual, builder, "toString", "()Ljava/lang/String;"), .finish),
    ((.invokevirtual, "java/lang/String", "length", "()I"), .length),
    ((.invokevirtual, "java/lang/String", "substring", "(II)Ljava/lang/String;"), .substring),
    ((.invokestatic, "java/lang/Integer", "parseInt", "(Ljava/lang/String;I)I"), .parseInt)]

def Routine.run : Routine → List Word → Heap → Except Fault (List Word × Heap)
  | .construct, .buffer a :: rest, heap =>
    match heap[a]? with
    | some none => .ok (rest, heap.set a (some []))
    | _ => .error .stuck
  | .append, .int c :: .buffer a :: rest, heap =>
    match heap[a]? with
    | some (some us) => .ok (.buffer a :: rest, heap.set a (some (us ++ [lowUnit c])))
    | _ => .error .stuck
  | .finish, .buffer a :: rest, heap =>
    match heap[a]? with
    | some (some us) => .ok (.text us :: rest, heap)
    | _ => .error .stuck
  | .length, .text us :: rest, heap => .ok (.int (Int32.ofNat us.length) :: rest, heap)
  | .substring, .int stop :: .int start :: .text us :: rest, heap =>
    if 0 ≤ start.toInt ∧ start.toInt ≤ stop.toInt ∧ stop.toInt ≤ us.length then
      .ok (.text ((us.take stop.toInt.toNat).drop start.toInt.toNat) :: rest, heap)
    else .error (.thrown "java/lang/StringIndexOutOfBoundsException")
  | .parseInt, .int radix :: .text us :: rest, heap =>
    match parseInt? radix us with
    | some v => .ok (.int v :: rest, heap)
    | none => .error (.thrown "java/lang/NumberFormatException")
  | _, _, _ => .error .stuck

/-! ## Instructions -/

structure Frame where
  code : List Instruction
  pc : Nat
  stack : List Word
  slots : List (Option Word)

structure Machine where
  frame : Frame
  callers : List Frame
  heap : Heap

/-- What is there behind one instruction. -/
inductive Next where
  | running (m : Machine)
  | returned (v : Word)

/-- Slots with one of them set; there are as many as were needed so far. -/
def storeSlot : List (Option Word) → Nat → Word → List (Option Word)
  | [], 0, v => [some v]
  | [], slot + 1, v => none :: storeSlot [] slot v
  | _ :: slots, 0, v => some v :: slots
  | x :: slots, slot + 1, v => x :: storeSlot slots slot v

/-- Instructions that work on the operand stack alone. -/
def operate (op : Opcode) (stack : List Word) : Except Fault (List Word) :=
  if Opcode.iconstM1 ≤ op ∧ op ≤ Opcode.iconst5 then
    .ok (.int (Int32.ofInt (op.toNat - 3)) :: stack)
  else match op, stack with
    | .dup, v :: rest => .ok (v :: v :: rest)
    | .pop, _ :: rest => .ok rest
    | .iadd, .int b :: .int a :: rest => .ok (.int (a + b) :: rest)
    | .i2c, .int v :: rest => .ok (.int (Int32.ofNat (lowUnit v)) :: rest)
    | .arraylength, .texts parts :: rest => .ok (.int (Int32.ofNat parts.length) :: rest)
    | .aaload, .int i :: .texts parts :: rest =>
      if i.toInt < 0 then .error (.thrown "java/lang/ArrayIndexOutOfBoundsException")
      else match parts[i.toInt.toNat]? with
        | some part => .ok (.text part :: rest)
        | none => .error (.thrown "java/lang/ArrayIndexOutOfBoundsException")
    | _, _ => .error .stuck

namespace Machine

/-- Goes on behind the instruction. -/
def advance (m : Machine) (stack : List Word) : Machine :=
  { m with frame := { m.frame with pc := m.frame.pc + 1, stack } }

/-- Goes on at a label. -/
def jump (m : Machine) (l : Label) (stack : List Word) : Machine :=
  { m with frame :=
    { m.frame with pc := m.frame.code.findIdx (Instruction.isLabel l), stack } }

def enter (t : Template) (m : Machine) (name descriptor : String) : Except Fault Next :=
  match t.methods.find? (fun h => h.name == name && h.descriptor == descriptor),
      Signature.methodDescriptor descriptor with
  | some h, .ok signature =>
    let count := signature.args.length
    let stack := m.frame.stack
    if stack.length < count then .error .stuck
    else .ok (.running {
      frame := ⟨h.code.instructions, 0, [], (stack.take count).reverse.map some⟩
      callers := (m.advance (stack.drop count)).frame :: m.callers
      heap := m.heap })
  | _, _ => .error .stuck

def leave (m : Machine) (v : Word) : Next :=
  match m.callers with
  | [] => .returned v
  | f :: rest => .running ⟨{ f with stack := v :: f.stack }, rest, m.heap⟩

def step (t : Template) (m : Machine) : Except Fault Next :=
  let stack := m.frame.stack
  match m.frame.code[m.frame.pc]? with
  | some (.label _) => .ok (.running (m.advance stack))
  | some (.simple op) =>
    if op = .ireturn ∨ op = .areturn then
      match stack with
      | v :: _ => if v.isInt = (op == .ireturn) then .ok (m.leave v) else .error .stuck
      | [] => .error .stuck
    else (operate op stack).map fun stack => .running (m.advance stack)
  | some (.int op v) =>
    if op = .bipush then .ok (.running (m.advance (.int v :: stack))) else .error .stuck
  | some (.var op slot) =>
    if op = .iload ∨ op = .aload then
      match m.frame.slots[slot]? with
      | some (some v) =>
        if v.isInt = (op == .iload) then .ok (.running (m.advance (v :: stack))) else .error .stuck
      | _ => .error .stuck
    else if op = .istore ∨ op = .astore then
      match stack with
      | v :: stack =>
        if v.isInt = (op == .istore) then
          .ok (.running { m.advance stack with frame :=
            { (m.advance stack).frame with slots := storeSlot m.frame.slots slot v } })
        else .error .stuck
      | [] => .error .stuck
    else .error .stuck
  | some (.iinc slot increment) =>
    match m.frame.slots[slot]? with
    | some (some (.int v)) =>
      .ok (.running { m.advance stack with frame := { (m.advance stack).frame with
        slots := storeSlot m.frame.slots slot (.int (v + increment.toInt32)) } })
    | _ => .error .stuck
  | some (.type op name) =>
    if op = .new ∧ name = builder then
      .ok (.running { m.advance (.buffer m.heap.length :: stack) with heap := m.heap ++ [none] })
    else .error .stuck
  | some (.method op owner name descriptor _) =>
    if op = .invokestatic ∧ owner = t.owner then m.enter t name descriptor
    else match routines.lookup (op, owner, name, descriptor) with
      | some r => (r.run stack m.heap).map fun (stack, heap) =>
        .running { m.advance stack with heap }
      | none => .error .stuck
  | some (.jump op l) =>
    if op = .goto then .ok (.running (m.jump l stack))
    else if op = .ifIcmpge then
      match stack with
      | .int b :: .int a :: stack =>
        .ok (.running (if a ≥ b then m.jump l stack else m.advance stack))
      | _ => .error .stuck
    else .error .stuck
  | _ => .error .stuck

/-- Runs at most `n` instructions. -/
def run (t : Template) : Nat → Machine → Except Fault Next
  | 0, m => .ok (.running m)
  | n + 1, m =>
    match m.step t with
    | .ok (.running m) => run t n m
    | last => last

/-- A machine about to run a method of a template. -/
def start (code : List Instruction) (args : List Word) : Machine :=
  ⟨⟨code, 0, [], args.map some⟩, [], []⟩

end Machine

/-! ## Runs -/

/-- A run of any number of instructions. -/
inductive Reaches (t : Template) : Machine → Machine → Prop where
  | refl (m : Machine) : Reaches t m m
  | head {m next last} (stepped : m.step t = .ok (.running next))
      (rest : Reaches t next last) : Reaches t m last

namespace Reaches

variable {t : Template} {m last : Machine}

lemma trans {middle} (first : Reaches t m middle) (second : Reaches t middle last) : Reaches t m last := by
  induction first with
  | refl => exact second
  | head stepped _ ih => exact .head stepped (ih second)

lemma returns {v} (reached : Reaches t m last) (stepped : last.step t = .ok (.returned v)) :
    ∃ n, m.run t n = .ok (.returned v) := by
  induction reached with
  | refl => exact ⟨1, by rw [Machine.run, stepped]⟩
  | head first _ ih =>
    obtain ⟨n, ran⟩ := ih stepped
    exact ⟨n + 1, by rw [Machine.run, first]; exact ran⟩

variable {code : List Instruction} {pc slot : Nat} {op : Opcode} {stack stack' : List Word}
  {slots : List (Option Word)} {callers : List Frame} {heap heap' : Heap} {v : Word} {l : Label}

open Machine

lemma label (here : code[pc]? = some (.label l))
    (rest : Reaches t ⟨⟨code, pc + 1, stack, slots⟩, callers, heap⟩ last) :
    Reaches t ⟨⟨code, pc, stack, slots⟩, callers, heap⟩ last :=
  .head (by simp [step, here, advance]) rest

lemma operate (here : code[pc]? = some (.simple op)) (stays : ¬ (op = .ireturn ∨ op = .areturn))
    (done : LongString.operate op stack = .ok stack')
    (rest : Reaches t ⟨⟨code, pc + 1, stack', slots⟩, callers, heap⟩ last) :
    Reaches t ⟨⟨code, pc, stack, slots⟩, callers, heap⟩ last :=
  .head (by simp [step, here, stays, done, Except.map, advance]) rest

lemma pushByte {k} (here : code[pc]? = some (.int .bipush k))
    (rest : Reaches t ⟨⟨code, pc + 1, .int k :: stack, slots⟩, callers, heap⟩ last) :
    Reaches t ⟨⟨code, pc, stack, slots⟩, callers, heap⟩ last :=
  .head (by simp [step, here, advance]) rest

lemma load (here : code[pc]? = some (.var op slot)) (loads : op = .iload ∨ op = .aload)
    (value : slots[slot]? = some (some v)) (kind : v.isInt = (op == .iload))
    (rest : Reaches t ⟨⟨code, pc + 1, v :: stack, slots⟩, callers, heap⟩ last) :
    Reaches t ⟨⟨code, pc, stack, slots⟩, callers, heap⟩ last :=
  .head (by simp [step, here, loads, value, kind, advance]) rest

lemma store (here : code[pc]? = some (.var op slot)) (loads : ¬ (op = .iload ∨ op = .aload))
    (stores : op = .istore ∨ op = .astore) (kind : v.isInt = (op == .istore))
    (rest : Reaches t ⟨⟨code, pc + 1, stack, storeSlot slots slot v⟩, callers, heap⟩ last) :
    Reaches t ⟨⟨code, pc, v :: stack, slots⟩, callers, heap⟩ last :=
  .head (by simp [step, here, loads, stores, kind, advance]) rest

lemma increment {k by_} (here : code[pc]? = some (.iinc slot by_))
    (value : slots[slot]? = some (some (.int k))) (rest : Reaches t
      ⟨⟨code, pc + 1, stack, storeSlot slots slot (.int (k + by_.toInt32))⟩, callers, heap⟩ last) :
    Reaches t ⟨⟨code, pc, stack, slots⟩, callers, heap⟩ last :=
  .head (by simp [step, here, value, advance]) rest

lemma new (here : code[pc]? = some (.type .new builder))
    (rest : Reaches t ⟨⟨code, pc + 1, .buffer heap.length :: stack, slots⟩, callers, heap ++ [none]⟩ last) :
    Reaches t ⟨⟨code, pc, stack, slots⟩, callers, heap⟩ last :=
  .head (by simp [step, here, advance]) rest

lemma routine {owner name descriptor isInterface r}
    (here : code[pc]? = some (.method op owner name descriptor isInterface))
    (elsewhere : ¬ (op = .invokestatic ∧ owner = t.owner))
    (found : routines.lookup (op, owner, name, descriptor) = some r)
    (ran : r.run stack heap = .ok (stack', heap'))
    (rest : Reaches t ⟨⟨code, pc + 1, stack', slots⟩, callers, heap'⟩ last) :
    Reaches t ⟨⟨code, pc, stack, slots⟩, callers, heap⟩ last :=
  .head (by simp only [step, here, if_neg elsewhere, found, ran, Except.map, advance]) rest

lemma call {name descriptor isInterface h} (args : List Word)
    (here : code[pc]? = some (.method .invokestatic t.owner name descriptor isInterface))
    (found : t.methods.find? (fun h => h.name == name && h.descriptor == descriptor) = some h)
    (typed : (Signature.methodDescriptor descriptor).toOption.map (·.args.length) = some args.length)
    (rest : Reaches t ⟨⟨h.code.instructions, 0, [], args.map some⟩,
      ⟨code, pc + 1, stack, slots⟩ :: callers, heap⟩ last) :
    Reaches t ⟨⟨code, pc, args.reverse ++ stack, slots⟩, callers, heap⟩ last := by
  refine .head ?_ rest
  obtain ⟨signature, parsed, count⟩ := Option.map_eq_some_iff.1 typed
  have parsed := Outcome.of_toOption parsed
  have whole : (args.reverse ++ stack).take args.length = args.reverse := by
    rw [← args.length_reverse, List.take_left]
  have others : (args.reverse ++ stack).drop args.length = stack := by
    rw [← args.length_reverse, List.drop_left]
  simp [step, here, enter, found, parsed, count, whole, others, advance]

lemma leave {f} (here : code[pc]? = some (.simple op)) (leaves : op = .ireturn ∨ op = .areturn)
    (kind : v.isInt = (op == .ireturn))
    (rest : Reaches t ⟨{ f with stack := v :: f.stack }, callers, heap⟩ last) :
    Reaches t ⟨⟨code, pc, v :: stack, slots⟩, f :: callers, heap⟩ last :=
  .head (by simp [step, here, leaves, kind, Machine.leave]) rest

lemma goto (here : code[pc]? = some (.jump .goto l))
    (rest : Reaches t ⟨⟨code, code.findIdx (Instruction.isLabel l), stack, slots⟩, callers, heap⟩ last) :
    Reaches t ⟨⟨code, pc, stack, slots⟩, callers, heap⟩ last :=
  .head (by simp [step, here, Machine.jump]) rest

lemma taken {a b} (here : code[pc]? = some (.jump .ifIcmpge l)) (atLeast : b ≤ a)
    (rest : Reaches t ⟨⟨code, code.findIdx (Instruction.isLabel l), stack, slots⟩, callers, heap⟩ last) :
    Reaches t ⟨⟨code, pc, .int b :: .int a :: stack, slots⟩, callers, heap⟩ last :=
  .head (by simp [step, here, Opcode.goto, Opcode.ifIcmpge, atLeast, Machine.jump]) rest

lemma passed {a b} (here : code[pc]? = some (.jump .ifIcmpge l)) (less : ¬ b ≤ a)
    (rest : Reaches t ⟨⟨code, pc + 1, stack, slots⟩, callers, heap⟩ last) :
    Reaches t ⟨⟨code, pc, .int b :: .int a :: stack, slots⟩, callers, heap⟩ last :=
  .head (by simp [step, here, Opcode.goto, Opcode.ifIcmpge, less, advance]) rest

end Reaches

end Restack.LongString
