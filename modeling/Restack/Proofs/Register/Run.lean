/-
# Running bodies

What a body does to the world around it and how it ends, instruction by
instruction. World, events and endings are those of the intermediate form, so
that runs of both can be compared; all else is read off the instructions.

Positions count instructions: marks and empty ones take no room. A register that
was never written holds zero. A wide value is kept whole by the first register of
its pair, and a body that reads the second one is at fault. The result of a call
waits for the instruction behind the call. When an instruction throws it writes
nothing: the first clause that catches the exception goes on with the registers as
they were.
-/
import Restack.Access
import Restack.Conversion.Constant
import Restack.Ir.Typing
import Restack.Lifting.Outline
import Restack.Proofs.Ir.Run
import Restack.Proofs.Outcome

namespace Restack.Register

open List Outcome

open Ir (Constant Expr Stmt Operation Event World Ending Observed)
open Lifting (throws)

/-! ## Positions -/

/-- Whether the instruction takes a position of its own. -/
def Instruction.takesRoom : Instruction → Bool
  | mark _ | nop => false
  | _ => true

def Instruction.marks (label : Label) : Instruction → Bool
  | mark l => l = label
  | _ => false

/-- How many instructions stand in front of the last mark of a name. -/
def positionIn (label : Label) : List Instruction → Option Nat
  | [] => none
  | i :: rest => match positionIn label rest with
    | some pos => some (if i.takesRoom then pos + 1 else pos)
    | none => if i.marks label then some 0 else none

namespace Code

def steps (code : Code) : List Instruction := code.instructions.filter (·.takesRoom)

def position? (code : Code) (label : Label) : Option Nat := positionIn label code.instructions

/-- Whether a position lies in a guarded range. -/
def guards (code : Code) (pos : Nat) (t : TryRange) : Bool :=
  match code.position? t.start, code.position? t.stop with
  | some first, some stop => first ≤ pos && pos < stop
  | _, _ => false

/-- The clauses around a position in order of priority. -/
def clausesAt (code : Code) (pos : Nat) : List CatchClause :=
  (code.tries.filter (code.guards pos)).flatMap (·.clauses)

end Code

/-! ## Commands -/

inductive Operand where
  | reg (r : Reg)
  | constant (c : Constant)

/-- Where the answer to an operation goes. -/
inductive Target where
  | reg (dest : Reg) (wide : Bool)
  | result
  | nowhere

inductive Jump where
  | ret (src : Option Reg)
  | raise (src : Reg)
  | goto (target : Label)
  /-- An absent second operand is zero or null. -/
  | branch (test : Test) (first : Reg) (second : Option Reg) (target : Label)
  /-- A number without a target goes on behind the instruction. -/
  | switch (src : Reg) (target? : Int32 → Option Label)

/-- What an instruction asks for. Operations are named as in events, their
operands blank. -/
inductive Command where
  | copy (dest : Reg) (wide : Bool) (src : Operand)
  | takeResult (dest : Reg) (wide : Bool)
  | takeCaught (dest : Reg)
  | compute (shape : Expr) (args : List Operand) (dest : Reg) (wide : Bool)
  | operate (operation : Operation) (args : List Operand) (target : Target)
  | jump (j : Jump)

namespace Instruction

/-- The first register of every argument; a wide argument takes two. -/
def heads : List Bool → List Reg → Option (List Reg)
  | [], _ => some []
  | _ :: _, [] => none
  | wide :: rest, r :: regs => (heads rest (if wide then regs.drop 1 else regs)).map (r :: ·)

/-- The registers that a call passes, the receiver first. -/
def passed? (descriptor : String) (receiver : Bool) (regs : List Reg) : Option (List Reg) :=
  match Signature.methodDescriptor descriptor with
  | .ok signature =>
    heads ((if receiver then [false] else []) ++ signature.args.map (·.isWide)) regs
  | .error _ => none

/-- An operation whose value goes to a register: an event if the instruction throws. -/
def evaluate (i : Instruction) (shape : Expr) (args : List Operand) (dest : Reg)
    (wide : Bool) : Command :=
  if throws i then .operate (.expr shape) args (.reg dest wide) else .compute shape args dest wide

def call (shape : List Ir.Value → Expr) (regs : List Reg) : Command :=
  .operate (.expr (shape (regs.map fun _ => .zero))) (regs.map .reg) .result

def perform (shape : Stmt) (regs : List Reg) : Command :=
  .operate (.stmt shape) (regs.map .reg) .nowhere

/-- The command of an instruction; marks and empty ones have none. -/
def command? (i : Instruction) : Option Command :=
  match i with
  | mark _ | nop => none
  | move kind dest src => some (.copy dest (kind == .wide) (.reg src))
  | moveResult kind dest => some (.takeResult dest (kind == .wide))
  | moveException dest => some (.takeCaught dest)
  | returnVoid => some (.jump (.ret none))
  | returnValue _ src => some (.jump (.ret (some src)))
  | const dest value => some (.copy dest false (.constant (.literal value.toInt64 false)))
  | constWide dest value => some (.copy dest true (.constant (.literal value true)))
  | constString dest s => some (.copy dest false (.constant (.string s)))
  | constClass dest type => some (.copy dest false (.constant (.type type)))
  | constMethodHandle dest handle => match Conversion.handle handle with
    | .ok h => some (.copy dest false (.constant (.methodHandle h)))
    | .error _ => none
  | constMethodType dest descriptor => some (.copy dest false (.constant (.methodType descriptor)))
  | monitorEnter src => some (perform (.monitorEnter .zero) [src])
  | monitorExit src => some (perform (.monitorExit .zero) [src])
  | checkCast reg type => some (i.evaluate (.checkCast .zero type) [.reg reg] reg false)
  | instanceOf dest src type => some (i.evaluate (.instanceOf .zero type) [.reg src] dest false)
  | arrayLength dest source => some (i.evaluate (.arrayLength .zero) [.reg source] dest false)
  | newInstance dest type => some (i.evaluate (.newInstance type) [] dest false)
  | newArray dest size type => some (i.evaluate (.newArray type .zero) [.reg size] dest false)
  | filledNewArray args type => some (call (.filledArray type) args)
  | fillArrayData target data => some (perform (.fillArrayData .zero data) [target])
  | throw src => some (.jump (.raise src))
  | goto target => some (.jump (.goto target))
  | packedSwitch src first targets =>
    some (.jump (.switch src fun key => targets[(key - first).toUInt32.toNat]?))
  | sparseSwitch src cases => some (.jump (.switch src fun key => cases.lookup key))
  | compare kind dest first second =>
    some (i.evaluate (.compare kind .zero .zero) [.reg first, .reg second] dest false)
  | branch test first second target => some (.jump (.branch test first (some second) target))
  | branchZero test src target => some (.jump (.branch test src none target))
  | array op value source index =>
    if op.isGet then
      some (i.evaluate (.arrayLoad op .zero .zero) [.reg source, .reg index] value op.isWide)
    else some (perform (.arrayStore op .zero .zero .zero) [source, index, value])
  | instanceField op value object field =>
    if op.isGet then some (i.evaluate (.getField field .zero) [.reg object] value op.isWide)
    else some (perform (.putField field .zero .zero) [object, value])
  | staticField op value field =>
    if op.isGet then some (i.evaluate (.getStatic field) [] value op.isWide)
    else some (perform (.putStatic field .zero) [value])
  | invoke kind args method =>
    (passed? method.descriptor kind.hasReceiver args).map (call (.invoke kind method))
  | invokePolymorphic args method proto =>
    (passed? proto true args).map (call (.invokePolymorphic method proto))
  | invokeCustom args site => (passed? site.descriptor false args).map (call (.invokeCustom site))
  | unary op dest src =>
    some (i.evaluate (.unary op .zero) [.reg src] dest (Ir.unaryTypes op).2.isWide)
  | binary op dest first second =>
    some (i.evaluate (.binary op .zero .zero) [.reg first, .reg second] dest (Ir.binaryType op).isWide)
  | binaryLiteral op dest src literal reverse =>
    let c := Operand.constant (.literal literal.toInt64 false)
    some (i.evaluate (.binary op .zero .zero) (if reverse then [c, .reg src] else [.reg src, c]) dest
      (Ir.binaryType op).isWide)

end Instruction

/-! ## States -/

inductive Cell (V : Type) where
  | value (v : V)
  /-- The second half of a wide value. -/
  | half

structure State (V : Type) where
  regs : Reg → Cell V
  /-- The result of the call in front of the position. -/
  result : Option V
  /-- The exception that the last handler received. -/
  caught : V
  trace : List (Event V)

/-- What can be wrong with a body: it reads the second half of a wide value, or
there is no instruction, no label or no result where one is needed. -/
inductive Fault where
  | half
  | astray

variable {V : Type}

namespace State

def read (w : World V) (st : State V) : Operand → Except Fault V
  | .reg r => match st.regs r with
    | .value v => .ok v
    | .half => .error .half
  | .constant c => .ok (w.constant c)

/-- Reads a register if one is given. -/
def readIf (w : World V) (st : State V) : Option Reg → Except Fault (Option V)
  | some r => (st.read w (.reg r)).map some
  | none => .ok none

def write (st : State V) (dest : Reg) (wide : Bool) (v : V) : State V :=
  { st with regs := fun r =>
      if r = dest then .value v else if wide && r == dest + 1 then .half else st.regs r }

/-- Drops a result that was not taken up. -/
def settle (st : State V) : State V := { st with result := none }

/-- Puts a value where it goes. -/
def store (st : State V) (v : V) : Target → State V
  | .reg dest wide => (st.write dest wide v).settle
  | .result => { st with result := some v }
  | .nowhere => st.settle

def record (st : State V) (e : Event V) : State V := { st with trace := st.trace ++ [e] }

end State

/-! ## Runs -/

/-- Where control is after an instruction, or how the body ended there. -/
inductive Arrival (V : Type) where
  | moves (pos : Nat) (st : State V)
  | ends (e : Ending V) (trace : List (Event V))

def Arrival.trace : Arrival V → List (Event V)
  | moves _ st => st.trace
  | ends _ trace => trace

namespace Code

variable (code : Code) (w : World V)

def goTo (st : State V) (target : Label) : Except Fault (Arrival V) :=
  match code.position? target with
  | some pos => .ok (.moves pos st.settle)
  | none => .error .astray

/-- Sends an exception to the first clause around a position that catches it. -/
def raise (pos : Nat) (st : State V) (x : V) : Except Fault (Arrival V) :=
  match (code.clausesAt pos).find? fun c => c.catches.all (w.isA · x) with
  | some c => code.goTo { st with caught := x } c.handler
  | none => .ok (.ends (.escaped x) st.trace)

def leap (pos : Nat) (st : State V) : Jump → Except Fault (Arrival V)
  | .ret none => .ok (.ends (.returned none) st.trace)
  | .ret (some src) => do .ok (.ends (.returned (some (← st.read w (.reg src)))) st.trace)
  | .raise src => do code.raise w pos st (w.thrown (← st.read w (.reg src)))
  | .goto target => code.goTo st target
  | .branch test first second target => do
    let a ← st.read w (.reg first)
    let b ← st.readIf w second
    if w.holds test a b then code.goTo st target else .ok (.moves (pos + 1) st.settle)
  | .switch src target? => do
    match target? (w.key (← st.read w (.reg src))) with
    | some target => code.goTo st target
    | none => .ok (.moves (pos + 1) st.settle)

/-- Carries out the command of the instruction at a position. -/
def exec (pos : Nat) (st : State V) : Command → Except Fault (Arrival V)
  | .copy dest wide src => do
    .ok (.moves (pos + 1) (st.store (← st.read w src) (.reg dest wide)))
  | .takeResult dest wide => match st.result with
    | some v => .ok (.moves (pos + 1) (st.store v (.reg dest wide)))
    | none => .error .astray
  | .takeCaught dest => .ok (.moves (pos + 1) (st.store st.caught (.reg dest false)))
  | .compute shape args dest wide => do
    .ok (.moves (pos + 1) (st.store (w.compute shape (← args.mapM (st.read w))) (.reg dest wide)))
  | .operate operation args target => do
    let event : Event V := ⟨operation, ← args.mapM (st.read w)⟩
    match w.respond st.trace event with
    | .exception x => code.raise w pos (st.record event) x
    | .value v => .ok (.moves (pos + 1) ((st.record event).store v target))
  | .jump j => code.leap w pos st j

def step (pos : Nat) (st : State V) : Except Fault (Arrival V) :=
  match code.steps[pos]?.bind (·.command?) with
  | some c => code.exec w pos st c
  | none => .error .astray

/-- Runs at most a number of instructions from a position on. -/
def runFrom : Nat → Nat → State V → Except Fault (Observed V)
  | 0, _, st => .ok ⟨st.trace, none⟩
  | n + 1, pos, st => match code.step w pos st with
    | .ok (.moves pos st) => runFrom n pos st
    | .ok (.ends e trace) => .ok ⟨trace, some e⟩
    | .error fault => .error fault

end Code

/-! ## Arguments -/

def isPair (type : String) : Bool := type = "J" || type = "D"

/-- The registers that an argument of a type takes. -/
def argumentWidth (type : String) : Nat := if isPair type then 2 else 1

/-- The types of the arguments, the receiver first. -/
def Method.argumentTypes (method : Method) : List String :=
  let declared := match Signature.methodDescriptor method.ref.descriptor with
    | .ok signature => signature.args.map (·.text)
    | .error _ => []
  if Access.Flags.has method.access Access.staticFlag then declared
  else method.ref.owner :: declared

/-- Puts arguments from number `n` on into registers from `r` on. -/
def State.receive (w : World V) : Nat → Reg → List String → State V → State V
  | _, _, [], st => st
  | n, r, type :: rest, st =>
    receive w (n + 1) (r + argumentWidth type) rest (st.write r (isPair type) (w.argument n))

/-- The arguments lie in the last registers, all others are zero. -/
def Method.start (method : Method) (code : Code) (w : World V) (caught : V)
    (trace : List (Event V)) : State V :=
  let types := method.argumentTypes
  State.receive w 0 (code.registers - total (types.map argumentWidth)) types
    ⟨fun _ => .value (w.constant (.literal 0 false)), none, caught, trace⟩

/-- Runs at most a number of instructions of the body of a method. -/
def Method.run (method : Method) (code : Code) (w : World V) (n : Nat) (caught : V)
    (trace : List (Event V)) : Except Fault (Observed V) :=
  code.runFrom w n 0 (method.start code w caught trace)

/-! ## Longer runs -/

@[simp] lemma State.store_trace (st : State V) (v : V) (target : Target) :
    (st.store v target).trace = st.trace := by
  cases target <;> rfl

@[simp] lemma State.record_trace (st : State V) (e : Event V) :
    (st.record e).trace = st.trace ++ [e] := rfl

lemma State.receive_trace (w : World V) (n : Nat) (r : Reg) (types : List String)
    (st : State V) : (st.receive w n r types).trace = st.trace := by
  induction types generalizing n r st with
  | nil => rfl
  | cons type types ih => exact ih ..

lemma Method.start_trace (method : Method) (code : Code) (w : World V) (caught : V)
    (trace : List (Event V)) : (method.start code w caught trace).trace = trace :=
  State.receive_trace ..

/-- One run saw what another did, or the beginning of it. -/
structure Observes (first second : Observed V) : Prop where
  trace : first.trace <+: second.trace
  ending : first.ending ≠ none → first = second

namespace Code

variable {code : Code} {w : World V} {pos : Nat} {st : State V} {a : Arrival V}

lemma goTo_trace {target} (goes : code.goTo st target = .ok a) : a.trace = st.trace := by
  rw [goTo] at goes
  split at goes <;> cases goes
  rfl

lemma raise_trace {x} (raises : code.raise w pos st x = .ok a) : a.trace = st.trace := by
  rw [raise] at raises
  split at raises
  · exact (goTo_trace raises).trans rfl
  · cases raises
    rfl

lemma leap_trace {j} (leaps : code.leap w pos st j = .ok a) : a.trace = st.trace := by
  cases j with
  | ret src =>
    cases src with
    | none =>
      cases leaps
      rfl
    | some src =>
      obtain ⟨v, -, leaps⟩ := bind_ok.1 leaps
      cases leaps
      rfl
  | raise src =>
    obtain ⟨v, -, leaps⟩ := bind_ok.1 leaps
    exact raise_trace leaps
  | goto target => exact goTo_trace leaps
  | branch test first second target =>
    obtain ⟨a, -, leaps⟩ := bind_ok.1 leaps
    obtain ⟨b, -, leaps⟩ := bind_ok.1 leaps
    split at leaps
    · exact goTo_trace leaps
    · cases leaps
      rfl
  | switch src target? =>
    obtain ⟨v, -, leaps⟩ := bind_ok.1 leaps
    split at leaps
    · exact goTo_trace leaps
    · cases leaps
      rfl

lemma step_trace (steps : code.step w pos st = .ok a) : st.trace <+: a.trace := by
  rw [step] at steps
  split at steps
  · rename_i c _
    cases c with
    | copy dest wide src =>
      obtain ⟨v, -, steps⟩ := bind_ok.1 steps
      cases steps
      simp [Arrival.trace]
    | takeResult dest wide =>
      simp only [exec] at steps
      split at steps <;> cases steps
      simp [Arrival.trace]
    | takeCaught dest =>
      cases steps
      simp [Arrival.trace]
    | compute shape args dest wide =>
      obtain ⟨vs, -, steps⟩ := bind_ok.1 steps
      cases steps
      simp [Arrival.trace]
    | operate operation args target =>
      obtain ⟨vs, -, steps⟩ := bind_ok.1 steps
      simp only at steps
      split at steps
      · rw [raise_trace steps]
        exact prefix_append _ _
      · cases steps
        simp [Arrival.trace]
    | jump j => exact (leap_trace steps).symm ▸ prefix_rfl
  · cases steps

lemma runFrom_trace {n o} (ran : code.runFrom w n pos st = .ok o) : st.trace <+: o.trace := by
  induction n generalizing pos st with
  | zero =>
    cases ran
    exact prefix_rfl
  | succ n ih =>
    rw [runFrom] at ran
    split at ran
    · rename_i steps
      exact (step_trace steps).trans (ih ran)
    · rename_i steps
      cases ran
      exact step_trace steps
    · cases ran

lemma runFrom_upto {j k} (le : j ≤ k) {o} (ran : code.runFrom w k pos st = .ok o) :
    ∃ o', code.runFrom w j pos st = .ok o' ∧ Observes o' o := by
  induction j generalizing k pos st with
  | zero => exact ⟨_, rfl, runFrom_trace ran, fun over_ => absurd rfl over_⟩
  | succ j ih =>
    obtain ⟨k, rfl⟩ : ∃ i, k = i + 1 := ⟨k - 1, by omega⟩
    rw [runFrom] at ran ⊢
    split at ran
    · exact ih (by omega) ran
    · exact ⟨_, rfl, by cases ran; exact ⟨prefix_rfl, fun _ => rfl⟩⟩
    · cases ran

lemma runFrom_over {j k} (le : j ≤ k) {o} (over_ : o.ending ≠ none)
    (ran : code.runFrom w j pos st = .ok o) : code.runFrom w k pos st = .ok o := by
  induction j generalizing k pos st with
  | zero =>
    cases ran
    exact absurd rfl over_
  | succ j ih =>
    obtain ⟨k, rfl⟩ : ∃ i, k = i + 1 := ⟨k - 1, by omega⟩
    rw [runFrom] at ran ⊢
    split at ran
    · exact ih (by omega) ran
    · exact ran
    · cases ran

/-- No half of a wide value is ever read. -/
def Whole (code : Code) (w : World V) (pos : Nat) (st : State V) : Prop :=
  ∀ n, code.runFrom w n pos st ≠ .error .half

lemma Whole.step (whole : code.Whole w pos st) : code.step w pos st ≠ .error .half := by
  intro fault
  refine whole 1 ?_
  rw [runFrom, fault]

lemma whole_of_over {n o} (over_ : o.ending ≠ none)
    (ran : code.runFrom w n pos st = .ok o) : code.Whole w pos st := by
  intro k fault
  rcases Nat.le_total k n with le | le
  · obtain ⟨o', ran', -⟩ := runFrom_upto le ran
    rw [ran'] at fault
    cases fault
  · rw [runFrom_over le over_ ran] at fault
    cases fault

/-! ## Some instructions in a row -/

/-- A number of instructions leads from one place to another. -/
inductive Reaches (code : Code) (w : World V) : Nat → Nat → State V → Nat → State V → Prop
  | here {pos : Nat} {st} : Reaches code w 0 pos st pos st
  | step {n pos pos' pos'' st st' st''} (moves : code.step w pos st = .ok (.moves pos' st'))
      (later : Reaches code w n pos' st' pos'' st'') : Reaches code w (n + 1) pos st pos'' st''

variable {n k pos' pos'' : Nat} {st' st'' : State V}

lemma Reaches.run (reaches : code.Reaches w n pos st pos' st') (k : Nat) :
    code.runFrom w (n + k) pos st = code.runFrom w k pos' st' := by
  induction reaches with
  | here => rw [Nat.zero_add]
  | step moves _ ih =>
    rw [Nat.add_right_comm, runFrom, moves]
    exact ih

lemma Reaches.snoc (reaches : code.Reaches w n pos st pos' st')
    (moves : code.step w pos' st' = .ok (.moves pos'' st'')) : code.Reaches w (n + 1) pos st pos'' st'' := by
  induction reaches with
  | here => exact .step moves .here
  | step first _ ih => exact .step first (ih moves)

lemma Whole.reaches (whole : code.Whole w pos st) (reaches : code.Reaches w n pos st pos' st') :
    code.Whole w pos' st' :=
  fun k => reaches.run k ▸ whole (n + k)

end Code

end Restack.Register
