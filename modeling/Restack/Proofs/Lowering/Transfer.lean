/-
# Where the code of a terminator takes control

`leads?` says to which block a terminator goes, and whether by its last arm, the one whose
jump is left out when the target comes next in the layout. The code of a terminator either
jumps to the start label of that target or falls off its own end (`terminatorCode_run`).

In front of the start label of a handler stands the code that takes the exception off the
stack, so a fall into a handler runs into it with an empty stack and has no further step
(`terminator_arrives_iff`).
-/
import Restack.Proofs.Lowering.Segments

namespace Restack.Lowering

open List Outcome Ir
open Stack (Instruction Opcode Body Sense Steps Stands)

variable {V : Type}

variable {b : BlockId} {code ending : List Instruction} {m : Method} {n pc : Nat} {S : Sense V}

/-! ## The target of a terminator -/

/-- The value that pushing an operand leaves on the stack. -/
def operand? (S : Sense V) (f : Frame) (cells : Nat → V) (v : Value) : Option V :=
  match load f v with
  | .ok i => S.read cells i
  | .error _ => none

/-- Where a terminator goes, and whether by its last arm. -/
def leads? (S : Sense V) (f : Frame) (cells : Nat → V) : Terminator → Option (BlockId × Bool)
  | .goto b => some (b, true)
  | .branch test first second yes no =>
    ((first :: second.toList).mapM (operand? S f cells)).map fun vs =>
      if S.holds test vs then (yes, false) else (no, true)
  | .switch v cases default =>
    (operand? S f cells v).map fun k => (caseFor cases default (S.key k), false)
  | .ret _ | .throw _ => none

variable {f : Frame} {t : Terminator} {next : Option BlockId} {l : Stack.Label}

lemma leads?_successor {cells last} (leads : leads? S f cells t = some (b, last)) : b ∈ t.successors := by
  cases t with
  | goto target => cases leads; simp [Terminator.successors]
  | branch test first second yes no =>
    simp only [leads?, Option.map_eq_some_iff] at leads
    obtain ⟨vs, -, chosen⟩ := leads
    simp only [Terminator.successors]
    split at chosen <;> cases chosen <;> simp
  | switch v cases default =>
    simp only [leads?, Option.map_eq_some_iff] at leads
    obtain ⟨k, -, rfl, -⟩ := leads
    simp only [Terminator.successors, mem_eraseDups, mem_append, mem_singleton, caseFor]
    cases found : cases.lookup (S.key k) with
    | none => simp
    | some b => exact .inl (mem_map.2 ⟨_, Lookup.mem_of_lookup found, rfl⟩)
  | ret | throw => cases leads

lemma operand?_of_load (S : Sense V) (cells : Nat → V) {v i}
    (loaded : load f v = .ok i) : ∃ a, operand? S f cells v = some a ∧ S.read cells i = some a := by
  obtain ⟨a, read⟩ := read_of_isPush S cells (load_pushes loaded)
  exact ⟨a, by simp [operand?, loaded, read], read⟩

lemma operands_of_loads (S : Sense V) (cells : Nat → V) {vs : List Value}
    {pushes} (loaded : vs.mapM (load f) = .ok pushes) :
    ∃ as, vs.mapM (operand? S f cells) = some as ∧ as.length = vs.length ∧
      pushes.map (S.read cells) = as.map some := by
  have related := mapM_ok.1 loaded
  clear loaded
  induction related with
  | nil => exact ⟨[], rfl, rfl, rfl⟩
  | @cons v i vs pushes here _ ih =>
    obtain ⟨a, value, read⟩ := operand?_of_load S cells here
    obtain ⟨as, values, length, reads⟩ := ih
    exact ⟨a :: as, by simp [mapM_cons, value, values], by simp [length], by simp [read, reads]⟩

lemma leads?_isSome {cells} (made : terminatorCode f next t = .ok ending) (normal : t.successors ≠ []) :
    (leads? S f cells t).isSome := by
  cases t with
  | goto => rfl
  | branch test first second yes no =>
    obtain ⟨pushes, loads, -⟩ := bind_ok.1 made
    obtain ⟨as, values, -⟩ := operands_of_loads S cells loads
    simp [leads?, values]
  | switch v cases default =>
    obtain ⟨i, loaded, -⟩ := bind_ok.1 made
    obtain ⟨a, value, -⟩ := operand?_of_load S cells loaded
    simp [leads?, value]
  | ret | throw => exact absurd rfl normal

/-! ## Running the code of a terminator -/

lemma branchOpcode_test {test zero reference op} (made : branchOpcode test zero reference = .ok op) :
    op.test? = some (test, if zero then 1 else 2) ∧ op ≠ Opcode.goto := by
  cases reference <;> cases zero <;> cases test <;> simp [branchOpcode] at made <;>
    subst made <;> decide

lemma Steps.widen {length pc' length' s t} (run : Steps S code (Within pc length) s t) (lower : pc' ≤ pc)
    (upper : pc + length ≤ pc' + length') : Steps S code (Within pc' length') s t :=
  run.mono fun p inside => ⟨by have := inside.1; omega, by have := inside.2; omega⟩

lemma jumpCode_run {part} (S : Sense V)
    (cells : Nat → V) (made : jumpCode f next b = .ok part) (stands : Stands code pc part) :
    (next = some b ∧ part = []) ∨ (next ≠ some b ∧ ∃ l, f.target b = .ok l ∧
        Steps S code (Within pc part.length) ⟨pc, [], cells⟩ (Sense.jump code l [] cells)) := by
  unfold jumpCode at made
  split at made
  · rename_i elided
    cases made
    exact .inl ⟨elided.symm, rfl⟩
  · rename_i kept
    obtain ⟨l, known, made⟩ := bind_ok.1 made
    cases made
    exact .inr ⟨fun same => kept same.symm, l, known,
      .single ⟨Nat.le_refl _, by simp⟩ (S.step_goto stands.head)⟩

lemma terminatorCode_run {cells last} (made : terminatorCode f next t = .ok ending)
    (stands : Stands code pc ending) (leads : leads? S f cells t = some (b, last)) :
    (last ∧ next = some b ∧ Steps S code (Within pc ending.length) ⟨pc, [], cells⟩
        ⟨pc + ending.length, [], cells⟩) ∨ (¬ (last ∧ next = some b) ∧ ∃ l, f.target b = .ok l ∧
        Steps S code (Within pc ending.length) ⟨pc, [], cells⟩ (Sense.jump code l [] cells)) := by
  cases t with
  | goto target =>
    cases leads
    rcases jumpCode_run S cells made stands with ⟨falls, rfl⟩ | ⟨jumps, run⟩
    · exact .inl ⟨rfl, falls, .refl _⟩
    · exact .inr ⟨fun both => jumps both.2, run⟩
  | branch test first second yes no =>
    obtain ⟨pushes, loads, made⟩ := bind_ok.1 made
    obtain ⟨op, tested, made⟩ := bind_ok.1 made
    obtain ⟨taken, known, made⟩ := bind_ok.1 made
    obtain ⟨rest, jumps, made⟩ := bind_ok.1 made
    cases made
    obtain ⟨as, values, length, reads⟩ := operands_of_loads S cells loads
    obtain ⟨answers, conditional⟩ := branchOpcode_test tested
    have count : op.test? = some (test, as.length) := by
      rw [answers, length]
      cases second <;> rfl
    have pushed : Steps S code (Within pc (pushes ++ .jump op taken :: rest).length)
        ⟨pc, [], cells⟩ ⟨pc + pushes.length, as.reverse, cells⟩ := by
      have run := Steps.push_all (Within pc pushes.length) [] stands.left reads
        fun k bound => ⟨by omega, by omega⟩
      rw [append_nil] at run
      exact Steps.widen run (Nat.le_refl _) (by simp)
    have tests := S.step_test cells stands.right.head count conditional
    have here : Within pc (pushes ++ .jump op taken :: rest).length (pc + pushes.length) :=
      ⟨by omega, by simp only [length_append, length_cons]; omega⟩
    simp only [leads?, values, Option.map_some] at leads
    split at leads
    · rename_i yes_
      cases leads
      rw [if_pos yes_] at tests
      exact .inr ⟨by simp, taken, known, pushed.trans (.single here tests)⟩
    · rename_i no_
      cases leads
      rw [if_neg no_] at tests
      have passed := pushed.trans (.single here tests)
      rcases jumpCode_run S cells jumps stands.right.tail with
        ⟨falls, rfl⟩ | ⟨jumps, l, target, run⟩
      · exact .inl ⟨rfl, falls, by simpa [Nat.add_assoc] using passed⟩
      · refine .inr ⟨fun both => jumps both.2, l, target, passed.trans (Steps.widen run ?_ ?_)⟩
        · omega
        · simp only [length_append, length_cons]; omega
  | switch v cases default =>
    obtain ⟨i, loaded, made⟩ := bind_ok.1 made
    obtain ⟨rest, switched, made⟩ := bind_ok.1 made
    cases made
    obtain ⟨a, value, read⟩ := operand?_of_load S cells loaded
    simp only [leads?, value] at leads
    obtain ⟨rfl, rfl⟩ := leads
    refine .inr ⟨by simp, ?_⟩
    have pushed : Steps S code (Within pc (i :: rest).length) ⟨pc, [], cells⟩
        ⟨pc + 1, [a], cells⟩ :=
      .single ⟨Nat.le_refl _, by simp⟩ (S.step_read stands.head read)
    obtain ⟨l, target, run⟩ := switchCode_run S switched stands.tail a [] cells
    exact ⟨l, target, pushed.trans (Steps.widen run (Nat.le_succ pc) (by simp; omega))⟩
  | ret | throw => cases leads

/-! ## Labels and entries in a body -/

private lemma positions_from {table : Array (Option Nat)} {layout : List BlockId} {k}
    (found : ((layout.zipIdx k).foldl (fun table (b, i) => table.setIfInBounds b.index (some i))
      table).getD b.index none = some n) :
    table.getD b.index none = some n ∨ k ≤ n ∧ layout[n - k]? = some b := by
  induction layout generalizing table k with
  | nil => exact .inl found
  | cons c layout ih =>
    rcases ih found with earlier | ⟨above, there⟩
    · simp only [Array.getD_eq_getD_getElem?, Array.getElem?_setIfInBounds] at earlier
      split at earlier
      · rename_i same
        split at earlier
        · cases earlier
          obtain ⟨index'⟩ := c
          cases same
          exact .inr ⟨Nat.le_refl _, by simp⟩
        · cases earlier
      · exact .inl (by simpa [Array.getD_eq_getD_getElem?] using earlier)
    · refine .inr ⟨by omega, ?_⟩
      rw [show n - k = n - (k + 1) + 1 by omega]
      simpa using there

lemma position?_spec {slots}
    (found : Frame.position? (frameOf m slots) b = some n) : m.layout[n]? = some b := by
  rcases positions_from (k := 0) found with impossible | ⟨-, there⟩
  · simp [Array.getD_eq_getD_getElem?, Array.getElem?_replicate] at impossible
    split at impossible <;> simp at impossible
  · simpa using there

lemma target_spec {slots} (known : Frame.target (frameOf m slots) b = .ok l) :
    ∃ n, l = startLabel n ∧ m.layout[n]? = some b := by
  unfold Frame.target at known
  split at known
  · rename_i n found
    cases known
    exact ⟨n, rfl, position?_spec found⟩
  · simp at known

lemma jump_at (mem : Instruction.label l ∈ code) (stack : List V)
    (cells : Nat → V) : code[(Sense.jump code l stack cells).pc]? = some (.label l) := by
  have exist : ∃ i ∈ code, i.isLabel l := ⟨_, mem, by simp [Instruction.isLabel]⟩
  have bound := findIdx_lt_length_of_exists exist
  have hit := findIdx_getElem (w := bound)
  show code[code.findIdx (Instruction.isLabel l)]? = _
  cases here : code[code.findIdx (Instruction.isLabel l)] <;>
    simp_all [Instruction.isLabel]

/-- The positions between the exception label and the start label of a block,
the first included: there the exception is taken off the stack. -/
def InEntry (code : List Instruction) (pc : Nat) : Prop :=
  ∃ n p q, code[p]? = some (.label (exceptionLabel n)) ∧
    code[q]? = some (.label (startLabel n)) ∧ p ≤ pc ∧ pc < q

/-- Control gets from a state to the start label of a block with an empty stack
and no entry executed on the way. -/
def Arrives (S : Sense V) (m : Method) (code : List Instruction) (s : Stack.State V) (b : BlockId) : Prop :=
  ∃ n pc, m.layout[n]? = some b ∧ code[pc]? = some (.label (startLabel n)) ∧
    Steps S code (fun pc => ¬ InEntry code pc) s ⟨pc, [], s.slots⟩

/-- Whether control leaves the block at place `n` by the last arm of its
terminator and the target is a handler that comes next. -/
def FallsIntoHandler (m : Method) (n : Nat) (b : BlockId) (last : Bool) : Prop :=
  last ∧ m.layout[n + 1]? = some b ∧ m.isHandler b

instance (m : Method) (n : Nat) (b : BlockId) (last : Bool) :
    Decidable (FallsIntoHandler m n b last) :=
  inferInstanceAs (Decidable (_ ∧ _ ∧ _))

/-- The code of a terminator and the label behind it, where everything in front
has the labels of earlier positions or of this one, and everything behind has
those of later ones. -/
structure Ending (code : List Instruction) (n pc : Nat) (ending : List Instruction) : Prop where
  stands : Stands code pc (ending ++ [.label (endLabel n)])
  unlabelled : Unlabelled ending
  before : ∀ p l, p < pc → code[p]? = some (.label l) → l.number / 4 ≤ n
  after : ∀ p l, pc + ending.length < p → code[p]? = some (.label l) → n < l.number / 4

namespace Ending

lemma label_within (here : Ending code n pc ending) {p} (lower : pc ≤ p)
    (upper : p ≤ pc + ending.length) (found : code[p]? = some (.label l)) :
    p = pc + ending.length ∧ l = endLabel n := by
  obtain ⟨rest, whole⟩ := here.stands
  have place : (ending ++ [Instruction.label (endLabel n)] ++ rest)[p - pc]? = some (.label l) := by
    rw [whole, getElem?_drop, show pc + (p - pc) = p by omega, found]
  rcases Nat.lt_or_ge (p - pc) ending.length with inside | outside
  · rw [append_assoc, getElem?_append_left inside] at place
    exact absurd (mem_of_getElem? place) (here.unlabelled l)
  · have last : p - pc = ending.length := by omega
    rw [last] at place
    simp at place
    exact ⟨by omega, place.symm⟩

lemma not_inEntry (here : Ending code n pc ending) {p} (lower : pc ≤ p)
    (upper : p ≤ pc + ending.length) : ¬ InEntry code p := by
  rintro ⟨k, first, second, exception, start, below, above⟩
  have opened : k ≤ n := by
    rcases Nat.lt_or_ge first pc with earlier | inside
    · have := here.before first _ earlier exception
      simp only [exceptionLabel] at this
      omega
    · have := (here.label_within inside (by omega) exception).2
      simp only [exceptionLabel, endLabel, Stack.Label.mk.injEq] at this
      omega
  rcases Nat.lt_or_ge (pc + ending.length) second with later | inside
  · have := here.after second _ later start
    simp only [startLabel] at this
    omega
  · have := (here.label_within (by omega) inside start).2
    simp only [startLabel, endLabel, Stack.Label.mk.injEq] at this
    omega

lemma step_end (here : Ending code n pc ending) (S : Sense V) (cells : Nat → V) :
    S.step code ⟨pc + ending.length, [], cells⟩ = some ⟨pc + ending.length + 1, [], cells⟩ :=
  S.step_label here.stands.right.head

end Ending

/-- The code of the terminator of the block at a place, and the segment behind it. -/
lemma lower_endings {body} (lowered : lower m = .ok body) :
    ∃ slots, assignSlots m = .ok slots ∧ ∀ n b block, m.layout[n]? = some b →
      m.block? b = some block → Instruction.label (startLabel n) ∈ body.instructions ∧
      ∃ ending pc, Ending body.instructions n pc ending ∧
        terminatorCode (frameOf m slots) m.layout[n + 1]? block.terminator = .ok ending ∧
        ∀ b', m.layout[n + 1]? = some b' → ∃ entry, EntryShape m b' (n + 1) entry ∧
          Stands body.instructions (pc + ending.length + 1) (entry ++ [.label (startLabel (n + 1))]) := by
  obtain ⟨slots, assigned, segments⟩ := lower_segments lowered
  refine ⟨slots, assigned, fun n b block at_n found => ?_⟩
  obtain ⟨c, before, after, made, whole, earlier, later, behind⟩ := segments n b at_n
  obtain ⟨block', middle, ending, found', ended, -, shape⟩ := blockCode_parts made
  obtain rfl : block = block' := by simpa [found] using found'
  have own := fun l => segment_labels (l := l) made
  rw [shape] at own
  let left := before ++ c.entry ++ .label (startLabel n) :: middle
  have split : body.instructions = left ++ (ending ++ [.label (endLabel n)]) ++ after := by
    simp [left, whole, shape]
  have opening : ∀ l, Instruction.label l ∈ left → l.number / 4 ≤ n := by
    intro l mem
    simp only [left, mem_append, mem_cons] at mem
    rcases mem with (inBefore | inEntry) | rest
    · exact Nat.le_of_lt (earlier l inBefore)
    · exact Nat.le_of_eq (own l (by simp [inEntry]))
    · exact Nat.le_of_eq (own l (by rcases rest with h | h <;> simp [h]))
  refine ⟨?_, ending, left.length, ⟨?_, terminatorCode_unlabelled ended, ?_, ?_⟩, ended, ?_⟩
  · simp [split, left]
  · rw [split]
    exact Stands.append _ _ _
  · intro p l bound here
    rw [split, append_assoc, getElem?_append_left bound] at here
    exact opening l (mem_of_getElem? here)
  · intro p l bound here
    rw [split, getElem?_append_right (by simp; omega)] at here
    exact later l (mem_of_getElem? here)
  · intro b' next
    obtain ⟨d, after', made', rfl⟩ := behind b' next
    obtain ⟨block', middle', ending', -, -, entry, shape'⟩ := blockCode_parts made'
    refine ⟨d.entry, entry, middle' ++ ending' ++ [.label (endLabel (n + 1))] ++ after', ?_⟩
    rw [split, shape', show left.length + ending.length + 1 =
      (left ++ (ending ++ [Instruction.label (endLabel n)])).length by simp; omega,
      drop_left]
    simp

lemma lower_block_exists {body} (lowered : lower m = .ok body) (placed : m.layout[n]? = some b) :
    ∃ block, m.block? b = some block := by
  obtain ⟨slots, -, segments⟩ := lower_segments lowered
  obtain ⟨c, -, -, made, -⟩ := segments n b placed
  obtain ⟨block, -, -, found, -⟩ := blockCode_parts made
  exact ⟨block, found⟩

/-! ## Arriving -/

section Falls

variable {cells : Nat → V} {entry : List Instruction}

lemma Ending.fall (here : Ending code n pc ending)
    (run : Steps S code (Within pc ending.length) ⟨pc, [], cells⟩ ⟨pc + ending.length, [], cells⟩) :
    Steps S code (Within pc (ending.length + 1)) ⟨pc, [], cells⟩ ⟨pc + ending.length + 1, [], cells⟩ :=
  (Steps.widen run (Nat.le_refl _) (by omega)).trans
    (.single ⟨Nat.le_add_right _ _, Nat.lt_succ_self _⟩ (here.step_end S cells))

lemma Ending.outside (here : Ending code n pc ending) {s t}
    (run : Steps S code (Within pc (ending.length + 1)) s t) : Steps S code (fun p => ¬ InEntry code p) s t :=
  run.mono fun p inside => here.not_inEntry inside.1 (by have := inside.2; omega)

lemma start_of_fall (shape : EntryShape m b (n + 1) entry) (plain : ¬ m.isHandler b)
    (stands : Stands code pc (entry ++ [.label (startLabel (n + 1))])) :
    code[pc]? = some (.label (startLabel (n + 1))) := by
  rw [EntryShape, if_neg plain] at shape
  subst shape
  exact stands.head

lemma step_take_empty {i} (takes : isTake i) (here : code[pc]? = some i) :
    S.step code ⟨pc, [], cells⟩ = none := by
  cases i with
  | simple op =>
    have popped : op = Opcode.pop := by simpa [isTake] using takes
    subst popped
    exact S.step_pop_empty here
  | var op slot =>
    have stored : op.isStore = true ∧ op.isLoad = false := by simpa [isTake] using takes
    exact S.step_store_empty here stored.1 stored.2
  | _ => simp [isTake] at takes

lemma stuck_of_fall (shape : EntryShape m b (n + 1) entry) (handles : m.isHandler b)
    (stands : Stands code pc (entry ++ [.label (startLabel (n + 1))])) :
    code[pc]? = some (.label (exceptionLabel (n + 1))) ∧ InEntry code (pc + 1) ∧
      (∀ l, code[pc + 1]? ≠ some (.label l)) ∧ S.step code ⟨pc + 1, [], cells⟩ = none := by
  rw [EntryShape, if_pos handles] at shape
  obtain ⟨i, takes, rfl⟩ := shape
  have there : code[pc + 1]? = some i := stands.tail.head
  refine ⟨stands.head, ⟨n + 1, pc, pc + 2, stands.head, stands.tail.tail.head, by omega, by omega⟩, ?_,
    step_take_empty takes there⟩
  intro l same
  rw [there] at same
  cases same
  simp [isTake] at takes

lemma not_arrives_of_fall (here : Ending code n pc ending)
    (run : Steps S code (Within pc (ending.length + 1)) ⟨pc, [], cells⟩ ⟨pc + ending.length + 1, [], cells⟩)
    (shape : EntryShape m b (n + 1) entry) (handles : m.isHandler b)
    (stands : Stands code (pc + ending.length + 1) (entry ++ [.label (startLabel (n + 1))]))
    {c} : ¬ Arrives S m code ⟨pc, [], cells⟩ c := by
  obtain ⟨exception, -, plain, stuck⟩ := stuck_of_fall (S := S) shape handles stands
  rintro ⟨k, pc', -, start, arrived⟩
  have whole : Steps S code (Within pc (ending.length + 2)) ⟨pc, [], cells⟩
      ⟨pc + ending.length + 2, [], cells⟩ :=
    (Steps.widen run (Nat.le_refl _) (by omega)).trans
      (.single ⟨Nat.le_add_right pc (ending.length + 1), Nat.lt_succ_self _⟩ (S.step_label exception))
  let goal : Stack.State V → Prop := fun r => ∃ k, code[r.pc]? = some (.label (startLabel k))
  refine Steps.not_arrives goal whole stuck ?_ ?_ ⟨k, start⟩ arrived
  · rintro r ⟨lower, upper⟩ ⟨k, found⟩
    rcases Nat.lt_or_ge r.pc (pc + ending.length + 1) with inside | behind
    · have := (here.label_within lower (by omega) found).2
      simp only [startLabel, endLabel, Stack.Label.mk.injEq] at this
      omega
    · rw [show r.pc = pc + ending.length + 1 by omega, exception] at found
      simp only [startLabel, exceptionLabel, Option.some.injEq, Instruction.label.injEq,
        Stack.Label.mk.injEq] at found
      omega
  · rintro ⟨k, found⟩
    exact plain _ found

end Falls

/-- **Every normal transfer arrives at the start of its target, unless it falls
into a handler.** The code of a terminator stands in front of the end label of its
block. Run on an empty stack, it takes control to the start label of the block
the terminator goes to, with an empty stack and without executing the entry of a
handler, exactly when control does not leave by an arm whose jump was left out in
front of a handler; in that case it ends in the entry of the handler, at an
instruction that finds nothing on the stack. -/
theorem terminator_arrives_iff {m : Method} {body : Body} (lowered : lower m = .ok body) :
    ∃ slots, assignSlots m = .ok slots ∧ ∀ n b block, m.layout[n]? = some b →
      m.block? b = some block → ∃ ending pc,
        terminatorCode (frameOf m slots) m.layout[n + 1]? block.terminator = .ok ending ∧
        Stands body.instructions pc (ending ++ [.label (endLabel n)]) ∧
        ∀ (V : Type) (S : Sense V) (cells : Nat → V),
          (block.terminator.successors ≠ [] →
            (leads? S (frameOf m slots) cells block.terminator).isSome) ∧
          ∀ t last, leads? S (frameOf m slots) cells block.terminator = some (t, last) →
            t ∈ block.terminator.successors ∧
            (Arrives S m body.instructions ⟨pc, [], cells⟩ t ↔ ¬ FallsIntoHandler m n t last) ∧
            (FallsIntoHandler m n t last → ∃ pc', InEntry body.instructions pc' ∧
              Steps S body.instructions (fun _ => True) ⟨pc, [], cells⟩ ⟨pc', [], cells⟩ ∧
              S.step body.instructions ⟨pc', [], cells⟩ = none) := by
  obtain ⟨slots, assigned, endings⟩ := lower_endings lowered
  refine ⟨slots, assigned, fun n b block at_n found => ?_⟩
  obtain ⟨-, ending, pc, here, ended, behind⟩ := endings n b block at_n found
  refine ⟨ending, pc, ended, here.stands, fun V S cells => ⟨leads?_isSome ended, ?_⟩⟩
  intro t last leads
  refine ⟨leads?_successor leads, ?_⟩
  rcases terminatorCode_run ended here.stands.left leads with
    ⟨lastArm, next, run⟩ | ⟨notElided, l, known, run⟩
  · -- The jump was left out: what stands behind the end label decides.
    obtain ⟨entry, shape, stands⟩ := behind t next
    have fallen := here.fall run
    by_cases handles : m.isHandler t
    · have falls : FallsIntoHandler m n t last := ⟨lastArm, next, handles⟩
      obtain ⟨exception, inside, -, stuck⟩ := stuck_of_fall (S := S) shape handles stands
      refine ⟨iff_of_false (not_arrives_of_fall here fallen shape handles stands)
        (not_not_intro falls), fun _ => ⟨_, inside, ?_, stuck⟩⟩
      exact (fallen.mono fun _ _ => trivial).trans (.single trivial (S.step_label exception))
    · have stays : ¬ FallsIntoHandler m n t last := fun falls => handles falls.2.2
      exact ⟨iff_of_true ⟨n + 1, _, next, start_of_fall shape handles stands, here.outside fallen⟩
        stays, fun falls => absurd falls stays⟩
  · -- A jump goes to the label of a place of the target.
    have stays : ¬ FallsIntoHandler m n t last := fun falls => notElided ⟨falls.1, falls.2.1⟩
    obtain ⟨k, rfl, placed⟩ := target_spec known
    obtain ⟨target, exists_⟩ := lower_block_exists lowered placed
    have start := (endings k t target placed exists_).1
    refine ⟨iff_of_true ⟨k, _, placed, jump_at start [] cells, ?_⟩ stays, fun falls => absurd falls stays⟩
    exact here.outside (Steps.widen run (Nat.le_refl _) (by omega))

/-- A guarded statement in front of its own handler, to which control also goes on. -/
def guardedPair : Method where
  owner := ""
  name := ""
  descriptor := ""
  isStatic := true
  params := #[]
  returnType := "V"
  blocks := #[some ⟨[], [.monitorEnter (.const .null)], .goto ⟨1⟩⟩, some ⟨[], [], .ret none⟩]
  layout := [⟨0⟩, ⟨1⟩]
  entry := ⟨0⟩
  traps := [⟨[⟨0⟩], [⟨none, ⟨1⟩⟩]⟩]
  locals := #[]

/-- Control never gets from the guarded statement to the start of the handler. -/
theorem guardedPair_never_arrives : ∃ body pc, lower guardedPair = .ok body ∧
    Stands body.instructions pc [.label (endLabel 0)] ∧
    ∀ (V : Type) (S : Sense V) (cells : Nat → V),
      ¬ Arrives S guardedPair body.instructions ⟨pc, [], cells⟩ ⟨1⟩ := by
  obtain ⟨body, lowered⟩ : ∃ body, lower guardedPair = .ok body := ⟨_, rfl⟩
  obtain ⟨slots, -, each⟩ := terminator_arrives_iff lowered
  obtain ⟨ending, pc, made, stands, runs⟩ := each 0 ⟨0⟩ _ rfl rfl
  obtain rfl : [] = ending := by simpa [guardedPair, terminatorCode, jumpCode] using made
  refine ⟨body, pc, lowered, stands, fun V S cells arrived => ?_⟩
  exact (((runs V S cells).2 ⟨1⟩ true rfl).2.1.1 arrived) (by decide)

end Restack.Lowering
