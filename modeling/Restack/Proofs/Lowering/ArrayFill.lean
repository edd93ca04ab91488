/-
# Filling arrays from tables

The table of a filling statement becomes one store for each of its entries. A machine for
such code, with primitive arrays on a heap, tells what the stores come to
(`fillArrayData_overwrites`). Nothing compares lengths beforehand: a table that is too
long raises behind the last element that it could set.
-/
import Mathlib.Logic.Function.Basic
import Restack.Proofs.Lowering.Segments

namespace Restack.Lowering.ArrayFill

open List Outcome Ir
open Stack (Instruction Opcode)
open Register (ArrayData)

/-! ## Primitive arrays -/

inductive Primitive where
  | boolean | byte | char | short | int | long | float | double
deriving DecidableEq

/-- A number; a fraction is its bits. -/
inductive Scalar where
  | int (v : Int32)
  | long (v : Int64)
  | float (bits : UInt32)
  | double (bits : UInt64)
deriving DecidableEq

namespace Primitive

def descriptor : Primitive → String
  | boolean => "Z"
  | byte => "B"
  | char => "C"
  | short => "S"
  | int => "I"
  | long => "J"
  | float => "F"
  | double => "D"

def storeOpcode : Primitive → Opcode
  | boolean | byte => .bastore
  | char => .castore
  | short => .sastore
  | int => .iastore
  | long => .lastore
  | float => .fastore
  | double => .dastore

/-- What an element keeps of an integer. -/
def narrow (v : Int) : Primitive → Int
  | boolean => v % 2
  | byte => v.bmod 256
  | char => v % 65536
  | short => v.bmod 65536
  | _ => v

/-- The element that an entry of a table stands for. -/
def entry : Primitive → Int64 → Scalar
  | long, bits => .long bits
  | float, bits => .float bits.toUInt64.toUInt32
  | double, bits => .double bits.toUInt64
  | p, bits => .int (Int32.ofInt (p.narrow bits.toInt))

/-- The element that a stored value becomes, if it is of the right kind. -/
def stored? : Primitive → Scalar → Option Scalar
  | long, .long v => some (.long v)
  | float, .float bits => some (.float bits)
  | double, .double bits => some (.double bits)
  | long, _ | float, _ | double, _ => none
  | p, .int v => some (.int (Int32.ofInt (p.narrow v.toInt)))
  | _, _ => none

lemma narrow_toInt32 (p : Primitive) (bits : Int64) :
    Int32.ofInt (p.narrow bits.toInt32.toInt) = Int32.ofInt (p.narrow bits.toInt) := by
  rw [Int64.toInt_toInt32]
  cases p with
  | boolean | char => simp only [narrow, Int.bmod]; split <;> congr 1 <;> omega
  | byte | short => exact congrArg Int32.ofInt (Int.bmod_bmod_of_dvd (by decide))
  | _ =>
    rw [← Int64.toInt_toInt32]
    exact (Int32.ofInt_toInt _).trans (Int32.ofInt_int64ToInt bits).symm

end Primitive

@[ext] structure PrimitiveArray where
  kind : Primitive
  elements : List Scalar
  bounded : elements.length < 2 ^ 31
deriving DecidableEq

namespace PrimitiveArray

def set (array : PrimitiveArray) (n : Nat) (v : Scalar) : PrimitiveArray :=
  ⟨array.kind, array.elements.set n v, by simpa using array.bounded⟩

/-- The array with its first elements replaced, as far as it has them. -/
def filled (array : PrimitiveArray) (values : List Scalar) : PrimitiveArray :=
  ⟨array.kind, values.take array.elements.length ++ array.elements.drop values.length, by
    have := array.bounded
    simp only [length_append, length_take, length_drop]
    omega⟩

variable (array : PrimitiveArray) {done : List Scalar}

@[simp] lemma filled_nil : array.filled [] = array := by simp [filled]

@[simp] lemma length_filled : (array.filled done).elements.length = array.elements.length := by
  simp only [filled, length_append, length_take, length_drop]
  omega

lemma filled_set (room : done.length < array.elements.length) (v : Scalar) :
    (array.filled done).set done.length v = array.filled (done ++ [v]) := by
  ext1
  · rfl
  · simp only [filled, set, length_append, length_singleton]
    rw [take_of_length_le (Nat.le_of_lt room), take_of_length_le (by simpa using Nat.succ_le_of_lt room),
      set_append_right _ _ (Nat.le_refl _), Nat.sub_self, drop_eq_getElem_cons room, set_cons_zero]
    simp

lemma filled_full (full : array.elements.length ≤ done.length) (todo : List Scalar) :
    array.filled (done ++ todo) = array.filled done := by
  ext1
  · rfl
  · simp only [filled, take_append_of_le_length full, length_append]
    rw [drop_eq_nil_of_le full, drop_eq_nil_of_le (Nat.le_add_right_of_le full)]

end PrimitiveArray

/-! ## The machine -/

inductive Word where
  | scalar (s : Scalar)
  /-- The address of an array, absent for null. -/
  | ref (address : Option Nat)

abbrev Heap := Nat → Option PrimitiveArray

inductive Exception where
  | nullPointer
  | index

/-- How straight code ends. -/
inductive Ending where
  | done (stack : List Word) (heap : Heap)
  | raised (e : Exception) (heap : Heap)
  | stuck

def Ending.andThen (next : List Word → Heap → Ending) : Ending → Ending
  | done stack heap => next stack heap
  | ending => ending

def pushed? : Instruction → Option Scalar
  | .simple op =>
    [(Opcode.iconstM1, Scalar.int (-1)), (.iconst0, .int 0), (.iconst1, .int 1), (.iconst2, .int 2),
      (.iconst3, .int 3), (.iconst4, .int 4), (.iconst5, .int 5), (.lconst0, .long 0), (.lconst1, .long 1),
      (.fconst0, .float 0), (.fconst1, .float 0x3f800000), (.fconst2, .float 0x40000000),
      (.dconst0, .double 0), (.dconst1, .double 0x3ff0000000000000)].lookup op
  | .int op v => if op = .bipush ∨ op = .sipush then some (.int v) else none
  | .ldc (.int v) => some (.int v)
  | .ldc (.long v) => some (.long v)
  | .ldc (.float bits) => some (.float bits)
  | .ldc (.double bits) => some (.double bits)
  | _ => none

/-- An array store, its operands taken off the stack. -/
def storeElement (op : Opcode) (v : Scalar) (i : Int32) (stack : List Word) (heap : Heap) :
    Option Nat → Ending
  | none => if 79 ≤ op ∧ op ≤ 86 then .raised .nullPointer heap else .stuck
  | some a => match heap a with
    | none => .stuck
    | some array => match array.kind.stored? v with
      | none => .stuck
      | some v =>
        if array.kind.storeOpcode ≠ op then .stuck
        else if i.toInt < 0 ∨ array.elements.length ≤ i.toInt then .raised .index heap
        else .done stack (Function.update heap a (some (array.set i.toInt.toNat v)))

def step (slots : Nat → Word) (i : Instruction) (stack : List Word) (heap : Heap) : Ending :=
  match pushed? i, i, stack with
  | some s, _, _ => .done (.scalar s :: stack) heap
  | none, .var .aload slot, _ => match slots slot with
    | .ref r => .done (.ref r :: stack) heap
    | .scalar _ => .stuck
  | none, .simple op, .scalar v :: .scalar (.int i) :: .ref r :: stack => storeElement op v i stack heap r
  | _, _, _ => .stuck

def run (slots : Nat → Word) : List Instruction → List Word → Heap → Ending
  | [], stack, heap => .done stack heap
  | i :: rest, stack, heap => (step slots i stack heap).andThen (run slots rest)

/-! ## One entry -/

variable {f : Frame} {array : Value} {target value : Instruction} {p : Primitive} {slots : Nat → Word}
  {slot n a : Nat} {v : Scalar} {rest : List Instruction} (stack : List Word) (heap : Heap)

lemma pushed?_pushInt (v : Int32) : pushed? (Stack.pushInt v) = some (.int v) := by
  unfold Stack.pushInt
  split
  · rename_i short
    obtain rfl | rfl | rfl | rfl | rfl | rfl | rfl := short_cases short <;> rfl
  · repeat' split
    all_goals rfl

lemma pushed?_pushLong (v : Int64) : pushed? (Stack.pushLong v) = some (.long v) := by
  unfold Stack.pushLong
  repeat' split
  all_goals subst_vars; rfl

lemma pushed?_pushFloat (bits : UInt32) : pushed? (Stack.pushFloat bits) = some (.float bits) := by
  unfold Stack.pushFloat
  repeat' split
  all_goals subst_vars; rfl

lemma pushed?_pushDouble (bits : UInt64) : pushed? (Stack.pushDouble bits) = some (.double bits) := by
  unfold Stack.pushDouble
  repeat' split
  all_goals subst_vars; rfl

lemma dataElement?_pushed (p : Primitive) (bits : Int64) :
    ∃ c i v, dataElement? p.descriptor bits = some c ∧ pushConstant c = .ok i ∧
      pushed? i = some v ∧ p.stored? v = some (p.entry bits) := by
  cases p with
  | long => exact ⟨_, _, _, rfl, rfl, pushed?_pushLong _, rfl⟩
  | float => exact ⟨_, _, _, rfl, rfl, pushed?_pushFloat _, rfl⟩
  | double => exact ⟨_, _, _, rfl, rfl, pushed?_pushDouble _, rfl⟩
  | _ =>
    refine ⟨_, _, _, rfl, rfl, pushed?_pushInt _, ?_⟩
    exact congrArg (fun v => some (Scalar.int v)) (Primitive.narrow_toInt32 _ bits)

lemma fillCode_stores (loads : load f array = .ok target) (p : Primitive) (bits : Int64) (n : Nat) :
    ∃ value v, fillCode f array p.descriptor bits n =
        .ok [target, Stack.pushInt (Int32.ofNat n), value, .simple p.storeOpcode] ∧
      pushed? value = some v ∧ p.stored? v = some (p.entry bits) := by
  obtain ⟨c, value, v, found, made, pushes, keeps⟩ := dataElement?_pushed p bits
  have opcode : elementStore p.descriptor = p.storeOpcode := by cases p <;> rfl
  refine ⟨value, v, ?_, pushes, keeps⟩
  rw [fillCode, found, opcode]
  exact bind_ok.2 ⟨_, loads, bind_ok.2 ⟨_, made, rfl⟩⟩

lemma step_push (pushes : pushed? value = some v) :
    step slots value stack heap = .done (.scalar v :: stack) heap := by
  simp only [step, pushes]

/-- The code of one entry makes one store. -/
lemma run_entry {r} (holds : slots slot = .ref r) (pushes : pushed? value = some v)
    (p : Primitive) : run slots (.var .aload slot :: Stack.pushInt (Int32.ofNat n) :: value ::
        .simple p.storeOpcode :: rest) stack heap =
      (storeElement p.storeOpcode v (Int32.ofNat n) stack heap r).andThen (run slots rest) := by
  have loads : step slots (.var .aload slot) stack heap = .done (.ref r :: stack) heap := by
    change (match slots slot with | .ref r => _ | .scalar _ => _) = _
    rw [holds]
  rw [run, loads]
  dsimp only [Ending.andThen]
  rw [run, step_push _ _ (pushed?_pushInt _)]
  dsimp only [Ending.andThen]
  rw [run, step_push _ _ pushes]
  cases p <;> rfl

lemma storeElement_null (p : Primitive) (i : Int32) :
    storeElement p.storeOpcode v i stack heap none = .raised .nullPointer heap := by
  cases p <;> rfl

lemma storeElement_some (into : PrimitiveArray) {w} (keeps : into.kind.stored? v = some w)
    (small : n < 2 ^ 31) :
    storeElement into.kind.storeOpcode v (Int32.ofNat n) stack (Function.update heap a (some into)) (some a) =
      if n < into.elements.length then .done stack (Function.update heap a (some (into.set n w)))
      else .raised .index (Function.update heap a (some into)) := by
  simp only [storeElement, Function.update_self, keeps, Int32.toInt_ofNat_of_lt small]
  by_cases room : n < into.elements.length
  · rw [if_neg (by simp), if_neg (by omega), if_pos room, Int.toNat_natCast, Function.update_idem]
  · rw [if_neg (by simp), if_pos (by omega), if_neg room]

/-! ## Tables -/

/-- Stores in order, when those of `done` have been made. -/
lemma run_stores (loads : load f array = .ok (.var .aload slot)) (points : slots slot = .ref (some a))
    (into : PrimitiveArray) {table : List Int64} {parts} (done : List Scalar)
    (each : Forall₂ (fun x code => fillCode f array into.kind.descriptor x.1 x.2 = .ok code)
      (table.zipIdx done.length) parts) (fits : done.length ≤ into.elements.length) :
    run slots parts.flatten stack (Function.update heap a (some (into.filled done))) =
      let heap' := Function.update heap a (some (into.filled (done ++ table.map into.kind.entry)))
      if done.length + table.length ≤ into.elements.length then .done stack heap'
      else .raised .index heap' := by
  induction table generalizing parts done with
  | nil =>
    cases each
    simp [run, fits]
  | cons bits table ih =>
    obtain _ | ⟨first, later⟩ := each
    obtain ⟨value, v, made, pushes, keeps⟩ := fillCode_stores loads into.kind bits done.length
    cases first.symm.trans made
    refine (run_entry _ _ points pushes (into.filled done).kind).trans ?_
    rw [storeElement_some stack heap (into.filled done) keeps (Nat.lt_of_le_of_lt fits into.bounded),
      into.length_filled]
    by_cases room : done.length < into.elements.length
    · rw [if_pos room, into.filled_set room]
      have rest := ih (done ++ [into.kind.entry bits]) (by simpa using later)
        (by simpa using Nat.succ_le_of_lt room)
      simpa [Ending.andThen, Nat.add_assoc, Nat.add_comm 1] using rest
    · rw [if_neg room, if_neg (by simp; omega), into.filled_full (by omega)]
      rfl

lemma valueType_array {d} (typed : f.method.valueType array = .ref d)
    (bracket : d.toList.head? = some '[') (loads : load f array = .ok target) :
    ∃ slot, target = .var .aload slot := by
  cases array with
  | var l =>
    obtain ⟨slot, -, made⟩ := bind_ok.1 loads
    cases made
    exact ⟨slot, by rw [show f.method.localType l = .ref d from typed]; rfl⟩
  | const c =>
    cases c <;> cases typed <;> cases bracket

/-- A table replaces the first elements of an array, one by one: with null in its place the first
store raises, and a table with more entries than there are elements sets them all and
raises then. -/
theorem fillArrayData_overwrites {data p target}
    (typed : f.method.valueType array = .ref ("[" ++ p.descriptor)) (loads : load f array = .ok target) :
    ∃ slot code, target = .var .aload slot ∧ stmtCode f (.fillArrayData array data) = .ok code ∧
      (data.elements ≠ [] → ∀ slots stack heap, slots slot = .ref none →
        run slots code stack heap = .raised .nullPointer heap) ∧
      ∀ slots stack heap a into, slots slot = .ref (some a) → heap a = some into → into.kind = p →
        let heap' := Function.update heap a (some (into.filled (data.elements.map p.entry)))
        run slots code stack heap =
          if data.elements.length ≤ into.elements.length then .done stack heap'
          else .raised .index heap' := by
  obtain ⟨slot, rfl⟩ := valueType_array typed (by cases p <;> rfl) loads
  have element : fillElement (f.method.valueType array) data = p.descriptor := by
    rw [typed]
    cases p <;> rfl
  have each : ∀ x ∈ data.elements.zipIdx, ∃ code, fillCode f array p.descriptor x.1 x.2 = .ok code := by
    rintro x -
    obtain ⟨_, _, made, -⟩ := fillCode_stores loads p x.1 x.2
    exact ⟨_, made⟩
  obtain ⟨parts, made⟩ := mapM_isOk.2 each
  refine ⟨slot, parts.flatten, rfl, ?_, fun some_ slots stack heap null => ?_, ?_⟩
  · rw [stmtCode, element]
    exact bind_ok.2 ⟨_, made, rfl⟩
  · cases entries : data.elements with
    | nil => exact absurd entries some_
    | cons bits table =>
      rw [entries, zipIdx_cons] at made
      obtain _ | ⟨first, -⟩ := mapM_ok.1 made
      obtain ⟨value, v, made, pushes, -⟩ := fillCode_stores loads p bits 0
      cases first.symm.trans made
      refine (run_entry _ _ null pushes p).trans ?_
      rw [storeElement_null]
      rfl
  · rintro slots stack heap a into points here rfl
    have same : Function.update heap a (some (into.filled [])) = heap := by
      rw [into.filled_nil, ← here, Function.update_eq_self]
    have stores := run_stores stack heap loads points into [] (mapM_ok.1 made) (Nat.zero_le _)
    rw [same] at stores
    simpa using stores

/-- A method with an array of integers in slot 0. -/
def oneArray : Frame where
  method := ⟨"", "", "", true, #[], "V", #[], [], ⟨0⟩, [], #[.ref "[I"]⟩
  slots := #[some 0]
  positions := #[]

def single : PrimitiveArray := ⟨.int, [.int 7], by decide⟩

theorem oneArray_filled : oneArray.method.valueType (.var ⟨0⟩) = .ref ("[" ++ Primitive.int.descriptor) ∧
    load oneArray (.var ⟨0⟩) = .ok (.var .aload 0) ∧ ∃ code,
      stmtCode oneArray (.fillArrayData (.var ⟨0⟩) ⟨4, [-1]⟩) = .ok code ∧
      ∀ heap, heap 0 = some single → run (fun _ => .ref (some 0)) code [] heap =
        .done [] (Function.update heap 0 (some (single.filled [.int (-1)]))) := by
  obtain ⟨slot, code, at_, made, -, fills⟩ := @fillArrayData_overwrites oneArray (.var ⟨0⟩) ⟨4, [-1]⟩ .int _ rfl rfl
  cases at_
  exact ⟨rfl, rfl, code, made, fun heap here => fills _ _ heap 0 single rfl here rfl⟩

theorem longTable_overwrites : ∃ code heap,
    stmtCode oneArray (.fillArrayData (.var ⟨0⟩) ⟨4, [1, 2]⟩) = .ok code ∧
      run (fun _ => .ref (some 0)) code [] (fun _ => some single) = .raised .index heap ∧
      heap 0 ≠ some single := by
  refine ⟨_, _, rfl, rfl, ?_⟩
  decide

end Restack.Lowering.ArrayFill
