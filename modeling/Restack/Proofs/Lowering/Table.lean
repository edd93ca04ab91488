/-
# The exception table

`listing` is the code of a method with what each instruction was emitted for. The table is
exact (`table_exact`): the entries over an instruction of something that throws are the
handlers of its block in order of priority, and no entry of a trap is over code of a block
that the trap does not cover. An entry reaches over a range of guarded positions; a guarded
position is in one such range of its trap (`count_rangesOf`).
-/
import Restack.Proofs.Ir.Paths
import Restack.Proofs.Lowering.Segments

namespace Restack.Lowering

open List Outcome Ir
open Stack (Instruction TryCatch Body)

variable {b : BlockId} {x : Emission} {f : Frame} {codes : List BlockCode} {i k n position : Nat}
  {slots : Slots} {t : Trap}

/-! ## Code with its origin -/

/-- What an instruction of a block is emitted for. -/
inductive Part where
  | label
  /-- The entry of a handler, where the exception is taken off the stack. -/
  | entry
  | stmt (s : Stmt)
  | terminator (t : Terminator)

def Part.throws : Part → Bool
  | .stmt s => s.canThrow
  | .terminator t => t.isThrow
  | .label | .entry => false

structure Emission where
  block : BlockId
  part : Part
  instruction : Instruction

/-- Code for a part of a block, none where it cannot be had. -/
def emissions (b : BlockId) (part : Part) (code : Except Failure (List Instruction)) : List Emission :=
  (code.toOption.getD []).map (⟨b, part, ·⟩)

def stmtsListing (f : Frame) (b : BlockId) (stmts : List Stmt) : List Emission :=
  stmts.flatMap fun s => emissions b (.stmt s) (stmtCode f s)

/-- The code of a block in front of the part where it may throw. -/
def calmListing (f : Frame) (b : BlockId) (position : Nat) (block : Block) : List Emission :=
  (enteredBy f b position block).1.map (⟨b, .entry, ·⟩) ++
    ⟨b, .label, .label (startLabel position)⟩ ::
      (stmtsListing f b ((enteredBy f b position block).2.takeWhile (!Stmt.canThrow ·)) ++
        if isGuarded f.method b block then [⟨b, .label, .label (throwsLabel position)⟩] else [])

def restListing (f : Frame) (b : BlockId) (position : Nat) (next : Option BlockId) (block : Block) :
    List Emission :=
  stmtsListing f b ((enteredBy f b position block).2.dropWhile (!Stmt.canThrow ·)) ++
    emissions b (.terminator block.terminator) (terminatorCode f next block.terminator)

def blockListing (f : Frame) (b : BlockId) (position : Nat) (next : Option BlockId) : List Emission :=
  match f.method.block? b with
  | none => []
  | some block => calmListing f b position block ++
      (restListing f b position next block ++ [⟨b, .label, .label (endLabel position)⟩])

def listingFrom (f : Frame) : Nat → List BlockId → List Emission
  | _, [] => []
  | position, b :: rest => blockListing f b position rest.head? ++ listingFrom f (position + 1) rest

/-- The code of a method, each instruction with what it is emitted for. -/
def listing (f : Frame) : List Emission := listingFrom f 0 f.method.layout

variable {code : List Instruction} {c : BlockCode} {layout : List BlockId} {e : TryCatch}
  {r : Nat × Nat}

section Listing

variable {next : Option BlockId} {block : Block}

@[simp] lemma emissions_instructions {part} : (emissions b part (.ok code)).map (·.instruction) = code := by
  simp [emissions, Except.toOption, Function.comp_def]

lemma stmtsListing_instructions {stmts : List Stmt} (made : stmtsCode f stmts = .ok code) :
    (stmtsListing f b stmts).map (·.instruction) = code := by
  obtain ⟨parts, each, done⟩ := bind_ok.1 made
  cases done
  have related := mapM_ok.1 each
  clear each made
  induction related with
  | nil => rfl
  | cons here _ ih => simpa [stmtsListing, here] using ih

lemma blockListing_instructions (made : blockCode f b position next = .ok c) :
    (blockListing f b position next).map (·.instruction) = c.instructions position := by
  obtain ⟨block, calm, rest, ending, found, -, calmed, rested, ended, rfl⟩ := blockCode_ok made
  have entry (code : List Instruction) :
      (code.map fun i => (⟨b, .entry, i⟩ : Emission)).map (·.instruction) = code := by
    simp [Function.comp_def]
  have mark : (if isGuarded f.method b block then
      [(⟨b, .label, .label (throwsLabel position)⟩ : Emission)] else []).map (·.instruction) =
      if isGuarded f.method b block then [.label (throwsLabel position)] else [] := by
    split <;> rfl
  simp only [blockListing, found, calmListing, restListing, map_append, map_cons, entry, mark,
    stmtsListing_instructions calmed, stmtsListing_instructions rested, ended, emissions_instructions,
    map_nil, BlockCode.instructions]
  simp

lemma listingFrom_instructions (made : blockCodes f position layout = .ok codes) :
    (listingFrom f position layout).map (·.instruction) = emitted position codes := by
  induction layout generalizing position codes with
  | nil =>
    cases made
    rfl
  | cons b layout ih =>
    obtain ⟨c, rest, first, others, rfl⟩ := blockCodes_cons made
    rw [listingFrom, map_append, blockListing_instructions first, ih others, emitted]

lemma mem_emissions {part code} (mem : x ∈ emissions b part code) : x.block = b ∧ x.part = part := by
  obtain ⟨i, -, rfl⟩ := mem_map.1 mem
  exact ⟨rfl, rfl⟩

lemma mem_stmtsListing {stmts} (mem : x ∈ stmtsListing f b stmts) :
    x.block = b ∧ ∃ s ∈ stmts, x.part = .stmt s := by
  obtain ⟨s, among, emitted⟩ := mem_flatMap.1 mem
  exact ⟨(mem_emissions emitted).1, s, among, (mem_emissions emitted).2⟩

lemma calmListing_calm (mem : x ∈ calmListing f b position block) : x.block = b ∧ x.part.throws = false := by
  simp only [calmListing, mem_append, mem_cons, mem_map] at mem
  rcases mem with ⟨i, -, rfl⟩ | rfl | calm | mark
  · exact ⟨rfl, rfl⟩
  · exact ⟨rfl, rfl⟩
  · obtain ⟨same, s, among, part⟩ := mem_stmtsListing calm
    refine ⟨same, ?_⟩
    have quiet := all_eq_true.1 all_takeWhile s among
    rw [part]
    simpa [Part.throws] using quiet
  · split at mark
    · obtain rfl := mem_singleton.1 mark
      exact ⟨rfl, rfl⟩
    · cases mark

lemma restListing_part (mem : x ∈ restListing f b position next block) :
    x.block = b ∧ ((∃ s ∈ block.stmts, x.part = .stmt s) ∨ x.part = .terminator block.terminator) := by
  rcases mem_append.1 mem with stmt | ending
  · obtain ⟨same, s, among, part⟩ := mem_stmtsListing stmt
    exact ⟨same, .inl ⟨s, enteredBy_stmts s ((dropWhile_sublist _).subset among), part⟩⟩
  · exact ⟨(mem_emissions ending).1, .inr (mem_emissions ending).2⟩

lemma blockListing_block (mem : x ∈ blockListing f b position next) : x.block = b := by
  rw [blockListing] at mem
  split at mem
  · cases mem
  · simp only [mem_append, mem_singleton] at mem
    rcases mem with calm | rest | rfl
    · exact (calmListing_calm calm).1
    · exact (restListing_part rest).1
    · rfl

/-- Where an instruction stands: in the code of its block, between the code of
the blocks in front of it and that of those behind. -/
lemma listingFrom_place (made : blockCodes f position layout = .ok codes) {front back : List Emission}
    (split : listingFrom f position layout = front ++ x :: back) :
    ∃ n before pre post after, layout[n]? = some x.block ∧ front = before ++ pre ∧ back = post ++ after ∧
      blockListing f x.block (position + n) layout[n + 1]? = pre ++ x :: post ∧
      (∀ l, .label l ∈ before.map (·.instruction) → l.number / 4 < position + n) ∧
      ∀ l, .label l ∈ after.map (·.instruction) → position + n < l.number / 4 := by
  induction layout generalizing position codes front with
  | nil => simp [listingFrom] at split
  | cons b layout ih =>
    obtain ⟨c, rest, first, others, rfl⟩ := blockCodes_cons made
    rcases Lists.append_split split with ⟨mid, here, rfl⟩ | ⟨mid, rfl, later⟩
    · obtain rfl := blockListing_block (here ▸ mem_append_right _ mem_cons_self)
      refine ⟨0, [], front, mid, _, rfl, rfl, rfl, ?_, by simp, fun l mem => ?_⟩
      · simpa [head?_eq_getElem?] using here
      · rw [listingFrom_instructions others] at mem
        exact emitted_labels others mem
    · obtain ⟨n, before, pre, post, after, listed, rfl, rfl, segment, low, high⟩ := ih others later
      rw [Nat.add_right_comm position 1 n] at segment low high
      refine ⟨n + 1, blockListing f b position layout.head? ++ before, pre, post, after, listed, by simp,
        rfl, segment, fun l mem => ?_, high⟩
      rw [map_append, mem_append, blockListing_instructions first] at mem
      rcases mem with mine | theirs
      · have := segment_labels first mine
        omega
      · exact low l theirs

lemma endLabel_last (made : blockCode f b position next = .ok c) :
    ∃ front, c.instructions position = front ++ [.label (endLabel position)] ∧
      .label (endLabel position) ∉ front := by
  refine ⟨_, rfl, fun mem => ?_⟩
  obtain ⟨block, -, labels⟩ := segment_labelsOf made
  rw [BlockCode.instructions, labelsOf_append, segmentLabels, ← cons_append, ← append_assoc] at labels
  rw [← mem_labelsOf, append_inj_left' labels rfl] at mem
  simp only [mem_append, mem_cons, mem_ite_nil_right, endLabel, exceptionLabel, startLabel, throwsLabel,
    Stack.Label.mk.injEq, not_mem_nil, or_false] at mem
  omega

/-- What throws stands behind the throws label and in front of the end label. -/
lemma blockListing_throwing (made : blockCode f b position next = .ok c) {pre post : List Emission}
    (segment : blockListing f b position next = pre ++ x :: post) (throws : x.part.throws = true) :
    ∃ block, f.method.block? b = some block ∧ block.canThrow = true ∧ (isGuarded f.method b block = true →
        .label (throwsLabel position) ∈ pre.map (·.instruction)) ∧
      .label (endLabel position) ∉ (pre ++ [x]).map (·.instruction) := by
  have code := blockListing_instructions made
  obtain ⟨front, ends, absent⟩ := endLabel_last made
  obtain ⟨block, calm, rest, ending, found, -, -, -, -, -⟩ := blockCode_ok made
  have shape := segment
  rw [blockListing, found] at shape
  rcases Lists.append_split shape with ⟨within, calm, -⟩ | ⟨inner, rfl, behind⟩
  · have quiet := (calmListing_calm (x := x) (by rw [calm]; simp)).2
    rw [throws] at quiet
    cases quiet
  rcases Lists.append_split behind with ⟨later, rest, rfl⟩ | ⟨later, -, last⟩
  · refine ⟨block, found, ?_, fun guarded => ?_, fun mem => absent ?_⟩
    · have mem : x ∈ restListing f b position next block := by rw [rest]; simp
      rcases (restListing_part mem).2 with ⟨s, among, part⟩ | part <;> rw [part] at throws
      · rw [Block.canThrow, Bool.or_eq_true, any_eq_true]
        exact .inl ⟨s, among, throws⟩
      · rw [Block.canThrow, show block.terminator.isThrow = true from throws, Bool.or_true]
    · simp [calmListing, guarded]
    · rw [← code, segment, ← cons_append, ← append_assoc, map_append] at ends
      rw [← append_inj_left' ends rfl, map_append]
      rw [map_append] at mem
      exact mem_append.2 ((mem_append.1 mem).imp id fun same =>
        mem_cons.2 (.inl (mem_singleton.1 same)))
  · have same : x ∈ [(⟨b, .label, .label (endLabel position)⟩ : Emission)] := by rw [last]; simp
    rw [mem_singleton.1 same] at throws
    cases throws

end Listing

/-! ## Where labels stand -/

def labelAt (code : List Instruction) (l : Stack.Label) : Option Nat :=
  code.findIdx? (Instruction.isLabel l)

/-- Whether an entry of the table is over the instruction at an index. -/
def covers (code : List Instruction) (e : TryCatch) (i : Nat) : Bool :=
  match labelAt code e.start, labelAt code e.stop with
  | some start, some stop => start ≤ i && i < stop
  | _, _ => false

section Labels

variable {front : List Instruction} {l : Stack.Label}

lemma isLabel_iff {i : Instruction} : i.isLabel l = true ↔ i = .label l := by
  cases i <;> simp [Instruction.isLabel]

lemma labelAt_left (mem : .label l ∈ front) (back : List Instruction) :
    ∃ k, labelAt (front ++ back) l = some k ∧ k < front.length := by
  have here : (front.findIdx? (Instruction.isLabel l)).isSome := by
    rw [findIdx?_isSome, any_eq_true]
    exact ⟨_, mem, isLabel_iff.2 rfl⟩
  obtain ⟨k, found⟩ := Option.isSome_iff_exists.1 here
  refine ⟨k, ?_, (findIdx?_eq_some_iff_findIdx_eq.1 found).1⟩
  rw [labelAt, findIdx?_append, found]
  rfl

lemma labelAt_right {back} (absent : .label l ∉ front) (found : labelAt (front ++ back) l = some k) :
    front.length ≤ k := by
  have none_ : front.findIdx? (Instruction.isLabel l) = none := by
    rw [findIdx?_eq_none_iff]
    intro i mem
    rw [Bool.eq_false_iff]
    exact fun same => absent (isLabel_iff.1 same ▸ mem)
  rw [labelAt, findIdx?_append, none_, Option.none_or, Option.map_eq_some_iff] at found
  obtain ⟨k', -, rfl⟩ := found
  exact Nat.le_add_left _ _

lemma covers_iff : covers code e i = true ↔
    ∃ start stop, labelAt code e.start = some start ∧ labelAt code e.stop = some stop ∧
      start ≤ i ∧ i < stop := by
  unfold covers
  split
  · rename_i start stop one other
    simp [one, other]
  · rename_i none_
    simp only [Bool.false_eq_true, false_iff, not_exists, not_and]
    exact fun start stop one other => (none_ start stop one other).elim

end Labels

/-! ## Ranges -/

section Ranges

variable {opens : Nat → Bool} {positions : List Nat}

lemma rangesOf_cons (opens : Nat → Bool) (p : Nat) (positions : List Nat) :
    (∃ last ranges, rangesOf opens positions = (p + 1, last) :: ranges ∧
        rangesOf opens (p :: positions) = (p, last) :: ranges ∧ opens (p + 1) = false) ∨
      rangesOf opens (p :: positions) = (p, p) :: rangesOf opens positions := by
  rw [rangesOf]
  split
  · rename_i first last ranges later
    split
    · rename_i joins
      rw [Bool.and_eq_true, decide_eq_true_eq, Bool.not_eq_true'] at joins
      exact .inl ⟨last, ranges, by rw [later, joins.1], rfl, joins.1 ▸ joins.2⟩
    · exact .inr (by rw [later])
  · rename_i later
    exact .inr (by rw [later])

lemma rangesOf_induction {P : Nat × Nat → Prop} (alone : ∀ p ∈ positions, P (p, p))
    (join : ∀ p ∈ positions, ∀ last, opens (p + 1) = false → P (p + 1, last) → P (p, last)) :
    ∀ r ∈ rangesOf opens positions, P r := by
  induction positions with
  | nil => simp [rangesOf]
  | cons p positions ih =>
    rw [forall_mem_cons] at alone join
    have ih := ih alone.2 join.2
    rcases rangesOf_cons opens p positions with ⟨last, ranges, later, joined, shut⟩ | single
    · rw [later, forall_mem_cons] at ih
      rw [joined, forall_mem_cons]
      exact ⟨join.1 last shut ih.1, ih.2⟩
    · rw [single, forall_mem_cons]
      exact ⟨alone.1, ih⟩

lemma rangesOf_mem (mem : r ∈ rangesOf opens positions) : r.1 ∈ positions ∧ r.2 ∈ positions ∧ r.1 ≤ r.2 :=
  rangesOf_induction (P := fun r => r.1 ∈ positions ∧ r.2 ∈ positions ∧ r.1 ≤ r.2)
    (fun _ among => ⟨among, among, Nat.le_refl _⟩)
    (fun _ among _ _ first => ⟨among, first.2.1, Nat.le_of_succ_le first.2.2⟩) r mem

lemma rangesOf_inner (mem : r ∈ rangesOf opens positions) (behind : r.1 < n)
    (within : n ≤ r.2) : opens n = false := by
  refine rangesOf_induction (P := fun r => ∀ n, r.1 < n → n ≤ r.2 → opens n = false)
    (fun p _ n behind within => ?_) (fun p _ last shut later n behind within => ?_) r mem n behind within
  · exact absurd behind (Nat.not_lt.2 within)
  · rcases Nat.lt_or_eq_of_le (Nat.succ_le_of_lt behind) with further | rfl
    · exact later n further within
    · exact shut

/-- A position is in one range if it is among those given, in none otherwise. -/
lemma count_rangesOf (ascending : positions.Pairwise (· < ·)) (n : Nat) :
    (rangesOf opens positions).countP (fun r => r.1 ≤ n && n ≤ r.2) = if n ∈ positions then 1 else 0 := by
  induction positions with
  | nil => rfl
  | cons p positions ih =>
    rw [pairwise_cons] at ascending
    have ih := ih ascending.2
    have beyond : n = p → n ∉ positions := fun same mem => by
      have := ascending.1 n mem
      omega
    rcases rangesOf_cons opens p positions with ⟨last, ranges, later, joined, -⟩ | alone
    · have among : (p + 1, last) ∈ rangesOf opens positions := by rw [later]; simp
      have first := (rangesOf_mem among).2.2
      rw [joined, countP_cons]
      rw [later, countP_cons] at ih
      simp only [mem_cons, Bool.and_eq_true, decide_eq_true_eq] at ih first ⊢
      by_cases same : n = p
      · simp only [beyond same, if_false] at ih
        split <;> split <;> omega
      · simp only [same, false_or]
        rw [← ih]
        split <;> split <;> omega
    · rw [alone, countP_cons, ih]
      simp only [mem_cons, Bool.and_eq_true, decide_eq_true_eq]
      by_cases same : n = p
      · simp [same, same ▸ beyond same]
      · simp only [same, false_or]
        split <;> split <;> omega

end Ranges

/-! ## Entries -/

section Entries

variable {m : Method}

lemma mem_guardedPositions : n ∈ guardedPositions m t ↔
    ∃ b block, m.layout[n]? = some b ∧ b ∈ t.covered ∧ m.block? b = some block ∧ block.canThrow = true := by
  simp only [guardedPositions, mem_filterMap, Prod.exists, mk_mem_zipIdx_iff_getElem?]
  constructor
  · rintro ⟨b, i, at_, kept⟩
    split at kept
    · rename_i guarded
      cases kept
      rw [Bool.and_eq_true, contains_iff_mem] at guarded
      cases found : m.block? b with
      | none => simp [found] at guarded
      | some block => exact ⟨b, block, at_, guarded.1, found, by simpa [found] using guarded.2⟩
    · cases kept
  · rintro ⟨b, block, at_, covered, found, throws⟩
    exact ⟨b, n, at_, by simp [covered, found, throws]⟩

lemma guardedPositions_ascending : (guardedPositions m t).Pairwise (· < ·) := by
  have ascending : (m.layout.zipIdx.map (·.2)).Pairwise (· < ·) := by
    rw [zipIdx_map_snd]
    exact pairwise_lt_range'
  rw [pairwise_map] at ascending
  refine ascending.filterMap _ fun ⟨_, i⟩ ⟨_, j⟩ less i' kept j' kept' => ?_
  simp only [Option.ite_none_right_eq_some, Option.some.injEq] at kept kept'
  rwa [← kept.2, ← kept'.2]

private lemma positions_other {table : Array (Option Nat)} (absent : b ∉ layout) :
    ((layout.zipIdx k).foldl (fun table (b, i) => table.setIfInBounds b.index (some i))
      table).getD b.index none = table.getD b.index none := by
  induction layout generalizing table k with
  | nil => rfl
  | cons c layout ih =>
    rw [mem_cons, not_or] at absent
    have apart : c.index ≠ b.index := fun same => absent.1 (BlockId.index_injective same.symm)
    rw [zipIdx_cons, foldl_cons, ih absent.2]
    simp [Array.getD_eq_getD_getElem?, Array.getElem?_setIfInBounds_ne apart]

private lemma positions_at (table : Array (Option Nat)) (once : layout.Nodup)
    (inside : b.index < table.size) (at_ : layout[n]? = some b) :
    ((layout.zipIdx k).foldl (fun table (b, i) => table.setIfInBounds b.index (some i))
      table).getD b.index none = some (k + n) := by
  induction layout generalizing table k n with
  | nil => simp at at_
  | cons c layout ih =>
    rw [nodup_cons] at once
    rw [zipIdx_cons, foldl_cons]
    cases n with
    | zero =>
      obtain rfl : c = b := by simpa using at_
      rw [positions_other once.1]
      simp [Array.getD_eq_getD_getElem?, inside]
    | succ n =>
      rw [ih _ once.2 (by simpa using inside) (by simpa using at_)]
      congr 1
      omega

lemma position?_of_mem (once : m.layout.Nodup) (inside : b.index < m.blocks.size)
    (at_ : m.layout[n]? = some b) : Frame.position? (frameOf m slots) b = some n := by
  have found := positions_at (Array.replicate m.blocks.size none) (k := 0) once
    (by simpa using inside) at_
  rwa [Nat.zero_add] at found

/-- A handler as the table shows it: the class that it catches and its label. -/
def shown (m : Method) (h : Handler) : Option String × Stack.Label :=
  (h.catches.map Signature.internalName, exceptionLabel (m.layout.idxOf h.target))

/-- Of a trap, the entries over one instruction are its handlers, once for each
range over the instruction. -/
lemma trapEntries_filter {opens hits inside} (once : m.layout.Nodup)
    (exist : ∀ h ∈ t.handlers, h.target ∈ m.layout ∧ h.target.index < m.blocks.size)
    (same : ∀ r ∈ rangesOf opens (guardedPositions m t), ∀ handler catches,
      hits ⟨throwsLabel r.1, endLabel r.2, handler, catches⟩ = inside r) :
    ((trapEntries (frameOf m slots) opens t).filter hits).map (fun e => (e.catches, e.handler)) =
      (List.replicate ((rangesOf opens (guardedPositions m t)).countP inside)
        (t.handlers.map (shown m))).flatten := by
  have entries : trapEntries (frameOf m slots) opens t =
      (rangesOf opens (guardedPositions m t)).flatMap fun r => t.handlers.map fun h =>
        ⟨throwsLabel r.1, endLabel r.2, (shown m h).2, (shown m h).1⟩ := by
    rw [trapEntries]
    congr 1
    funext r
    rw [← filterMap_eq_map]
    refine filterMap_congr fun h mem => ?_
    obtain ⟨listed, bound⟩ := exist h mem
    rw [position?_of_mem once bound (getElem?_idxOf listed)]
    rfl
  rw [entries]
  generalize rangesOf opens (guardedPositions m t) = ranges at same
  induction ranges with
  | nil => rfl
  | cons r ranges ih =>
    have here := same r mem_cons_self
    have mine : ((t.handlers.map fun h => (⟨throwsLabel r.1, endLabel r.2, (shown m h).2,
        (shown m h).1⟩ : TryCatch)).filter hits).map (fun e => (e.catches, e.handler)) =
        if inside r then t.handlers.map (shown m) else [] := by
      rw [filter_map, show hits ∘ _ = fun _ => inside r from funext fun h => here _ _]
      cases inside r with
      | false => simp
      | true => simp [Function.comp_def]
    rw [flatMap_cons, filter_append, map_append, mine,
      ih fun r' mem => same r' (mem_cons_of_mem _ mem), countP_cons]
    cases inside r with
    | false => simp
    | true => simp [replicate_succ]

end Entries

lemma isGuarded_of_covered {m block} (trap : t ∈ m.traps) (covered : b ∈ t.covered)
    (throws : block.canThrow = true) : isGuarded m b block = true := by
  rw [isGuarded, throws, Bool.and_true]
  exact any_eq_true.2 ⟨t, trap, contains_iff_mem.2 covered⟩

lemma mem_trapEntries {opens}
    (mem : e ∈ trapEntries f opens t) : (∃ r ∈ rangesOf opens (guardedPositions f.method t),
      e.start = throwsLabel r.1 ∧ e.stop = endLabel r.2) ∧
      ∃ h ∈ t.handlers, ∃ p, f.position? h.target = some p ∧ e.handler = exceptionLabel p := by
  obtain ⟨r, among, entry⟩ := mem_flatMap.1 mem
  obtain ⟨h, handles, made⟩ := mem_filterMap.1 entry
  obtain ⟨p, found, rfl⟩ := Option.map_eq_some_iff.1 made
  exact ⟨⟨r, among, rfl, rfl⟩, h, handles, p, found, rfl⟩

lemma guarded_of_range {opens m}
    (mem : r ∈ rangesOf opens (guardedPositions m t)) (within : r.1 ≤ n ∧ n ≤ r.2) :
    n ∈ guardedPositions m t := by
  have some_ : 0 < (rangesOf opens (guardedPositions m t)).countP (fun r => r.1 ≤ n && n ≤ r.2) :=
    countP_pos_iff.2 ⟨r, mem, by simpa using within⟩
  by_contra absent
  rw [count_rangesOf guardedPositions_ascending, if_neg absent] at some_
  omega

section Covering

variable {before pre post after : List Emission} {l : Stack.Label}

/-- The place of an instruction: its block is at place `n` of the layout, and its code
is that of the block, between the code of the blocks in front and behind. -/
structure Place (f : Frame) (i : Nat) (x : Emission) (n : Nat) (before pre post after : List Emission) :
    Prop where
  listed : f.method.layout[n]? = some x.block
  segment : blockListing f x.block n f.method.layout[n + 1]? = pre ++ x :: post
  whole : listing f = before ++ (pre ++ x :: post) ++ after
  index : i = before.length + pre.length
  earlier : ∀ l, .label l ∈ before.map (·.instruction) → l.number / 4 < n
  own : ∀ l, .label l ∈ (pre ++ x :: post).map (·.instruction) → l.number / 4 = n
  later : ∀ l, .label l ∈ after.map (·.instruction) → n < l.number / 4

lemma listing_place (made : blockCodes f 0 f.method.layout = .ok codes)
    (at_ : (listing f)[i]? = some x) : ∃ n before pre post after, Place f i x n before pre post after := by
  obtain ⟨bound, here⟩ := List.getElem?_eq_some_iff.1 at_
  have split : listing f = (listing f).take i ++ x :: (listing f).drop (i + 1) := by
    rw [← here, getElem_cons_drop, take_append_drop]
  obtain ⟨n, before, pre, post, after, listed, front, back, segment, low, high⟩ :=
    listingFrom_place made split
  obtain ⟨c, -, block⟩ := (blockCodes_spec made).2 n x.block listed
  rw [Nat.zero_add] at segment low high block
  refine ⟨n, before, pre, post, after, listed, segment, ?_, ?_, low, fun l mem => ?_, high⟩
  · refine split.trans ?_
    rw [front, back]
    simp
  · rw [← length_append, ← front, length_take_of_le (Nat.le_of_lt bound)]
  · rw [← segment, blockListing_instructions block] at mem
    exact segment_labels block mem

variable (place : Place f i x n before pre post after) (whole : (listing f).map (·.instruction) = code)
include place whole

lemma Place.split : code = (before ++ (pre ++ [x])).map (·.instruction) ++
    (post ++ after).map (·.instruction) := by
  rw [← whole, place.whole]
  simp

lemma Place.early (mem : .label l ∈ code) (less : l.number / 4 < n) :
    .label l ∈ before.map (·.instruction) := by
  rw [← whole, place.whole, map_append, map_append, mem_append, mem_append] at mem
  rcases mem with (early | mine) | late
  · exact early
  · have := place.own l mine
    omega
  · have := place.later l late
    omega

omit whole in
lemma Place.ahead (mem : .label l ∈ (before ++ (pre ++ [x])).map (·.instruction)) :
    l.number / 4 < n ∨ l.number / 4 = n ∧ .label l ∈ (pre ++ [x]).map (·.instruction) := by
  rw [map_append, mem_append] at mem
  refine mem.imp (place.earlier l) fun mine => ⟨place.own l ?_, mine⟩
  rw [append_cons, map_append]
  exact mem_append_left _ mine

/-- An entry is over instructions of the positions in its range only. -/
lemma Place.in_range (stops : .label e.stop ∈ code) (hits : covers code e i = true) :
    e.start.number / 4 ≤ n ∧ n ≤ e.stop.number / 4 := by
  obtain ⟨start, stop, one, other, le, less⟩ := covers_iff.1 hits
  have index := place.index
  constructor
  · by_contra beyond
    have absent : .label e.start ∉ (before ++ (pre ++ [x])).map (·.instruction) := by
      intro mem
      have := place.ahead mem
      omega
    rw [place.split whole] at one
    have := labelAt_right absent one
    simp only [length_append, length_map, length_cons] at this
    omega
  · by_contra beyond
    obtain ⟨k, found, bound⟩ := labelAt_left (place.early whole stops (by omega))
      ((pre ++ x :: (post ++ after)).map (·.instruction))
    have same : before.map (·.instruction) ++ (pre ++ x :: (post ++ after)).map (·.instruction) = code := by
      rw [place.split whole]
      simp
    rw [same, other, Option.some.injEq] at found
    rw [length_map] at bound
    omega

/-- An entry is over all instructions of its positions that throw. -/
lemma Place.covers_throwing (made : blockCodes f 0 f.method.layout = .ok codes) {first last}
    (starts : e.start = throwsLabel first) (stops : e.stop = endLabel last)
    (hasStart : .label e.start ∈ code) (hasStop : .label e.stop ∈ code)
    (throws : x.part.throws = true) (covered : f.method.isCovered x.block = true) (le : first ≤ n)
    (le' : n ≤ last) : covers code e i = true := by
  obtain ⟨c, -, block⟩ := (blockCodes_spec made).2 n x.block place.listed
  rw [Nat.zero_add] at block
  obtain ⟨target, found, canThrow, mark, absent⟩ := blockListing_throwing block place.segment throws
  have opened : .label e.start ∈ (before ++ pre).map (·.instruction) := by
    rw [map_append]
    rcases Nat.lt_or_eq_of_le le with less | rfl
    · exact mem_append_left _ (place.early whole hasStart (by rwa [starts, throwsLabel_place]))
    · exact mem_append_right _ (starts ▸ mark (by rw [isGuarded, covered, canThrow]; rfl))
  have open_ : .label e.stop ∉ (before ++ (pre ++ [x])).map (·.instruction) := by
    intro mem
    have ahead := place.ahead mem
    rw [stops, endLabel_place] at ahead
    obtain less | ⟨rfl, mine⟩ := ahead
    · omega
    · exact absent mine
  have index := place.index
  obtain ⟨stop, other, -⟩ := labelAt_left hasStop []
  rw [append_nil] at other
  obtain ⟨start, one, less⟩ := labelAt_left opened ((x :: (post ++ after)).map (·.instruction))
  refine covers_iff.2 ⟨start, stop, ?_, other, ?_, ?_⟩
  · rw [← one, place.split whole]
    simp
  · simp only [length_append, length_map] at less
    omega
  · rw [place.split whole] at other
    have := labelAt_right open_ other
    simp only [length_append, length_map, length_cons] at this
    omega

omit place

lemma guarded_labels (made : blockCodes f 0 f.method.layout = .ok codes) (trap : t ∈ f.method.traps)
    (guarded : n ∈ guardedPositions f.method t) :
    .label (throwsLabel n) ∈ code ∧ .label (endLabel n) ∈ code := by
  obtain ⟨b, block, at_, covered, found, throws⟩ := mem_guardedPositions.1 guarded
  obtain ⟨block', found', holds⟩ := emitted_holds made at_
  cases found.symm.trans found'
  rw [← listingFrom_instructions made] at holds
  rw [← whole]
  exact ⟨holds _ (by simp [segmentLabels, isGuarded_of_covered trap covered throws]),
    holds _ (by simp [segmentLabels])⟩

include place

/-- An entry of a trap is over instructions of the blocks that the trap covers only. -/
lemma Place.in_trap {opens} (made : blockCodes f 0 f.method.layout = .ok codes)
    (trap : t ∈ f.method.traps) (entry : e ∈ trapEntries f opens t) (hits : covers code e i = true) :
    ∃ r ∈ rangesOf opens (guardedPositions f.method t), e.start = throwsLabel r.1 ∧ r.1 ≤ n ∧ n ≤ r.2 ∧
      x.block ∈ t.covered ∧ ∃ block, f.method.block? x.block = some block ∧ block.canThrow = true := by
  obtain ⟨⟨r, mem, starts, stops⟩, -⟩ := mem_trapEntries entry
  obtain ⟨first, last, -⟩ := rangesOf_mem mem
  have within := place.in_range whole (stops ▸ (guarded_labels whole made trap last).2) hits
  rw [starts, stops, throwsLabel_place, endLabel_place] at within
  obtain ⟨b, block, at_, covered, found, throws⟩ :=
    mem_guardedPositions.1 (guarded_of_range mem within)
  cases place.listed.symm.trans at_
  exact ⟨r, mem, starts, within.1, within.2, covered, block, found, throws⟩

end Covering

lemma handlersOf_map {α : Type} (m : Method) (b : BlockId) (g : Handler → α) : (m.handlersOf b).map g =
      m.traps.flatMap fun t => if t.covered.contains b then t.handlers.map g else [] := by
  rw [Method.handlersOf]
  induction m.traps with
  | nil => rfl
  | cons t traps ih =>
    rw [filter_cons, flatMap_cons, ← ih]
    split <;> simp

section Table

variable {m : Method} (opens : Nat → Bool)

variable (made : blockCodes (frameOf m slots) 0 m.layout = .ok codes)
  (at_ : (listing (frameOf m slots))[i]? = some x)

include made at_

lemma uncovered_outside (trap : t ∈ m.traps) (apart : x.block ∉ t.covered)
    (entry : e ∈ trapEntries (frameOf m slots) opens t) :
    covers ((listing (frameOf m slots)).map (·.instruction)) e i = false := by
  obtain ⟨n, before, pre, post, after, place⟩ := listing_place made at_
  rw [Bool.eq_false_iff]
  intro hits
  obtain ⟨-, -, -, -, -, covered, -⟩ := place.in_trap rfl made trap entry hits
  exact apart covered

/-- Of one trap, the entries over an instruction that throws are its handlers if
it covers the block, none otherwise. -/
lemma trap_over (trap : t ∈ m.traps) (once : m.layout.Nodup)
    (exist : ∀ h ∈ t.handlers, h.target ∈ m.layout ∧ h.target.index < m.blocks.size)
    (throws : x.part.throws = true) : ((trapEntries (frameOf m slots) opens t).filter
        (covers ((listing (frameOf m slots)).map (·.instruction)) · i)).map
        (fun e => (e.catches, e.handler)) =
      if t.covered.contains x.block then t.handlers.map (shown m) else [] := by
  obtain ⟨n, before, pre, post, after, place⟩ := listing_place made at_
  obtain ⟨c, -, code⟩ := (blockCodes_spec made).2 n x.block place.listed
  rw [Nat.zero_add] at code
  obtain ⟨block, found, canThrow, -⟩ := blockListing_throwing code place.segment throws
  have guarded : n ∈ guardedPositions m t ↔ x.block ∈ t.covered := by
    rw [mem_guardedPositions]
    constructor
    · rintro ⟨b, _, at_, covered, -⟩
      cases place.listed.symm.trans at_
      exact covered
    · exact fun covered => ⟨x.block, block, place.listed, covered, found, canThrow⟩
  have same : ∀ r ∈ rangesOf opens (guardedPositions m t), ∀ handler catches,
      covers ((listing (frameOf m slots)).map (·.instruction))
        ⟨throwsLabel r.1, endLabel r.2, handler, catches⟩ i = (r.1 ≤ n && n ≤ r.2) := by
    intro r mem handler catches
    obtain ⟨first, last, -⟩ := rangesOf_mem mem
    have starts := (guarded_labels rfl made trap first).1
    have stops := (guarded_labels rfl made trap last).2
    rw [Bool.eq_iff_iff, Bool.and_eq_true, decide_eq_true_eq, decide_eq_true_eq]
    refine ⟨fun hits => ?_, fun within => place.covers_throwing rfl made rfl rfl starts stops throws ?_
      within.1 within.2⟩
    · have within := place.in_range rfl stops hits
      rwa [throwsLabel_place, endLabel_place] at within
    · exact any_eq_true.2 ⟨t, trap, contains_iff_mem.2 (guarded.1 (guarded_of_range mem within))⟩
  rw [trapEntries_filter once exist same, count_rangesOf guardedPositions_ascending]
  by_cases covered : x.block ∈ t.covered
  · simp [guarded.2 covered, covered]
  · simp [mt guarded.1 covered, covered]

end Table

/-- The exception table is exact. Over an instruction of a statement or
terminator that throws are the handlers of its block, in order of priority, and no
others; and no entry of a trap is over code of a block that the trap does not cover. -/
theorem table_exact {m : Method} {body : Body} (lowered : lower m = .ok body)
    (once : m.layout.Nodup) (listed : ∀ b, b ∈ m.layout ↔ (m.block? b).isSome = true)
    (exist : ∀ t ∈ m.traps, ∀ h ∈ t.handlers, (m.block? h.target).isSome = true) :
    ∃ slots opens f, assignSlots m = .ok slots ∧ f = (frameOf m slots) ∧
      (listing f).map (·.instruction) = body.instructions ∧
      body.tryCatches = m.traps.flatMap (trapEntries f opens) ∧
      ∀ i x, (listing f)[i]? = some x →
        (x.part.throws = true →
          (body.tryCatches.filter (covers body.instructions · i)).map (fun e => (e.catches, e.handler)) =
            (m.handlersOf x.block).map (shown m)) ∧
        ∀ t ∈ m.traps, x.block ∉ t.covered → ∀ e ∈ trapEntries f opens t,
          covers body.instructions e i = false := by
  obtain ⟨slots, assigned, lowered⟩ := Outcome.bind_ok.1 lowered
  obtain ⟨codes, made, lowered⟩ := Outcome.bind_ok.1 lowered
  cases lowered
  have code := listingFrom_instructions made
  rw [← emitted_eq_flatten] at code
  refine ⟨slots, _, _, assigned, rfl, code, rfl, fun i x at_ => ⟨fun throws => ?_, ?_⟩⟩
  · rw [← code, List.filter_flatMap, List.map_flatMap, handlersOf_map]
    refine List.flatMap_congr fun t trap => trap_over _ made at_ trap once (fun h member => ?_) throws
    have found := exist t trap h member
    obtain ⟨block, here⟩ := Option.isSome_iff_exists.1 found
    exact ⟨(listed _).2 found, Method.index_lt_of_block? here⟩
  · rw [← code]
    exact fun t trap apart e entry => uncovered_outside _ made at_ trap apart entry

/-- Neighbouring blocks under two traps, the second with code in front of what
throws, and a block between them and the handlers that no trap covers. -/
def guardedRow : Method where
  owner := ""
  name := ""
  descriptor := ""
  isStatic := true
  params := #[]
  returnType := "V"
  blocks := #[some ⟨[], [.monitorEnter (.const .null)], .goto ⟨1⟩⟩,
    some ⟨[], [.assign ⟨0⟩ (.value (.const .null))], .throw (.var ⟨0⟩)⟩,
    some ⟨[], [.monitorExit (.const .null)], .ret none⟩, some ⟨[], [.assign ⟨1⟩ .caught], .goto ⟨2⟩⟩]
  layout := [⟨0⟩, ⟨1⟩, ⟨2⟩, ⟨3⟩]
  entry := ⟨0⟩
  traps := [⟨[⟨1⟩, ⟨0⟩], [⟨some "LFailure;", ⟨3⟩⟩, ⟨none, ⟨2⟩⟩]⟩, ⟨[⟨1⟩], [⟨none, ⟨3⟩⟩]⟩]
  locals := #[.object, .throwable]

theorem guardedRow_exact : ∃ body, lower guardedRow = .ok body ∧ guardedRow.layout.Nodup ∧
    (∀ b, b ∈ guardedRow.layout ↔ (guardedRow.block? b).isSome = true) ∧
    (∀ t ∈ guardedRow.traps, ∀ h ∈ t.handlers, (guardedRow.block? h.target).isSome = true) ∧
    ∃ slots opens f, assignSlots guardedRow = .ok slots ∧
      f = ⟨guardedRow, slots, layoutPositions guardedRow⟩ ∧
      (listing f).map (·.instruction) = body.instructions ∧
      body.tryCatches = guardedRow.traps.flatMap (trapEntries f opens) ∧
      ∀ i x, (listing f)[i]? = some x →
        (x.part.throws = true →
          (body.tryCatches.filter (covers body.instructions · i)).map (fun e => (e.catches, e.handler)) =
            (guardedRow.handlersOf x.block).map (shown guardedRow)) ∧
        ∀ t ∈ guardedRow.traps, x.block ∉ t.covered → ∀ e ∈ trapEntries f opens t,
          covers body.instructions e i = false := by
  obtain ⟨body, lowered⟩ : ∃ body, lower guardedRow = .ok body :=
    Outcome.exists_of_isOk (by decide +kernel)
  have once : guardedRow.layout.Nodup := by decide
  have exist : ∀ t ∈ guardedRow.traps, ∀ h ∈ t.handlers,
      (guardedRow.block? h.target).isSome = true := by decide
  have listed : ∀ b, b ∈ guardedRow.layout ↔ (guardedRow.block? b).isSome = true := by
    intro b
    constructor
    · revert b
      decide
    · rcases b with ⟨_ | _ | _ | _ | n⟩
      all_goals simp [guardedRow, Method.block?]
  exact ⟨body, lowered, once, listed, exist, table_exact lowered once listed exist⟩

end Restack.Lowering
