/-
# Signatures and their texts

A text is read as a tree exactly if the tree is well formed and the text is the tree's. A
reference type is read back whatever follows (`reference_reads`). A type parameter may
end without a bound; what comes next is then the name and colon of another one, which no
reference type begins with (`reference_none_before_colon`).
-/
import Restack.Proofs.Signature.Combinators
import Restack.Signature.Descriptor

namespace Restack.Signature

open List

/-! ## Well-formed signatures -/

/-- The characters that end a name. -/
def delimiters : List Char := ['.', ';', '[', '/', '<', '>', ':']

def isIdentifier (s : List Char) : Bool := !s.isEmpty && s.all (!delimiters.contains ·)

/-- Identifiers with slashes between them. -/
def isClassName (s : List Char) : Bool := (s.splitOn '/').all isIdentifier

mutual

/-- A well-formed type of values; void is none. -/
def TypeSig.isFieldType : TypeSig → Bool
  | .array element => element.isFieldType
  | .object type => type.wellFormed
  | .base _ => true
  | .void => false
  | .variable name => isIdentifier name.toList

def ClassType.wellFormed : ClassType → Bool
  | .mk name args inner =>
    isClassName name.toList && argsWellFormed args && innerWellFormed inner

/-- Wildcards and arguments are of reference types. -/
def TypeArg.wellFormed : TypeArg → Bool
  | .any => true
  | .upper bound => bound.isReference && bound.isFieldType
  | .lower bound => bound.isReference && bound.isFieldType
  | .plain type => type.isReference && type.isFieldType

def argsWellFormed : List TypeArg → Bool
  | [] => true
  | arg :: rest => arg.wellFormed && argsWellFormed rest

def innerWellFormed : List (String × List TypeArg) → Bool
  | [] => true
  | (name, args) :: rest =>
    isIdentifier name.toList && argsWellFormed args && innerWellFormed rest

end

/-- A well-formed reference type. -/
def TypeSig.isReferenceType (t : TypeSig) : Bool := t.isReference && t.isFieldType

/-- A well-formed type of results, void among them. -/
def TypeSig.wellFormed : TypeSig → Bool
  | .void => true
  | t => t.isFieldType

/-- What can be thrown: a class or a type variable, no array. -/
def TypeSig.isThrowable : TypeSig → Bool
  | .object type => type.wellFormed
  | .variable name => isIdentifier name.toList
  | _ => false

def TypeParam.wellFormed (p : TypeParam) : Bool :=
  isIdentifier p.name.toList && p.classBound.all TypeSig.isReferenceType &&
    p.interfaceBounds.all TypeSig.isReferenceType

def MethodSig.wellFormed (m : MethodSig) : Bool :=
  m.typeParams.all TypeParam.wellFormed && m.args.all TypeSig.isFieldType &&
    m.result.wellFormed && m.throws.all TypeSig.isThrowable

def ClassSig.wellFormed (c : ClassSig) : Bool :=
  c.typeParams.all TypeParam.wellFormed && c.superclass.wellFormed &&
    c.interfaces.all ClassType.wellFormed

/-! ## Texts of lists -/

lemma argsChars_eq (args : List TypeArg) : argsChars args = args.flatMap TypeArg.chars := by
  induction args with
  | nil => rfl
  | cons a args ih => rw [argsChars, flatMap_cons, ih]

lemma argsWellFormed_eq (args : List TypeArg) : argsWellFormed args = args.all TypeArg.wellFormed := by
  induction args with
  | nil => rfl
  | cons a args ih => rw [argsWellFormed, all_cons, ih]

/-- The text of a selected inner class. -/
def selectionChars (i : String × List TypeArg) : List Char :=
  '.' :: i.1.toList ++ bracketed (argsChars i.2)

def selectionWellFormed (i : String × List TypeArg) : Bool :=
  isIdentifier i.1.toList && i.2.all TypeArg.wellFormed

lemma innerChars_eq (inner : List (String × List TypeArg)) :
    innerChars inner = inner.flatMap selectionChars := by
  induction inner with
  | nil => rfl
  | cons i inner ih => rw [innerChars, flatMap_cons, ih, selectionChars]

lemma innerWellFormed_eq (inner : List (String × List TypeArg)) :
    innerWellFormed inner = inner.all selectionWellFormed := by
  induction inner with
  | nil => rfl
  | cons i inner ih => rw [innerWellFormed, all_cons, ih, argsWellFormed_eq, selectionWellFormed]

/-! ## Names -/

variable {c : Char} {s rest : List Char} {t : TypeSig} {n : Nat} {α : Type} {text : String}

lemma isNameChar_iff : isNameChar c = true ↔ c ∉ delimiters := by
  simp [isNameChar, delimiters]

lemma isIdentifier_iff : isIdentifier s = true ↔ s ≠ [] ∧ ∀ c ∈ s, isNameChar c = true := by
  simp [isIdentifier, isNameChar_iff]

/-- Nothing follows that would go on with a name. -/
def EndsName (rest : List Char) : Prop := ∀ c ∈ rest.head?, isNameChar c = false

@[simp] lemma endsName_cons :
    EndsName (c :: s) ↔ isNameChar c = false := by simp [EndsName]

lemma identifier_sound : Sound identifier id (isIdentifier · = true) := by
  intro s name rest read
  rw [identifier] at read
  split at read
  · simp at read
  · rename_i nonempty
    cases read
    refine ⟨isIdentifier_iff.2 ⟨nonempty, fun c mem => ?_⟩, ?_⟩
    · exact all_eq_true.1 all_takeWhile c mem
    · exact (takeWhile_append_dropWhile).symm

lemma identifier_complete : Complete n identifier id (isIdentifier · = true) EndsName := by
  intro name valid _ rest ends
  obtain ⟨nonempty, named⟩ := isIdentifier_iff.1 valid
  have stops : rest.takeWhile isNameChar = [] ∧ rest.dropWhile isNameChar = rest := by
    cases rest with
    | nil => simp
    | cons c rest => simp [endsName_cons.1 ends]
  have taken : (name ++ rest).takeWhile isNameChar = name := by
    rw [takeWhile_append_of_pos named, stops.1, append_nil]
  have left : (name ++ rest).dropWhile isNameChar = rest := by
    rw [dropWhile_append_of_pos named, stops.2]
  rw [id, identifier, taken, left]
  cases name with
  | nil => exact absurd rfl nonempty
  | cons c name => rfl

lemma intercalate_slash (first : List Char) (more : List (List Char)) :
    ['/'].intercalate (first :: more) = first ++ more.flatMap ('/' :: ·) := by
  induction more generalizing first with
  | nil => simp [intercalate]
  | cons second more ih =>
    simp [ih second]

lemma className_sound : Sound className id (isClassName · = true) := by
  intro s name rest read
  rw [className] at read
  split at read
  · simp at read
  · rename_i first s' begins
    cases goes : many (after '/' identifier) s' with
    | mk more rest' =>
      rw [goes] at read
      cases read
      obtain ⟨valid, rfl⟩ := identifier_sound begins
      obtain ⟨each, rfl⟩ := many_sound identifier_sound.after goes
      refine ⟨?_, by simp⟩
      change isClassName _ = true
      have parts : ∀ part ∈ first :: more, isIdentifier part = true :=
        forall_mem_cons.2 ⟨valid, each⟩
      have apart : ∀ part ∈ first :: more, '/' ∉ part := by
        intro part mem slash
        have := (isIdentifier_iff.1 (parts part mem)).2 '/' slash
        simp [isNameChar] at this
      rw [isClassName, ← intercalate_slash, splitOn_intercalate '/' apart (by simp)]
      exact all_eq_true.2 parts

lemma className_complete :
    Complete n className id (isClassName · = true) fun rest => EndsName rest ∧ rest.head? ≠ some '/' := by
  intro name (valid : isClassName name = true) _ rest ends
  have joined : ['/'].intercalate (name.splitOn '/') = name := intercalate_splitOn '/'
  have each : ∀ part ∈ name.splitOn '/', isIdentifier part = true := all_eq_true.1 valid
  cases parts : name.splitOn '/' with
  | nil => exact absurd parts (splitOn_ne_nil '/' name)
  | cons first more =>
    rw [parts] at each joined
    obtain ⟨begins, each⟩ := forall_mem_cons.1 each
    rw [intercalate_slash] at joined
    have next : EndsName (more.flatMap ('/' :: ·) ++ rest) := by
      cases more with
      | nil => exact ends.1
      | cons => simp [isNameChar]
    have stops : after '/' identifier rest = none := by
      cases rest with
      | nil => rfl
      | cons c rest => exact after_ne fun same => ends.2 (by simp [same])
    have goes : many (after '/' identifier) (more.flatMap ('/' :: ·) ++ rest) = (more, rest) :=
      many_complete identifier_complete.after ⟨fun _ _ => cons_ne_nil _ _, fun _ _ _ => by
        simp [isNameChar]⟩ ends.1 stops each (Nat.le_refl _)
    have reads := identifier_complete begins (Nat.le_refl _) next
    rw [id] at reads
    rw [id, ← joined, append_assoc, className, reads]
    simp [goes]

/-! ## Reference types -/

lemma ClassType.chars_eq (c : ClassType) : c.chars = 'L' :: (c.name.toList ++ (bracketed (argsChars c.args) ++
      (c.inner.flatMap selectionChars ++ [';']))) := by
  obtain ⟨name, args, inner⟩ := c
  simp [ClassType.chars, ClassType.name, ClassType.args, ClassType.inner, innerChars_eq]

lemma ClassType.wellFormed_iff (c : ClassType) : c.wellFormed = true ↔ isClassName c.name.toList = true ∧
      (∀ a ∈ c.args, a.wellFormed = true) ∧ ∀ i ∈ c.inner, selectionWellFormed i = true := by
  obtain ⟨name, args, inner⟩ := c
  simp [ClassType.wellFormed, ClassType.name, ClassType.args, ClassType.inner,
    argsWellFormed_eq, innerWellFormed_eq, and_assoc]

/-- The letters that reference types begin with. -/
def beginsReference (c : Char) : Bool := ['L', 'T', '['].contains c

lemma TypeSig.chars_ne_nil (t : TypeSig) : t.chars ≠ [] := by
  cases t <;> simp [TypeSig.chars, ClassType.chars_eq]

lemma TypeArg.chars_ne_nil (a : TypeArg) : a.chars ≠ [] := by
  cases a <;> simp [TypeArg.chars, TypeSig.chars_ne_nil]

lemma TypeSig.chars_of_isReference (h : t.isReference = true) :
    ∃ c s, t.chars = c :: s ∧ beginsReference c = true := by
  cases t with
  | array element | «variable» name => exact ⟨_, _, rfl, rfl⟩
  | object type => exact ⟨_, _, type.chars_eq, rfl⟩
  | base type | void => simp [TypeSig.isReference] at h

section Types

variable {ref : Parser TypeSig}

/-- Reads reference types, every one that has at most `n` characters. -/
structure Reads (n : Nat) (ref : Parser TypeSig) : Prop where
  sound : Sound ref TypeSig.chars (·.isReferenceType = true)
  complete : Complete n ref TypeSig.chars (·.isReferenceType = true) fun _ => True
  stops : ∀ c s, beginsReference c = false → ref (c :: s) = none

variable (reads : Reads n ref)
include reads

lemma typeArg_sound : Sound (typeArg ref) TypeArg.chars (·.wellFormed = true) := by
  refine .orElse (char_sound.map fun _ _ => ⟨rfl, rfl⟩) (.orElse ?_ (.orElse ?_ ?_))
  · exact reads.sound.after.map fun _ valid => ⟨valid, rfl⟩
  · exact reads.sound.after.map fun _ valid => ⟨valid, rfl⟩
  · exact reads.sound.map fun _ valid => ⟨valid, rfl⟩

lemma typeArg_complete : Complete n (typeArg ref) TypeArg.chars (·.wellFormed = true) fun _ => True := by
  intro a valid short rest _
  cases a with
  | any => rfl
  | upper bound =>
    have := reads.complete.reads valid (Nat.le_of_succ_le short) rest trivial
    simp [typeArg, orElse, mapResult, TypeArg.chars, char_ne, this]
  | lower bound =>
    have := reads.complete.reads valid (Nat.le_of_succ_le short) rest trivial
    simp [typeArg, orElse, mapResult, TypeArg.chars, after_ne, char_ne, this]
  | plain type =>
    have here := reads.complete.reads valid short rest trivial
    obtain ⟨c, s, first, letter⟩ := TypeSig.chars_of_isReference (Bool.and_eq_true_iff.1 valid).1
    have mark : c ≠ '*' ∧ c ≠ '+' ∧ c ≠ '-' := by
      refine ⟨?_, ?_, ?_⟩ <;> rintro rfl <;> simp [beginsReference] at letter
    rw [TypeArg.chars]
    rw [first, cons_append] at here ⊢
    simp [typeArg, orElse, mapResult, after_ne, char_ne, mark, here]

lemma optionalArgs_sound {args} (read : optionalArgs ref s = (args, rest)) :
    (∀ a ∈ args, a.wellFormed = true) ∧ s = bracketed (argsChars args) ++ rest := by
  rw [optionalArgs] at read
  cases found : optional (typeArgs ref) s with
  | mk args' rest' =>
    rw [found] at read
    cases read
    rw [argsChars_eq]
    exact optional_bracketed_sound (typeArg_sound reads) (fun a _ => a.chars_ne_nil) found

lemma optionalArgs_complete {args} (each : ∀ a ∈ args, a.wellFormed = true)
    (short : (bracketed (argsChars args)).length ≤ n) (next : rest.head? ≠ some '<') :
    optionalArgs ref (bracketed (argsChars args) ++ rest) = (args, rest) := by
  have stops : typeArg ref ('>' :: rest) = none := by
    simp [typeArg, orElse_eq_none, mapResult_eq_none, char_ne, after_ne, reads.stops '>' rest rfl]
  rw [argsChars_eq] at short ⊢
  obtain ⟨found, read, same⟩ := optional_bracketed_complete (typeArg_complete reads)
    ⟨fun a _ => a.chars_ne_nil, fun _ _ _ => trivial⟩ trivial stops each short next
  rw [optionalArgs, typeArgs, read, ← same]

lemma innerClass_sound : Sound (innerClass ref) selectionChars (selectionWellFormed · = true) := by
  intro s i rest read
  rw [innerClass] at read
  split at read
  · simp at read
  · rename_i name s' named
    cases found : optionalArgs ref s' with
    | mk args rest' =>
      rw [found] at read
      cases read
      obtain ⟨valid, rfl⟩ := identifier_sound.after named
      obtain ⟨each, rfl⟩ := optionalArgs_sound reads found
      have : isIdentifier name = true := valid
      exact ⟨by simpa [selectionWellFormed, this] using each, by simp [selectionChars]⟩

omit reads

/-- A name of a class is over, and neither a slash nor an argument list goes on with it. -/
def EndsClass (rest : List Char) : Prop := ∃ c s, rest = c :: s ∧ (c = '.' ∨ c = ';')

lemma EndsClass.endsName (h : EndsClass rest) : EndsName rest := by
  obtain ⟨c, s, rfl, rfl | rfl⟩ := h <;> simp [isNameChar]

lemma EndsClass.head_ne (h : EndsClass rest) : rest.head? ≠ some '<' ∧ rest.head? ≠ some '/' := by
  obtain ⟨c, s, rfl, rfl | rfl⟩ := h <;> simp

lemma endsName_bracketed {args} (ends : EndsName rest) : EndsName (bracketed args ++ rest) := by
  by_cases empty : args = []
  · simpa [bracketed, empty] using ends
  · rw [bracketed_append empty]
    simp [isNameChar]

include reads

lemma innerClass_complete :
    Complete n (innerClass ref) selectionChars (selectionWellFormed · = true) EndsClass := by
  rintro ⟨name, args⟩ valid short rest ends
  obtain ⟨named, each⟩ := Bool.and_eq_true_iff.1 valid
  have begins := identifier_complete.reads named (Nat.le_refl _) (bracketed (argsChars args) ++ rest)
    (endsName_bracketed ends.endsName)
  have goes : optionalArgs ref (bracketed (argsChars args) ++ rest) = (args, rest) :=
    optionalArgs_complete reads (all_eq_true.1 each)
      (by simp [selectionChars] at short; omega) ends.head_ne.1
  rw [id] at begins
  simp [innerClass, selectionChars, begins, goes]

lemma classType_sound : Sound (classType ref) ClassType.chars (·.wellFormed = true) := by
  intro s c rest read
  rw [classType] at read
  split at read
  · simp at read
  · rename_i name s' named
    cases found : optionalArgs ref s' with
    | mk args s₁ =>
      cases selected : many (innerClass ref) s₁ with
      | mk inner s₂ =>
        simp only [found, selected] at read
        split at read
        · simp at read
        · rename_i closed
          cases read
          obtain ⟨valid, rfl⟩ := className_sound.after named
          obtain ⟨each, rfl⟩ := optionalArgs_sound reads found
          obtain ⟨chosen, rfl⟩ := many_sound (innerClass_sound reads) selected
          obtain rfl := char_eq_some.1 closed
          refine ⟨(ClassType.wellFormed_iff _).2 ⟨?_, each, chosen⟩, ?_⟩
          · simpa [ClassType.name] using valid
          · simp [ClassType.chars_eq, ClassType.name, ClassType.args, ClassType.inner]

lemma classType_complete :
    Complete (n + 1) (classType ref) ClassType.chars (·.wellFormed = true) fun _ => True := by
  intro c valid short rest _
  obtain ⟨named, each, chosen⟩ := c.wellFormed_iff.1 valid
  rw [c.chars_eq] at short ⊢
  simp only [length_cons, length_append] at short
  have closes : EndsClass (';' :: rest) := ⟨_, _, rfl, .inr rfl⟩
  have next : EndsClass (c.inner.flatMap selectionChars ++ ';' :: rest) := by
    cases c.inner with
    | nil => exact closes
    | cons i inner => exact ⟨_, _, rfl, .inl rfl⟩
  have ended : EndsName (bracketed (argsChars c.args) ++ (c.inner.flatMap selectionChars ++ ';' :: rest)) ∧
      (bracketed (argsChars c.args) ++ (c.inner.flatMap selectionChars ++ ';' :: rest)).head? ≠
        some '/' := by
    refine ⟨endsName_bracketed next.endsName, ?_⟩
    by_cases empty : argsChars c.args = []
    · simpa [bracketed, empty] using next.head_ne.2
    · simp [bracketed_append empty]
  have begins := className_complete named (Nat.le_refl _) ended
  have goes := optionalArgs_complete reads each (by omega) next.head_ne.1
  have selected : many (innerClass ref) (c.inner.flatMap selectionChars ++ ';' :: rest) =
      (c.inner, ';' :: rest) :=
    many_complete (innerClass_complete reads)
      ⟨fun _ _ => cons_ne_nil _ _, fun _ _ _ => ⟨_, _, rfl, .inl rfl⟩⟩ closes
      (by simp [innerClass, after_ne]) chosen (by omega)
  obtain ⟨name, args, inner⟩ := c
  simp only [id, ClassType.name, ClassType.args, ClassType.inner] at begins goes selected ⊢
  simp [classType, begins, goes, selected]

omit reads

lemma TypeSig.isReferenceType_of_isThrowable (valid : t.isThrowable = true) : t.isReferenceType = true := by
  cases t <;> first | exact valid | simp [TypeSig.isThrowable] at valid

lemma baseType_sound : Sound baseType TypeSig.chars (·.isFieldType = true) := by
  intro s t rest read
  cases s with
  | nil => simp [baseType] at read
  | cons c s =>
    simp only [baseType, Option.map_eq_some_iff] at read
    obtain ⟨b, found, rfl, rfl⟩ := read
    have letter : b.letter = c := by simpa using find?_some found
    exact ⟨rfl, by simp [TypeSig.chars, letter]⟩

lemma baseType_letter (b : BaseType) (rest : List Char) :
    baseType (b.letter :: rest) = some (.base b, rest) := by
  cases b <;> rfl

lemma typeVariable_sound : Sound typeVariable TypeSig.chars (·.isThrowable = true) := by
  intro s t rest read
  obtain ⟨name, named, rfl⟩ := mapResult_eq_some.1 read
  obtain ⟨valid, rfl⟩ := identifier_sound.after (before_eq_some.1 named)
  exact ⟨by simpa [TypeSig.isThrowable] using valid, by simp [TypeSig.chars]⟩

lemma typeVariable_complete {name} (valid : isIdentifier name.toList = true) (rest : List Char) :
    typeVariable ((TypeSig.variable name).chars ++ rest) = some (.variable name, rest) := by
  have begins := identifier_complete.reads valid (Nat.le_refl _) (';' :: rest) (by simp [isNameChar])
  refine mapResult_eq_some.2 ⟨name.toList, before_eq_some.2 (after_eq_some.2 ⟨_, rfl, ?_⟩), by simp⟩
  simpa using begins

lemma classType_none (ref : Parser TypeSig) (ne : c ≠ 'L') (s : List Char) :
    mapResult TypeSig.object (classType ref) (c :: s) = none := by
  simp [mapResult, classType, after_ne ne]

lemma typeVariable_none (ne : c ≠ 'T') (s : List Char) : typeVariable (c :: s) = none := by
  simp [typeVariable, mapResult, before, after_ne ne]

include reads

lemma valueType_sound : Sound (orElse ref baseType) TypeSig.chars (·.isFieldType = true) := by
  refine .orElse (fun _ _ _ read => ?_) baseType_sound
  exact (reads.sound read).imp_left fun valid => (Bool.and_eq_true_iff.1 valid).2

lemma valueType_complete :
    Complete n (orElse ref baseType) TypeSig.chars (·.isFieldType = true) fun _ => True := by
  intro t valid short rest _
  cases kind : t.isReference with
  | true =>
    exact orElse_eq_some.2 (.inl (reads.complete (Bool.and_eq_true_iff.2 ⟨kind, valid⟩) short trivial))
  | false =>
    cases t with
    | base b =>
      refine orElse_eq_some.2 (.inr ⟨?_, baseType_letter b rest⟩)
      exact reads.stops _ _ (by cases b <;> rfl)
    | void => simp [TypeSig.isFieldType] at valid
    | array | object | «variable» => simp [TypeSig.isReference] at kind

lemma object_sound : Sound (mapResult TypeSig.object (classType ref)) TypeSig.chars (·.isThrowable = true) :=
  (classType_sound reads).map fun _ valid => ⟨valid, rfl⟩

lemma referenceOver_sound : Sound (referenceOver ref) TypeSig.chars (·.isReferenceType = true) := by
  refine .orElse (fun _ _ _ read => ?_) (.orElse (fun _ _ _ read => ?_) ?_)
  · exact (object_sound reads read).imp_left TypeSig.isReferenceType_of_isThrowable
  · exact (typeVariable_sound read).imp_left TypeSig.isReferenceType_of_isThrowable
  · exact (valueType_sound reads).after.map fun _ valid => ⟨valid, rfl⟩

omit reads

lemma referenceOver_none (ref : Parser TypeSig) (other : beginsReference c = false)
    (s : List Char) : referenceOver ref (c :: s) = none := by
  have ne : c ≠ 'L' ∧ c ≠ 'T' ∧ c ≠ '[' := by
    refine ⟨?_, ?_, ?_⟩ <;> rintro rfl <;> simp [beginsReference] at other
  refine orElse_eq_none.2 ⟨classType_none ref ne.1 s, orElse_eq_none.2 ⟨typeVariable_none ne.2.1 s, ?_⟩⟩
  rw [mapResult_eq_none, after_ne ne.2.2]

include reads

lemma referenceOver_complete :
    Complete (n + 1) (referenceOver ref) TypeSig.chars (·.isReferenceType = true) fun _ => True := by
  intro t valid short rest _
  obtain ⟨refers, valid⟩ := Bool.and_eq_true_iff.1 valid
  cases t with
  | object type =>
    have := (classType_complete reads).reads valid short rest trivial
    exact orElse_eq_some.2 (.inl (mapResult_eq_some.2 ⟨type, this, rfl⟩))
  | «variable» name =>
    exact orElse_eq_some.2 (.inr ⟨classType_none ref (by decide) _,
      orElse_eq_some.2 (.inl (typeVariable_complete valid rest))⟩)
  | array element =>
    have inside := (valueType_complete reads).reads (a := element) valid
      (Nat.le_of_succ_le_succ short) rest trivial
    exact orElse_eq_some.2 (.inr ⟨classType_none ref (by decide) _,
      orElse_eq_some.2 (.inr ⟨typeVariable_none (by decide) _,
        mapResult_eq_some.2 ⟨element, after_self.trans inside, rfl⟩⟩)⟩)
  | base | void => simp [TypeSig.isReference] at refers

end Types

variable (depth : Nat)

lemma reference_reads : Reads depth (referenceWithin depth) := by
  induction depth with
  | zero =>
    refine ⟨by simp [Sound, referenceWithin], fun t _ short => ?_, fun _ _ _ => rfl⟩
    exact absurd (length_eq_zero_iff.1 (by omega)) t.chars_ne_nil
  | succ depth ih =>
    exact ⟨referenceOver_sound ih, referenceOver_complete ih, fun _ s other => referenceOver_none _ other s⟩

/-! ## Field and result types -/

lemma fieldType_none (other : beginsReference c = false) (letter : BaseType.ofLetter? c = none)
    (s : List Char) : fieldType depth (c :: s) = none :=
  orElse_eq_none.2 ⟨(reference_reads depth).stops c s other, by simp [baseType, letter]⟩

lemma TypeSig.wellFormed_of_isFieldType (valid : t.isFieldType = true) : t.wellFormed = true := by
  cases t <;> first | rfl | exact valid

lemma resultType_sound : Sound (resultType depth) TypeSig.chars (·.wellFormed = true) := by
  refine .orElse (fun _ _ _ read => ?_) (char_sound.map fun _ _ => ⟨rfl, rfl⟩)
  exact (valueType_sound (reference_reads depth) read).imp_left TypeSig.wellFormed_of_isFieldType

lemma resultType_complete :
    Complete depth (resultType depth) TypeSig.chars (·.wellFormed = true) fun _ => True := by
  intro t valid short rest _
  by_cases empty : t = .void
  · subst empty
    exact orElse_eq_some.2 (.inr ⟨fieldType_none depth (by decide) (by decide) _, rfl⟩)
  · have value : t.isFieldType = true := by
      cases t <;> first | exact absurd rfl empty | exact valid
    exact orElse_eq_some.2 (.inl (valueType_complete (reference_reads depth) value short trivial))

/-! ## Type parameters -/

/-- The delimiter behind the first name. -/
def firstDelimiter (s : List Char) : Option Char := s.find? (!isNameChar ·)

lemma firstDelimiter_append {name} (named : ∀ c ∈ name, isNameChar c = true)
    (s : List Char) : firstDelimiter (name ++ s) = firstDelimiter s := by
  have : name.find? (!isNameChar ·) = none := by
    simpa [find?_eq_none] using named
  rw [firstDelimiter, find?_append, this]
  rfl

lemma firstDelimiter_cons (delimits : isNameChar c = false) (s : List Char) :
    firstDelimiter (c :: s) = some c := by
  simp [firstDelimiter, delimits]

/-- The first name in a reference type does not end in a colon. -/
lemma firstDelimiter_reference (valid : t.isReferenceType = true) (rest : List Char) :
    firstDelimiter (t.chars ++ rest) ≠ some ':' := by
  obtain ⟨refers, valid⟩ := Bool.and_eq_true_iff.1 valid
  cases t with
  | array element =>
    rw [TypeSig.chars, cons_append, firstDelimiter_cons rfl]
    decide
  | «variable» name =>
    have named := (isIdentifier_iff.1 valid).2
    have text : (TypeSig.variable name).chars ++ rest = ('T' :: name.toList) ++ ';' :: rest := by
      simp [TypeSig.chars]
    rw [text, firstDelimiter_append (forall_mem_cons.2 ⟨rfl, named⟩), firstDelimiter_cons rfl]
    decide
  | object type =>
    obtain ⟨named, -, -⟩ := type.wellFormed_iff.1 valid
    have parts : ∀ part ∈ type.name.toList.splitOn '/', isIdentifier part = true :=
      all_eq_true.1 named
    have joined : ['/'].intercalate (type.name.toList.splitOn '/') = type.name.toList :=
      intercalate_splitOn '/'
    cases split : type.name.toList.splitOn '/' with
    | nil => exact absurd split (splitOn_ne_nil '/' _)
    | cons first more =>
      rw [split, intercalate_slash] at joined
      have first_ := (isIdentifier_iff.1 (parts first (by simp [split]))).2
      have text : (TypeSig.object type).chars ++ rest = ('L' :: first) ++
          (more.flatMap ('/' :: ·) ++ (bracketed (argsChars type.args) ++
            (type.inner.flatMap selectionChars ++ ';' :: rest))) := by
        rw [TypeSig.chars, type.chars_eq, ← joined]
        simp
      rw [text, firstDelimiter_append (forall_mem_cons.2 ⟨rfl, first_⟩)]
      -- a slash, an argument list, a selected class or the end, in this order
      cases more with
      | cons => simp [firstDelimiter_cons, isNameChar]
      | nil =>
        by_cases empty : argsChars type.args = []
        · cases type.inner <;>
            simp [empty, bracketed, selectionChars, firstDelimiter_cons, isNameChar]
        · simp [bracketed_append empty, firstDelimiter_cons, isNameChar]
  | base | void => simp [TypeSig.isReference] at refers

lemma reference_none_before_colon {name} (named : ∀ c ∈ name, isNameChar c = true)
    (s : List Char) : referenceWithin depth (name ++ ':' :: s) = none := by
  cases read : referenceWithin depth (name ++ ':' :: s) with
  | none => rfl
  | some r =>
    obtain ⟨t, rest⟩ := r
    obtain ⟨valid, text⟩ := (reference_reads depth).sound read
    have := firstDelimiter_reference valid rest
    rw [← text, firstDelimiter_append named] at this
    exact absurd rfl this

/-- The bounds of a type parameter are over. -/
def EndsBounds (depth : Nat) (rest : List Char) : Prop :=
  referenceWithin depth rest = none ∧ rest.head? ≠ some ':'

lemma typeParam_sound : Sound (typeParam depth) TypeParam.chars (·.wellFormed = true) := by
  intro s p rest read
  rw [typeParam] at read
  split at read
  · simp at read
  · rename_i name s' named
    cases found : optional (referenceWithin depth) s' with
    | mk classBound s₁ =>
      cases more : many (after ':' (referenceWithin depth)) s₁ with
      | mk interfaceBounds s₂ =>
        simp only [found, more] at read
        cases read
        obtain ⟨valid, rfl⟩ := identifier_sound (before_eq_some.1 named)
        obtain ⟨each, rfl⟩ := many_sound (reference_reads depth).sound.after more
        rcases optional_eq.1 found with ⟨t, rfl, bound⟩ | ⟨rfl, -, rfl⟩
        · obtain ⟨reference, rfl⟩ := (reference_reads depth).sound bound
          refine ⟨?_, by simp [TypeParam.chars]⟩
          simpa [TypeParam.wellFormed, valid, reference] using each
        · refine ⟨?_, by simp [TypeParam.chars]⟩
          simpa [TypeParam.wellFormed, valid] using each

lemma typeParam_complete :
    Complete depth (typeParam depth) TypeParam.chars (·.wellFormed = true) (EndsBounds depth) := by
  rintro ⟨name, classBound, interfaceBounds⟩ valid short rest ends
  simp only [TypeParam.wellFormed, Bool.and_eq_true] at valid
  obtain ⟨⟨named, bounded⟩, each⟩ := valid
  simp only [TypeParam.chars, length_append, length_cons] at short
  have begins : before identifier ':' (name.toList ++ ':' :: (classBound.elim [] TypeSig.chars ++
      (interfaceBounds.flatMap (fun t => ':' :: t.chars) ++ rest))) = some (name.toList, _) :=
    before_eq_some.2 (identifier_complete.reads named (Nat.le_refl _) _ (by simp [isNameChar]))
  have stops : after ':' (referenceWithin depth) rest = none := by
    cases rest with
    | nil => rfl
    | cons c rest => exact after_ne fun same => ends.2 (by simp [same])
  have more : many (after ':' (referenceWithin depth))
      (interfaceBounds.flatMap (fun t => ':' :: t.chars) ++ rest) = (interfaceBounds, rest) :=
    many_complete (reference_reads depth).complete.after
      ⟨fun _ _ => cons_ne_nil _ _, fun _ _ _ => trivial⟩ trivial stops (all_eq_true.1 each) (by omega)
  have found : optional (referenceWithin depth) (classBound.elim [] TypeSig.chars ++
      (interfaceBounds.flatMap (fun t => ':' :: t.chars) ++ rest)) =
        (classBound, interfaceBounds.flatMap (fun t => ':' :: t.chars) ++ rest) := by
    cases classBound with
    | some t =>
      refine optional_eq.2 (.inl ⟨t, rfl, (reference_reads depth).complete (by simpa using bounded) ?_ trivial⟩)
      simp only [Option.elim_some] at short
      omega
    | none =>
      refine optional_eq.2 (.inr ⟨rfl, ?_, rfl⟩)
      cases interfaceBounds with
      | nil => exact ends.1
      | cons t interfaceBounds => exact (reference_reads depth).stops _ _ (by decide)
  simp only [TypeParam.chars]
  simp [typeParam, begins, found, more]

lemma typeParams_chained : Chained TypeParam.chars (·.wellFormed = true) (EndsBounds depth) := by
  have shape : ∀ p : TypeParam, p.wellFormed = true → ∀ s, ∃ name s', p.chars ++ s = name ++ ':' :: s' ∧
      isIdentifier name = true := by
    intro p valid s
    simp only [TypeParam.wellFormed, Bool.and_eq_true] at valid
    refine ⟨p.name.toList, p.classBound.elim [] TypeSig.chars ++
      (p.interfaceBounds.flatMap (fun b => ':' :: b.chars) ++ s), ?_, valid.1.1⟩
    simp [TypeParam.chars]
  constructor
  · simp [TypeParam.chars]
  · intro p valid s
    obtain ⟨name, s', text, named⟩ := shape p valid s
    obtain ⟨nonempty, named⟩ := isIdentifier_iff.1 named
    rw [text]
    refine ⟨reference_none_before_colon depth named s', ?_⟩
    cases name with
    | nil => exact absurd rfl nonempty
    | cons c name =>
      have := named c (by simp)
      rw [cons_append, head?_cons, ne_eq, Option.some.injEq]
      rintro rfl
      simp [isNameChar] at this

lemma typeParams_sound {ps} (read : typeParams depth s = (ps, rest)) :
    (∀ p ∈ ps, p.wellFormed = true) ∧ s = paramsChars ps ++ rest := by
  rw [typeParams] at read
  cases found : optional (before (after '<' (many1 (typeParam depth))) '>') s with
  | mk params rest' =>
    rw [found] at read
    cases read
    exact optional_bracketed_sound (typeParam_sound depth) (fun p _ => by simp [TypeParam.chars]) found

lemma typeParams_complete {ps} (each : ∀ p ∈ ps, p.wellFormed = true)
    (short : (paramsChars ps).length ≤ depth) (rest : List Char)
    (next : rest.head? ≠ some '<') : typeParams depth (paramsChars ps ++ rest) = (ps, rest) := by
  rw [paramsChars] at short ⊢
  have ends : EndsBounds depth ('>' :: rest) := ⟨(reference_reads depth).stops '>' rest rfl, by simp⟩
  obtain ⟨found, read, same⟩ := optional_bracketed_complete (typeParam_complete depth)
    (typeParams_chained depth) ends (by simp [typeParam, before, identifier, isNameChar]) each short next
  rw [typeParams, read, ← same]

/-! ## Methods and classes -/

lemma throwsType_sound : Sound (throwsType depth) TypeSig.chars (·.isThrowable = true) :=
  .orElse (object_sound (reference_reads depth)) typeVariable_sound

lemma throwsType_complete :
    Complete depth (throwsType depth) TypeSig.chars (·.isThrowable = true) fun _ => True := by
  intro t valid short rest _
  cases t with
  | object type =>
    have whole := (classType_complete (reference_reads depth)).reads valid (Nat.le_succ_of_le short)
      rest trivial
    exact orElse_eq_some.2 (.inl (mapResult_eq_some.2 ⟨type, whole, rfl⟩))
  | «variable» name =>
    exact orElse_eq_some.2 (.inr ⟨classType_none _ (by decide) _, typeVariable_complete valid rest⟩)
  | array | base | void => simp [TypeSig.isThrowable] at valid

lemma MethodSig.wellFormed_iff (m : MethodSig) :
    m.wellFormed = true ↔ (∀ p ∈ m.typeParams, p.wellFormed = true) ∧
      (∀ t ∈ m.args, t.isFieldType = true) ∧ m.result.wellFormed = true ∧
        ∀ t ∈ m.throws, t.isThrowable = true := by
  simp [MethodSig.wellFormed, and_assoc]

lemma methodSig_sound : Sound (methodSig depth) MethodSig.chars (·.wellFormed = true) := by
  intro s m rest read
  rw [methodSig] at read
  cases params : typeParams depth s with
  | mk ps s₁ =>
    simp only [params] at read
    split at read
    · simp at read
    · rename_i s₂ opened
      cases taken : many (fieldType depth) s₂ with
      | mk args s₃ =>
        simp only [taken] at read
        split at read
        · simp at read
        · rename_i result s₄ closed
          cases thrown : many (after '^' (throwsType depth)) s₄ with
          | mk throws s₅ =>
            simp only [thrown] at read
            cases read
            obtain ⟨each, rfl⟩ := typeParams_sound depth params
            obtain rfl := char_eq_some.1 opened
            obtain ⟨fields, rfl⟩ := many_sound (valueType_sound (reference_reads depth)) taken
            obtain ⟨valid, rfl⟩ := (resultType_sound depth).after closed
            obtain ⟨throwable, rfl⟩ := many_sound (throwsType_sound depth).after thrown
            exact ⟨(MethodSig.wellFormed_iff _).2 ⟨each, fields, valid, throwable⟩, by
              simp [MethodSig.chars]⟩

lemma methodSig_complete {m} (valid : m.wellFormed = true)
    (short : m.chars.length ≤ depth) : methodSig depth m.chars = some (m, []) := by
  obtain ⟨ps, args, result, throws⟩ := m
  obtain ⟨each, fields, gives, throwable⟩ := (MethodSig.wellFormed_iff _).1 valid
  simp only [MethodSig.chars, length_append, length_cons] at short
  dsimp only at each fields gives throwable
  have params := typeParams_complete depth each (by omega) ('(' :: (args.flatMap TypeSig.chars ++
    ')' :: (result.chars ++ throws.flatMap fun t => '^' :: t.chars))) (by simp)
  have taken : many (fieldType depth) (args.flatMap TypeSig.chars ++ ')' :: (result.chars ++
      throws.flatMap fun t => '^' :: t.chars)) = (args, _) :=
    many_complete (valueType_complete (reference_reads depth))
      ⟨fun t _ => t.chars_ne_nil, fun _ _ _ => trivial⟩ trivial
      (fieldType_none depth (by decide) (by decide) _) fields (by omega)
  have returned := (resultType_complete depth).reads gives (by omega)
    (throws.flatMap fun t => '^' :: t.chars) trivial
  have thrown : many (after '^' (throwsType depth)) ((throws.flatMap fun t => '^' :: t.chars) ++ []) =
      (throws, []) :=
    many_complete (throwsType_complete depth).after
      ⟨fun _ _ => cons_ne_nil _ _, fun _ _ _ => trivial⟩ trivial rfl throwable (by omega)
  rw [append_nil] at thrown
  simp only [MethodSig.chars]
  simp [methodSig, params, taken, returned, thrown]

lemma ClassSig.wellFormed_iff (c : ClassSig) :
    c.wellFormed = true ↔ (∀ p ∈ c.typeParams, p.wellFormed = true) ∧
      c.superclass.wellFormed = true ∧ ∀ i ∈ c.interfaces, i.wellFormed = true := by
  simp [ClassSig.wellFormed, and_assoc]

lemma classSig_sound : Sound (classSig depth) ClassSig.chars (·.wellFormed = true) := by
  intro s c rest read
  rw [classSig] at read
  cases params : typeParams depth s with
  | mk ps s₁ =>
    simp only [params] at read
    split at read
    · simp at read
    · rename_i superclass s₂ above
      cases listed : many (classType (referenceWithin depth)) s₂ with
      | mk interfaces s₃ =>
        simp only [listed] at read
        cases read
        obtain ⟨each, rfl⟩ := typeParams_sound depth params
        obtain ⟨valid, rfl⟩ := classType_sound (reference_reads depth) above
        obtain ⟨all, rfl⟩ := many_sound (classType_sound (reference_reads depth)) listed
        exact ⟨(ClassSig.wellFormed_iff _).2 ⟨each, valid, all⟩, by simp [ClassSig.chars]⟩

lemma classSig_complete {c} (valid : c.wellFormed = true)
    (short : c.chars.length ≤ depth) : classSig depth c.chars = some (c, []) := by
  obtain ⟨ps, superclass, interfaces⟩ := c
  obtain ⟨each, above, all⟩ := (ClassSig.wellFormed_iff _).1 valid
  simp only [ClassSig.chars, length_append] at short
  dsimp only at each above all
  have class_ := classType_complete (reference_reads depth)
  have params := typeParams_complete depth each (by omega)
    (superclass.chars ++ interfaces.flatMap ClassType.chars) (by simp [ClassType.chars_eq])
  have superclass_ := class_.reads above (by omega) (interfaces.flatMap ClassType.chars) trivial
  have listed : many (classType (referenceWithin depth)) (interfaces.flatMap ClassType.chars ++ []) =
      (interfaces, []) :=
    many_complete class_ ⟨fun i _ => by simp [ClassType.chars_eq], fun _ _ _ => trivial⟩ trivial rfl
      all (by omega)
  rw [append_nil] at listed
  simp only [ClassSig.chars]
  simp [classSig, params, superclass_, listed]

/-! ## Whole texts -/

lemma readAll_eq_some {p} {a : α} :
    readAll p text = some a ↔ p text.toList.length text.toList = some (a, []) := by
  rw [readAll]
  split
  · rename_i b read
    rw [read]
    simp
  · rename_i other
    constructor
    · simp
    · exact fun read => absurd read (other a)

lemma orMalformed_eq_ok {found} {a : α} : orMalformed text found = .ok a ↔ found = some a := by
  cases found <;> simp [orMalformed, fail]

lemma readAll_iff {p chars valid} (sound : ∀ depth, Sound (p depth) chars valid)
    (complete : ∀ a, valid a → p (chars a).length (chars a) = some (a, [])) {a : α} :
    readAll p text = some a ↔ valid a ∧ String.ofList (chars a) = text := by
  rw [readAll_eq_some]
  constructor
  · intro read
    obtain ⟨ok, same⟩ := sound _ read
    rw [append_nil] at same
    exact ⟨ok, by rw [← same, String.ofList_toList]⟩
  · rintro ⟨ok, rfl⟩
    rw [String.toList_ofList]
    exact complete a ok

/-- A text is read as a signature exactly if the signature is well formed and the text is its own,
for types, methods and classes alike. -/
theorem parse_iff_text :
    (∀ (text : String) (t : TypeSig), TypeSig.parse text = .ok t ↔ t.wellFormed = true ∧ t.text = text) ∧
    (∀ (text : String) (m : MethodSig), MethodSig.parse text = .ok m ↔ m.wellFormed = true ∧ m.text = text) ∧
    ∀ (text : String) (c : ClassSig),
      ClassSig.parse text = .ok c ↔ c.wellFormed = true ∧ c.text = text := by
  refine ⟨fun text t => ?_, fun text m => ?_, fun text c => ?_⟩
  · refine orMalformed_eq_ok.trans (readAll_iff resultType_sound fun t valid => ?_)
    simpa using (resultType_complete _).reads valid (Nat.le_refl _) [] trivial
  · exact orMalformed_eq_ok.trans (readAll_iff methodSig_sound fun m valid =>
      methodSig_complete _ valid (Nat.le_refl _))
  · exact orMalformed_eq_ok.trans (readAll_iff classSig_sound fun c valid =>
      classSig_complete _ valid (Nat.le_refl _))

/-- A method that says it throws an array. -/
def throwsArray : MethodSig := ⟨[], [], .void, [.array (.base .int)]⟩

/-- Of reference form, as bounds are, is not enough for what is thrown: an array is not read back. -/
theorem throwsArray_not_read :
    throwsArray.throws.all TypeSig.isReferenceType = true ∧
      { throwsArray with throws := [] }.wellFormed = true ∧
        ∀ m, MethodSig.parse throwsArray.text ≠ .ok m := by
  refine ⟨by decide, by decide, fun m => ?_⟩
  have rejected : MethodSig.parse? throwsArray.text = none := by decide
  simp [MethodSig.parse, rejected, orMalformed, fail]

end Restack.Signature
