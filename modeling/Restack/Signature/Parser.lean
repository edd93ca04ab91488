/-
# Reading signatures

Parsers take characters and give a result with the rest, or nothing. A choice
takes the first alternative that succeeds, and a repetition goes on while its
item succeeds. Reference types nest; a parser for them is built from a parser
for those inside, so the number of levels is a bound that the length of the
text supplies.
-/
import Restack.Signature.Basic

namespace Restack.Signature

abbrev Parser (α : Type) := List Char → Option (α × List Char)

section Combinators

variable {α β : Type}

def char (c : Char) : Parser Unit
  | [] => none
  | d :: rest => if d = c then some ((), rest) else none

def after (c : Char) (p : Parser α) : Parser α := fun s =>
  match char c s with
  | none => none
  | some (_, rest) => p rest

def before (p : Parser α) (c : Char) : Parser α := fun s =>
  match p s with
  | none => none
  | some (a, rest) => match char c rest with
    | none => none
    | some (_, rest) => some (a, rest)

def mapResult (f : α → β) (p : Parser α) : Parser β := fun s => (p s).map fun r => (f r.1, r.2)

def orElse (p q : Parser α) : Parser α := fun s =>
  match p s with
  | some r => some r
  | none => q s

def optional (p : Parser α) (s : List Char) : Option α × List Char :=
  match p s with
  | some (a, rest) => (some a, rest)
  | none => (none, s)

/-- As many items as there are, at most one for each character of the first list. -/
def repeatAlong (p : Parser α) : List Char → List Char → List α × List Char
  | [], s => ([], s)
  | _ :: bound, s =>
    match p s with
    | none => ([], s)
    | some (a, rest) =>
      let (items, rest) := repeatAlong p bound rest
      (a :: items, rest)

/-- As many items as there are; each takes at least one character. -/
def many (p : Parser α) (s : List Char) : List α × List Char := repeatAlong p s s

def many1 (p : Parser α) : Parser (List α) := fun s =>
  match many p s with
  | ([], _) => none
  | (items, rest) => some (items, rest)

end Combinators

def isNameChar (c : Char) : Bool := !(['.', ';', '[', '/', '<', '>', ':'].contains c)

def identifier : Parser (List Char) := fun s =>
  match s.takeWhile isNameChar with
  | [] => none
  | name => some (name, s.dropWhile isNameChar)

def className : Parser (List Char) := fun s =>
  match identifier s with
  | none => none
  | some (first, rest) =>
    let (more, rest) := many (after '/' identifier) rest
    some (first ++ more.flatMap ('/' :: ·), rest)

section Types

variable (ref : Parser TypeSig)

def typeArg : Parser TypeArg :=
  orElse (mapResult (fun _ => TypeArg.any) (char '*')) <|
    orElse (mapResult TypeArg.upper (after '+' ref)) <|
      orElse (mapResult TypeArg.lower (after '-' ref)) (mapResult TypeArg.plain ref)

def typeArgs : Parser (List TypeArg) := before (after '<' (many1 (typeArg ref))) '>'

/-- Arguments between angle brackets; none when they are not there. -/
def optionalArgs (s : List Char) : List TypeArg × List Char :=
  let (args, rest) := optional (typeArgs ref) s
  (args.getD [], rest)

def innerClass : Parser (String × List TypeArg) := fun s =>
  match after '.' identifier s with
  | none => none
  | some (name, rest) =>
    let (args, rest) := optionalArgs ref rest
    some ((String.ofList name, args), rest)

def classType : Parser ClassType := fun s =>
  match after 'L' className s with
  | none => none
  | some (name, rest) =>
    let (args, rest) := optionalArgs ref rest
    let (inner, rest) := many (innerClass ref) rest
    match char ';' rest with
    | none => none
    | some (_, rest) => some (.mk (String.ofList name) args inner, rest)

def baseType : Parser TypeSig
  | [] => none
  | c :: rest => (BaseType.ofLetter? c).map fun b => (.base b, rest)

def typeVariable : Parser TypeSig :=
  mapResult (fun name => .variable (String.ofList name)) (before (after 'T' identifier) ';')

/-- A reference type, given a parser for the references inside it. -/
def referenceOver : Parser TypeSig :=
  orElse (mapResult TypeSig.object (classType ref)) <|
    orElse typeVariable (mapResult TypeSig.array (after '[' (orElse ref baseType)))

end Types

/-- A reference type with at most `depth` levels. -/
def referenceWithin : Nat → Parser TypeSig
  | 0 => fun _ => none
  | depth + 1 => referenceOver (referenceWithin depth)

section Levels

variable (depth : Nat)

def fieldType : Parser TypeSig := orElse (referenceWithin depth) baseType

def resultType : Parser TypeSig := orElse (fieldType depth) (mapResult (fun _ => .void) (char 'V'))

def typeParam : Parser TypeParam := fun s =>
  match before identifier ':' s with
  | none => none
  | some (name, rest) =>
    let (classBound, rest) := optional (referenceWithin depth) rest
    let (interfaceBounds, rest) := many (after ':' (referenceWithin depth)) rest
    some (⟨String.ofList name, classBound, interfaceBounds⟩, rest)

/-- Type parameters between angle brackets; none when they are not there. -/
def typeParams (s : List Char) : List TypeParam × List Char :=
  let (params, rest) := optional (before (after '<' (many1 (typeParam depth))) '>') s
  (params.getD [], rest)

def throwsType : Parser TypeSig :=
  orElse (mapResult TypeSig.object (classType (referenceWithin depth))) typeVariable

def methodSig : Parser MethodSig := fun s =>
  let (params, rest) := typeParams depth s
  match char '(' rest with
  | none => none
  | some (_, rest) =>
    let (args, rest) := many (fieldType depth) rest
    match after ')' (resultType depth) rest with
    | none => none
    | some (result, rest) =>
      let (throws, rest) := many (after '^' (throwsType depth)) rest
      some (⟨params, args, result, throws⟩, rest)

def classSig : Parser ClassSig := fun s =>
  let (params, rest) := typeParams depth s
  match classType (referenceWithin depth) rest with
  | none => none
  | some (superclass, rest) =>
    let (interfaces, rest) := many (classType (referenceWithin depth)) rest
    some (⟨params, superclass, interfaces⟩, rest)

end Levels

/-- Reads a whole text; every level of a type takes a character. -/
def readAll {α : Type} (p : Nat → Parser α) (text : String) : Option α :=
  match p text.toList.length text.toList with
  | some (a, []) => some a
  | _ => none

def TypeSig.parse? : String → Option TypeSig := readAll resultType

def MethodSig.parse? : String → Option MethodSig := readAll methodSig

def ClassSig.parse? : String → Option ClassSig := readAll classSig

/-- A valid signature parses and prints back unchanged. -/
def isFieldSignature (s : String) : Bool := (readAll fieldType s).any fun t => t.text == s

def isMethodSignature (s : String) : Bool := (MethodSig.parse? s).any fun m => m.text == s

def isClassSignature (s : String) : Bool := (ClassSig.parse? s).any fun c => c.text == s

end Restack.Signature
