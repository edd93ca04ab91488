/-
# Texts

Hexadecimal numerals, lines, quoted text, the one-line text of structured data, and
the units and bytes in which class files store strings. A unit has sixteen bits, and a
character beyond them takes two. Each unit is stored in one to three bytes, and zero in
two, so that no zero byte occurs.
-/
import Restack.Text.CharClass

namespace Restack

/-- The sum of numbers: widths of parameters, lengths of texts, steps of a search. -/
def total : List Nat → Nat
  | [] => 0
  | n :: rest => n + total rest

@[simp] theorem total_nil : total [] = 0 := rfl

@[simp] theorem total_cons (n : Nat) (rest : List Nat) : total (n :: rest) = n + total rest := rfl

namespace Text

/-! ## Hexadecimal digits -/

def hexDigit (d : Nat) : Char :=
  if d < 10 then Char.ofNat (48 + d) else Char.ofNat (87 + d)

/-- The lowest `width` hexadecimal digits of `n`, most significant first. -/
def lowHex : Nat → Nat → List Char
  | 0, _ => []
  | width + 1, n => lowHex width (n / 16) ++ [hexDigit (n % 16)]

/-- The least number of hexadecimal digits that holds `n`, at least one. -/
def hexWidth (n : Nat) : Nat := n.log2 / 4 + 1

def hex (width n : Nat) : String := String.ofList (lowHex (max width (hexWidth n)) n)

/-! ## Lines

A newline ends a line, and a carriage return right in front of it belongs to the
end too. Text behind the last newline is a line of its own unless it is empty. -/

/-- The text of a line, given the characters in front of its newline from the
last to the first. -/
def endedLine : List Char → String
  | '\r' :: back => String.ofList back.reverse
  | back => String.ofList back.reverse

/-- Lines of what follows; `back` holds the characters of the line begun, from
the last to the first. -/
def linesFrom : List Char → List Char → List String
  | [], [] => []
  | back, [] => [String.ofList back.reverse]
  | back, c :: rest =>
    if c = '\n' then endedLine back :: linesFrom [] rest else linesFrom (c :: back) rest

def lines (s : String) : List String := linesFrom [] s.toList

/-! ## Quoted text

Text between double quotes on one line. The quote, the backslash and the four
common controls are written with a backslash and a letter; any other character
that would not show by itself is written by its code point. -/

def quotedChar (c : Char) : List Char :=
  if c = '"' then ['\\', '"']
  else if c = '\\' then ['\\', '\\']
  else if c = '\n' then ['\\', 'n']
  else if c = '\r' then ['\\', 'r']
  else if c = '\t' then ['\\', 't']
  else if c.toNat = 0 then ['\\', '0']
  else if isConcealed c then "\\u\x7b".toList ++ lowHex (hexWidth c.toNat) c.toNat ++ ['\x7d']
  else [c]

def quoted (s : String) : String :=
  String.ofList ('"' :: s.toList.flatMap quotedChar ++ ['"'])

/-! ## Terms

A constructor with named or positional parts, a list, and an optional part. -/

def commas (parts : List String) : String := String.intercalate ", " parts

def recordTerm (name : String) (parts : List (String × String)) : String :=
  name ++ " \x7b " ++ commas (parts.map fun part => part.1 ++ ": " ++ part.2) ++ " \x7d"

def callTerm (name : String) (parts : List String) : String := name ++ "(" ++ commas parts ++ ")"

def listTerm (parts : List String) : String := "[" ++ commas parts ++ "]"

def optionTerm : Option String → String
  | none => "None"
  | some part => callTerm "Some" [part]

def boolTerm (b : Bool) : String := if b then "true" else "false"

/-! ## Units and bytes -/

/-- The units of a character: itself or a surrogate pair. -/
def charUnits (c : Char) : List Nat :=
  let n := c.toNat
  if n < 0x10000 then [n]
  else [0xd800 + (n - 0x10000) / 0x400, 0xdc00 + (n - 0x10000) % 0x400]

def units (s : String) : List Nat := s.toList.flatMap charUnits

/-- Bytes that store a unit. -/
def unitLength (u : Nat) : Nat :=
  if u = 0 then 2 else if u < 0x80 then 1 else if u < 0x800 then 2 else 3

/-- Bytes that store a string. -/
def modifiedLength (s : String) : Nat :=
  s.toList.foldl (fun n c => n + total ((charUnits c).map unitLength)) 0

/-- The most bytes that a string constant of a class file can take. -/
def maxConstantLength : Nat := 65535

end Text

end Restack
