/-
# Type, method and class signatures

Types with their generic arguments as trees, and their two texts: the compact
form of the class file, in which a tree and its text determine each other, and
the form used in source code. A list of type arguments is written only when it
is not empty.
-/
import Restack.Text.Basic

namespace Restack.Signature

inductive BaseType where
  | boolean
  | byte
  | char
  | short
  | int
  | long
  | float
  | double
deriving DecidableEq

mutual

inductive TypeSig where
  | array (element : TypeSig)
  | object (type : ClassType)
  | base (type : BaseType)
  | void
  | variable (name : String)

/-- A class with its arguments, and the inner classes selected after it. -/
inductive ClassType where
  | mk (name : String) (args : List TypeArg) (inner : List (String × List TypeArg))

inductive TypeArg where
  | any
  | upper (bound : TypeSig)
  | lower (bound : TypeSig)
  | plain (type : TypeSig)

end

/-- A type parameter with its bounds; the class bound may be left out. -/
structure TypeParam where
  name : String
  classBound : Option TypeSig
  interfaceBounds : List TypeSig

structure MethodSig where
  typeParams : List TypeParam
  args : List TypeSig
  result : TypeSig
  throws : List TypeSig

structure ClassSig where
  typeParams : List TypeParam
  superclass : ClassType
  interfaces : List ClassType

namespace BaseType

def letter : BaseType → Char
  | boolean => 'Z'
  | byte => 'B'
  | char => 'C'
  | short => 'S'
  | int => 'I'
  | long => 'J'
  | float => 'F'
  | double => 'D'

def keyword : BaseType → String
  | boolean => "boolean"
  | byte => "byte"
  | char => "char"
  | short => "short"
  | int => "int"
  | long => "long"
  | float => "float"
  | double => "double"

def all : List BaseType := [boolean, byte, char, short, int, long, float, double]

def ofLetter? (c : Char) : Option BaseType := all.find? (·.letter == c)

end BaseType

namespace ClassType

def name : ClassType → String
  | mk name _ _ => name

def args : ClassType → List TypeArg
  | mk _ args _ => args

def inner : ClassType → List (String × List TypeArg)
  | mk _ _ inner => inner

/-- A class without generic information. -/
def isPlain (c : ClassType) : Bool := c.args.isEmpty && c.inner.isEmpty

def replaceChar (s : String) (old new : Char) : String :=
  String.ofList (s.toList.map fun c => if c = old then new else c)

def ofDotted (s : String) : ClassType := mk (replaceChar s '.' '/') [] []

def dotted (c : ClassType) : String := replaceChar c.name '/' '.'

end ClassType

/-- Arguments between angle brackets, nothing when there are none. -/
def bracketed (args : List Char) : List Char :=
  if args.isEmpty then [] else '<' :: args ++ ['>']

mutual

def TypeSig.chars : TypeSig → List Char
  | .array element => '[' :: element.chars
  | .object type => type.chars
  | .base type => [type.letter]
  | .void => ['V']
  | .variable name => 'T' :: name.toList ++ [';']

def ClassType.chars : ClassType → List Char
  | .mk name args inner =>
    'L' :: name.toList ++ bracketed (argsChars args) ++ innerChars inner ++ [';']

def TypeArg.chars : TypeArg → List Char
  | .any => ['*']
  | .upper bound => '+' :: bound.chars
  | .lower bound => '-' :: bound.chars
  | .plain type => type.chars

def argsChars : List TypeArg → List Char
  | [] => []
  | arg :: rest => arg.chars ++ argsChars rest

def innerChars : List (String × List TypeArg) → List Char
  | [] => []
  | (name, args) :: rest => '.' :: name.toList ++ bracketed (argsChars args) ++ innerChars rest

end

def TypeParam.chars (p : TypeParam) : List Char :=
  p.name.toList ++ ':' :: (p.classBound.elim [] TypeSig.chars) ++
    p.interfaceBounds.flatMap fun b => ':' :: b.chars

def paramsChars (ps : List TypeParam) : List Char := bracketed (ps.flatMap TypeParam.chars)

def MethodSig.chars (m : MethodSig) : List Char :=
  paramsChars m.typeParams ++ '(' :: m.args.flatMap TypeSig.chars ++ ')' :: m.result.chars ++
    m.throws.flatMap fun t => '^' :: t.chars

def ClassSig.chars (c : ClassSig) : List Char :=
  paramsChars c.typeParams ++ c.superclass.chars ++ c.interfaces.flatMap ClassType.chars

def TypeSig.text (t : TypeSig) : String := String.ofList t.chars

def ClassType.text (c : ClassType) : String := String.ofList c.chars

def MethodSig.text (m : MethodSig) : String := String.ofList m.chars

def ClassSig.text (c : ClassSig) : String := String.ofList c.chars

/-- The type as source code writes it, without generic information. -/
def TypeSig.sourceText : TypeSig → String
  | .array element => element.sourceText ++ "[]"
  | .object type => type.dotted
  | .base type => type.keyword
  | .void => "void"
  | .variable name => name

/-- Takes two registers or slots. -/
def TypeSig.isWide : TypeSig → Bool
  | .base .long | .base .double => true
  | _ => false

def TypeSig.isReference : TypeSig → Bool
  | .array _ | .object _ | .variable _ => true
  | _ => false

/-- Carries no generic information. -/
def TypeSig.isDescriptor : TypeSig → Bool
  | .array element => element.isDescriptor
  | .object type => type.isPlain
  | .variable _ => false
  | _ => true

/-- Registers the arguments take, the receiver left out. -/
def MethodSig.argSlots (m : MethodSig) : Nat :=
  total (m.args.map fun a => if a.isWide then 2 else 1)

end Restack.Signature
