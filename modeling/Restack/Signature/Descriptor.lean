/-
# Descriptors

A descriptor is a signature without generic information. Reading one tells
malformed text from a signature that says too much. A class descriptor and its
internal name differ by the letter in front and the semicolon at the end.
-/
import Restack.Failure
import Restack.Signature.Parser

namespace Restack.Signature

def orMalformed {α : Type} (text : String) : Option α → Except Failure α
  | some a => .ok a
  | none => fail (.malformedSignature text)

def TypeSig.parse (text : String) : Except Failure TypeSig := orMalformed text (TypeSig.parse? text)

def MethodSig.parse (text : String) : Except Failure MethodSig :=
  orMalformed text (MethodSig.parse? text)

def ClassSig.parse (text : String) : Except Failure ClassSig :=
  orMalformed text (ClassSig.parse? text)

def MethodSig.isDescriptor (m : MethodSig) : Bool :=
  m.typeParams.isEmpty && m.throws.isEmpty && m.args.all TypeSig.isDescriptor &&
    m.result.isDescriptor

def typeDescriptor (text : String) : Except Failure TypeSig := do
  let t ← TypeSig.parse text
  if t.isDescriptor then .ok t else fail (.notTypeDescriptor text)

def methodDescriptor (text : String) : Except Failure MethodSig := do
  let m ← MethodSig.parse text
  if m.isDescriptor then .ok m else fail (.notMethodDescriptor text)

/-- `Lcom/a/B;` becomes `com/a/B`; array and primitive descriptors are kept. -/
def internalName (descriptor : String) : String :=
  match descriptor.toList with
  | 'L' :: rest => if rest.getLast? = some ';' then String.ofList rest.dropLast else descriptor
  | _ => descriptor

/-- The descriptor of an internal name; array descriptors are kept. -/
def descriptorOf (internal : String) : String :=
  if internal.toList.head? = some '[' then internal else "L" ++ internal ++ ";"

end Restack.Signature
