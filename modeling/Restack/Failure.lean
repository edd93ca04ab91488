/-
# Failures

Why a conversion gives up. A failure has a cause, the places it happened in,
innermost first, and the stage that raised it. A few causes abort: they end the
conversion of the whole program instead of one method.
-/
import Restack.Ir.Listing

namespace Restack

open Ir (BlockId Local Expr)
open Text (quoted hex)

inductive Cause where
  /-- A cause in the caller's own words. -/
  | stated (text : String)
  | malformedSignature (text : String)
  | notTypeDescriptor (text : String)
  | notMethodDescriptor (text : String)
  | unknownHandleCode (code : Nat)
  | handleMismatch (kind : Register.HandleKind) (member : Register.MemberRef)
  | emptyBody
  | unknownLabel (label : Register.Label)
  | danglingLabel (label : Register.Label)
  | tooManyParameters (needed available : Nat)
  | strayResult (position : Nat)
  | missingReceiver (descriptor : String)
  | missingArguments (descriptor : String)
  | fallsOffEnd
  | remainingPhis (block : BlockId)
  | parameterRange (index : Nat)
  | missingBlock (block : BlockId)
  | unknownTarget (block : BlockId)
  | missingSlot (of : Local)
  | longString (bytes : Nat)
  | strayException
  | unevaluable (expr : Expr)
  | orderedReferences (test : Register.Test)
  | unfillableArray (element : String)
  | tooManyDimensions (count : Nat) (type : String)
  | bootstrapArgument (value : Register.Value)
  | voidReturnsValue
  | indivisibleArrayType (type : String)
  | parameterOverflow
  | slotOverflow

namespace Cause

def message : Cause → String
  | stated text => text
  | malformedSignature text => "malformed signature " ++ quoted text
  | notTypeDescriptor text => "not a type descriptor: " ++ text
  | notMethodDescriptor text => "not a method descriptor: " ++ text
  | unknownHandleCode code => "unknown method handle type 0x" ++ hex 2 code
  | handleMismatch kind member => "method handle " ++ kind.name ++ " cannot refer to " ++ member.text
  | emptyBody => "method body has no instructions"
  | unknownLabel label => "unknown label " ++ label.text
  | danglingLabel label => "label " ++ label.text ++ " does not start an instruction"
  | tooManyParameters needed available =>
    toString needed ++ " parameter registers do not fit in " ++ toString available ++ " registers"
  | strayResult position => "move-result at " ++ toString position ++ " does not follow a call"
  | missingReceiver descriptor => "call to " ++ descriptor ++ " has no receiver register"
  | missingArguments descriptor => "call to " ++ descriptor ++ " passes too few registers"
  | fallsOffEnd => "execution falls off the end of the code"
  | remainingPhis block => "block " ++ block.text ++ " still has phis"
  | parameterRange index => "parameter " ++ toString index ++ " out of range"
  | missingBlock block => "block " ++ block.text ++ " is in the layout but missing"
  | unknownTarget block => "jump to unknown block " ++ block.text
  | missingSlot l => "no slot for " ++ l.text
  | longString bytes =>
    "string constant of " ++ toString bytes ++ " bytes exceeds the constant pool limit"
  | strayException => "exception read outside a handler entry"
  | unevaluable expr => expr.term ++ " cannot be evaluated here"
  | orderedReferences test => "reference comparison with " ++ test.mnemonic
  | unfillableArray element => "cannot fill an array of " ++ element
  | tooManyDimensions count type => toString count ++ " dimensions for " ++ type
  | bootstrapArgument value => "unsupported bootstrap argument " ++ value.term
  | voidReturnsValue => "value returned from a void method"
  | indivisibleArrayType type => "array type " ++ quoted type ++ " has no element part"
  | parameterOverflow => "parameter registers cannot be counted"
  | slotOverflow => "slots cannot be numbered"

def aborts : Cause → Bool
  | indivisibleArrayType _ | parameterOverflow | slotOverflow => true
  | _ => false

end Cause

structure Failure where
  cause : Cause
  stage : Option String := none
  places : List String := []

namespace Failure

def ofCause (cause : Cause) : Failure := { cause }

def within (f : Failure) (place : String) : Failure := { f with places := f.places ++ [place] }

/-- Records the stage that failed; one already recorded stays. -/
def inStage (f : Failure) (stage : String) : Failure :=
  { f with stage := some (f.stage.getD stage) }

/-- The text `cause for place of place (in stage)`. -/
def message (f : Failure) : String :=
  let places := match f.places with
    | [] => ""
    | first :: rest => " for " ++ first ++ String.join (rest.map (" of " ++ ·))
  let stage := match f.stage with
    | none => ""
    | some stage => " (in " ++ stage ++ ")"
  f.cause.message ++ places ++ stage

def aborts (f : Failure) : Bool := f.cause.aborts

end Failure

def fail {α : Type} (cause : Cause) : Except Failure α := .error (.ofCause cause)

def Register.HandleKind.ofCode (code : Nat) : Except Failure Register.HandleKind :=
  match Register.HandleKind.ofCode? code with
  | some kind => .ok kind
  | none => fail (.unknownHandleCode code)

end Restack
