/-
# Rebuilding long strings

A string operand too long for the constant pool is replaced by a call to a
decoder on an array of its pieces, just in front of the statement that reads it. A
piece is hexadecimal text, four digits for each unit, of at most a given length and
at least one unit.
The class then gets its own copies of the template's methods, under names that
begin with a stem made from the tag of the class.
-/
import Restack.Access
import Restack.Ir.Graph
import Restack.LongString.Template
import Restack.Stack.ClassFile

namespace Restack.LongString

open Ir
open Stack (Body Instruction MethodHeader)

/-! ## Strings in pieces -/

/-- Cuts a list into pieces of `n` items; the last one may be shorter. -/
def pieces {α : Type} (n : Nat) (xs : List α) : List (List α) :=
  let a := xs.toArray
  (List.range ((a.size + n - 1) / n)).map fun i => (a.extract (i * n) (i * n + n)).toList

/-- Units in a piece of at most `maxLength` digits. -/
def unitsPerChunk (maxLength : Nat) : Nat := max (maxLength / 4) 1

def hexChunks (s : String) (maxLength : Nat) : List String :=
  (pieces (unitsPerChunk maxLength) (Text.units s)).map fun piece =>
    String.ofList (piece.flatMap (Text.lowHex 4))

/-! ## Helpers -/

structure ClassHelpers where
  /-- Internal name of the class. -/
  className : String
  template : Option Template
  tag : UInt32
  /-- Whether some method calls the decoder. -/
  used : Bool

namespace ClassHelpers

def ofClass (className : String) (source : TemplateSource) (tag : UInt32) : ClassHelpers :=
  ⟨className, source decoderTemplate, tag, false⟩

def isEnabled (h : ClassHelpers) : Bool := h.template.isSome

def stem (h : ClassHelpers) : String := "$dexjvm$hex$" ++ Text.hex 8 h.tag.toNat

def helperName (h : ClassHelpers) (name : String) : String := h.stem ++ "$" ++ name

end ClassHelpers

def stringArray : String := "[Ljava/lang/String;"

def longString? (limit : Nat) : Value → Option String
  | .const (.string s) => if Text.modifiedLength s > limit then some s else none
  | _ => none

def freshTyped (m : Method) (t : Ty) : Local × Method :=
  let (l, m) := m.freshLocal
  (l, { m with locals := m.locals.setIfInBounds l.index t })

/-- Replaces the long strings of a list of operands; gives the statements that
rebuild them. -/
def rebuildValues (decoder : Register.MethodRef) (limit : Nat) :
    Method → List Value → List Stmt × List Value × Method
  | m, [] => ([], [], m)
  | m, v :: rest =>
    match longString? limit v with
    | none =>
      let (stmts, vs, m) := rebuildValues decoder limit m rest
      (stmts, v :: vs, m)
    | some s =>
      let (parts, m) := freshTyped m (.ref stringArray)
      let (decoded, m) := freshTyped m (.ref "Ljava/lang/String;")
      let chunks := (hexChunks s limit).map fun c => Value.const (.string c)
      let (stmts, vs, m) := rebuildValues decoder limit m rest
      (.assign parts (.filledArray stringArray chunks) ::
        .assign decoded (.invoke .static decoder [.var parts]) :: stmts, .var decoded :: vs, m)

def rebuildStmts (decoder : Register.MethodRef) (limit : Nat) :
    Method → List Stmt → List Stmt × Method
  | m, [] => ([], m)
  | m, s :: rest =>
    let (stmts, vs, m) := rebuildValues decoder limit m s.values
    let (later, m) := rebuildStmts decoder limit m rest
    (stmts ++ s.withValues vs :: later, m)

def rebuildBlock (decoder : Register.MethodRef) (limit : Nat) (m : Method) (b : BlockId) : Method :=
  match m.block? b with
  | none => m
  | some block =>
    let (stmts, m) := rebuildStmts decoder limit m block.stmts
    let (last, vs, m) := rebuildValues decoder limit m block.terminator.values
    m.setBlock b { block with
      stmts := stmts ++ last
      terminator := block.terminator.withValues vs }

def hasLongString (m : Method) (limit : Nat) : Bool :=
  m.blockList.any fun block =>
    (block.stmts.flatMap Stmt.values ++ block.terminator.values).any fun v =>
      (longString? limit v).isSome

namespace ClassHelpers

/-- Replaces every long string of a method by a call; tells whether there was
one. Without a template the method stays as it is. -/
def rebuildStrings (h : ClassHelpers) (m : Method) (limit : Nat) : ClassHelpers × Method × Bool :=
  if hasLongString m limit && h.isEnabled then
    let decoder : Register.MethodRef :=
      ⟨m.owner, h.helperName decodeString, decodeStringDescriptor⟩
    ({ h with used := true }, m.layout.foldl (rebuildBlock decoder limit) m, true)
  else (h, m, false)

/-- Turns calls into the placeholder class to calls into this one. -/
def relocate (h : ClassHelpers) (t : Template) : Instruction → Instruction
  | .method op owner name descriptor isInterface =>
    if owner = t.owner then
      let renamed := if t.methods.any (·.name == name) then h.helperName name else name
      .method op h.className renamed descriptor isInterface
    else .method op owner name descriptor isInterface
  | i => i

def copyMethod (h : ClassHelpers) (t : Template) (m : TemplateMethod) : MethodHeader × Body :=
  ({ access := Access.privateFlag ||| Access.staticFlag
     name := h.helperName m.name
     descriptor := m.descriptor
     signature := none
     exceptions := [] }, { m.code with instructions := m.code.instructions.map (h.relocate t) })

/-- The methods to append to the class; none unless one of its methods calls
the decoder. -/
def methods (h : ClassHelpers) : List (MethodHeader × Body) :=
  match h.template with
  | some t => if h.used then t.methods.map (h.copyMethod t) else []
  | none => []

end ClassHelpers

end Restack.LongString
