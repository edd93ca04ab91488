/-
# References, handles and encoded values

References to members, method handles, and the values that a register program
stores as data: annotation elements, initial values of fields and arguments of
call sites all share one shape. Type names are kept as descriptors.
-/
import Restack.Decimal.Layout
import Restack.Text.Basic

namespace Restack.Register

open Text

structure FieldRef where
  owner : String
  name : String
  descriptor : String
deriving DecidableEq

structure MethodRef where
  owner : String
  name : String
  descriptor : String
deriving DecidableEq

/-- `owner->name:descriptor` -/
def FieldRef.text (f : FieldRef) : String := f.owner ++ "->" ++ f.name ++ ":" ++ f.descriptor

/-- `owner->name` followed by the descriptor. -/
def MethodRef.text (m : MethodRef) : String := m.owner ++ "->" ++ m.name ++ m.descriptor

inductive HandleKind where
  | staticPut
  | staticGet
  | instancePut
  | instanceGet
  | invokeStatic
  | invokeInstance
  | invokeConstructor
  | invokeDirect
  | invokeInterface
deriving DecidableEq

namespace HandleKind

def name : HandleKind → String
  | staticPut => "StaticPut"
  | staticGet => "StaticGet"
  | instancePut => "InstancePut"
  | instanceGet => "InstanceGet"
  | invokeStatic => "InvokeStatic"
  | invokeInstance => "InvokeInstance"
  | invokeConstructor => "InvokeConstructor"
  | invokeDirect => "InvokeDirect"
  | invokeInterface => "InvokeInterface"

/-- In the order of the stored codes, from zero. -/
def all : List HandleKind :=
  [staticPut, staticGet, instancePut, instanceGet,
    invokeStatic, invokeInstance, invokeConstructor, invokeDirect, invokeInterface]

def ofCode? (code : Nat) : Option HandleKind := all[code]?

def isFieldAccess : HandleKind → Bool
  | staticPut | staticGet | instancePut | instanceGet => true
  | _ => false

end HandleKind

inductive MemberRef where
  | field (ref : FieldRef)
  | method (ref : MethodRef)
deriving DecidableEq

def MemberRef.text : MemberRef → String
  | field ref => ref.text
  | method ref => ref.text

structure MethodHandle where
  kind : HandleKind
  member : MemberRef
deriving DecidableEq

/-- An encoded value. Floating point numbers are kept as bit patterns. -/
inductive Value where
  | byte (v : Int8)
  | short (v : Int16)
  | char (v : UInt16)
  | int (v : Int32)
  | long (v : Int64)
  | float (bits : UInt32)
  | double (bits : UInt64)
  | boolean (v : Bool)
  | string (s : String)
  | type (descriptor : String)
  | field (ref : FieldRef)
  | method (ref : MethodRef)
  | enumConstant (ref : FieldRef)
  | methodType (descriptor : String)
  | methodHandle (handle : MethodHandle)
  | array (items : List Value)
  | annotated (type : String) (elements : List (String × Value))
  | null

structure Annotation where
  type : String
  elements : List (String × Value)

def Annotation.element? (a : Annotation) (name : String) : Option Value :=
  (a.elements.find? fun e => e.1 == name).map (·.2)

inductive Visibility where
  | build
  | runtime
  | system
deriving DecidableEq

namespace Visibility

def name : Visibility → String
  | build => "Build"
  | runtime => "Runtime"
  | system => "System"

def all : List Visibility := [build, runtime, system]

end Visibility

/-- An annotation in place on a class, a field, a method or a parameter. -/
structure AttachedNote where
  visibility : Visibility
  body : Annotation

/-- A call site bound at run time by a bootstrap method. -/
structure CallSite where
  name : String
  descriptor : String
  bootstrap : MethodHandle
  arguments : List Value

namespace Value

def asString? : Value → Option String
  | string s => some s
  | _ => none

def asType? : Value → Option String
  | type d => some d
  | _ => none

/-- The value of the narrow integral kinds, widened. -/
def asInt? : Value → Option Int32
  | int v => some v
  | short v => some v.toInt32
  | byte v => some v.toInt32
  | char v => some (Int32.ofInt v.toNat)
  | _ => none

end Value

def FieldRef.term (f : FieldRef) : String :=
  recordTerm "FieldRef"
    [("owner", quoted f.owner), ("name", quoted f.name), ("descriptor", quoted f.descriptor)]

def MethodRef.term (m : MethodRef) : String :=
  recordTerm "MethodRef"
    [("owner", quoted m.owner), ("name", quoted m.name), ("descriptor", quoted m.descriptor)]

def MemberRef.term : MemberRef → String
  | field ref => callTerm "Field" [ref.term]
  | method ref => callTerm "Method" [ref.term]

def MethodHandle.term (h : MethodHandle) : String :=
  recordTerm "MethodHandle" [("kind", h.kind.name), ("member", h.member.term)]

mutual

def Value.term : Value → String
  | .byte v => callTerm "Byte" [toString v.toInt]
  | .short v => callTerm "Short" [toString v.toInt]
  | .char v => callTerm "Char" [toString v.toNat]
  | .int v => callTerm "Int" [toString v.toInt]
  | .long v => callTerm "Long" [toString v.toInt]
  | .float bits => callTerm "Float" [Decimal.Format.single.text bits.toNat]
  | .double bits => callTerm "Double" [Decimal.Format.double.text bits.toNat]
  | .boolean v => callTerm "Boolean" [boolTerm v]
  | .string s => callTerm "String" [quoted s]
  | .type d => callTerm "Type" [quoted d]
  | .field ref => callTerm "Field" [ref.term]
  | .method ref => callTerm "Method" [ref.term]
  | .enumConstant ref => callTerm "Enum" [ref.term]
  | .methodType d => callTerm "MethodType" [quoted d]
  | .methodHandle handle => callTerm "MethodHandle" [handle.term]
  | .array items => callTerm "Array" [listTerm (itemTerms items)]
  | .annotated type elements =>
    callTerm "Annotation" [recordTerm "DexAnnotation"
      [("type_desc", quoted type), ("elements", listTerm (elementTerms elements))]]
  | .null => "Null"

def itemTerms : List Value → List String
  | [] => []
  | v :: rest => v.term :: itemTerms rest

def elementTerms : List (String × Value) → List String
  | [] => []
  | (name, v) :: rest =>
    recordTerm "DexAnnotationElement" [("name", quoted name), ("value", v.term)] ::
      elementTerms rest

end

def CallSite.term (c : CallSite) : String :=
  recordTerm "CallSite"
    [("name", quoted c.name), ("descriptor", quoted c.descriptor), ("bootstrap", c.bootstrap.term),
      ("arguments", listTerm (c.arguments.map Value.term))]

end Restack.Register
