/-
# Values of the class file

Method handles, loadable constants and annotations on the stack machine's side.
Floating point numbers are bit patterns, and owners are internal names.
-/
import Restack.Text.Basic

namespace Restack.Stack

open Text

structure Handle where
  tag : UInt8
  owner : String
  name : String
  descriptor : String
  isInterface : Bool
deriving DecidableEq

def Handle.term (h : Handle) : String :=
  recordTerm "Handle"
    [("tag", toString h.tag.toNat), ("owner", quoted h.owner), ("name", quoted h.name),
      ("descriptor", quoted h.descriptor), ("is_interface", boolTerm h.isInterface)]

def tagGetField : UInt8 := 1
def tagGetStatic : UInt8 := 2
def tagPutField : UInt8 := 3
def tagPutStatic : UInt8 := 4
def tagInvokeVirtual : UInt8 := 5
def tagInvokeStatic : UInt8 := 6
def tagInvokeSpecial : UInt8 := 7
def tagNewInvokeSpecial : UInt8 := 8
def tagInvokeInterface : UInt8 := 9

/-- A constant that an instruction, a field or an annotation can hold. -/
inductive Constant where
  | boolean (v : Bool)
  | byte (v : Int8)
  | short (v : Int16)
  | char (v : UInt16)
  | int (v : Int32)
  | long (v : Int64)
  | float (bits : UInt32)
  | double (bits : UInt64)
  | string (s : String)
  | type (descriptor : String)
  | methodType (descriptor : String)
  | handle (h : Handle)
deriving DecidableEq

inductive AnnotationValue where
  | const (c : Constant)
  | enumConstant (descriptor name : String)
  | nested (descriptor : String) (visible : Bool) (values : List (String × AnnotationValue))
  | array (items : List AnnotationValue)

/-- An annotation of the class file; `visible` tells whether it can be seen at run time. -/
structure Annotation where
  descriptor : String
  visible : Bool
  values : List (String × AnnotationValue)

end Restack.Stack
