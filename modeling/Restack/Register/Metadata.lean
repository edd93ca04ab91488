/-
# Metadata kept in system annotations

Generic signatures, declared exceptions, nesting and element defaults are
stored as annotations that only the system sees. The first annotation of a type
counts, and in it the first element of a name. Anything malformed reads as
absent.
-/
import Restack.Register.Program
import Restack.Signature.Descriptor

namespace Restack.Register

open Signature (internalName)

def system? (notes : List AttachedNote) (type : String) : Option Annotation :=
  (notes.find? fun n => n.visibility == .system && n.body.type == type).map (·.body)

def systemValue? (notes : List AttachedNote) (type : String) : Option Value :=
  match system? notes type with
  | some a => a.element? "value"
  | none => none

/-- The generic signature, whose pieces are joined; all of them must be strings. -/
def signature? (notes : List AttachedNote) : Option String :=
  match systemValue? notes "Ldalvik/annotation/Signature;" with
  | some (.array parts) => (parts.mapM Value.asString?).map String.join
  | some (.string s) => some s
  | _ => none

def throws (notes : List AttachedNote) : List String :=
  match systemValue? notes "Ldalvik/annotation/Throws;" with
  | some (.array types) => (types.filterMap Value.asType?).map internalName
  | _ => []

/-- What an inner class says of itself; an anonymous class has no name. -/
structure InnerClassItem where
  name : Option String
  access : UInt32

namespace Class

def enclosingClass? (c : Class) : Option String :=
  match systemValue? c.annotations "Ldalvik/annotation/EnclosingClass;" with
  | some (.type d) => some d
  | _ => none

def enclosingMethod? (c : Class) : Option MethodRef :=
  match systemValue? c.annotations "Ldalvik/annotation/EnclosingMethod;" with
  | some (.method ref) => some ref
  | _ => none

def innerClass? (c : Class) : Option InnerClassItem :=
  (system? c.annotations "Ldalvik/annotation/InnerClass;").map fun a =>
    { name := match a.element? "name" with
        | some (.string s) => some s
        | _ => none
      access := match a.element? "accessFlags" with
        | some v => (v.asInt?.getD 0).toUInt32
        | none => 0 }

def memberClasses (c : Class) : List String :=
  match systemValue? c.annotations "Ldalvik/annotation/MemberClasses;" with
  | some (.array types) => types.filterMap Value.asType?
  | _ => []

def annotationDefault? (c : Class) (element : String) : Option Value :=
  match systemValue? c.annotations "Ldalvik/annotation/AnnotationDefault;" with
  | some (.annotated type elements) => ({ type, elements : Annotation }).element? element
  | _ => none

end Class

end Restack.Register
