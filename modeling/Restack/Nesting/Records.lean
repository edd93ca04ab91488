/-
# Nesting attributes of a class

A class lists the nesting of every class it is involved with: the classes
inside it, itself and the classes around it, and its super types where those are
nested. A record whose inner name cannot be a name has neither inner nor outer
name. A class in a method body that does not describe itself as an inner class is
a compiler's closure and stays at top level.
-/
import Restack.Nesting.Relations
import Restack.Stack.ClassFile

namespace Restack.Nesting

open Signature (internalName)
open Stack (InnerClass OuterClass)

def recordOf (r : Relations) (inner outer : ClassId) : List InnerClass :=
  match r.entry? inner with
  | none => []
  | some e =>
    [{ name := internalName e.name
       outerName := e.innerName.map fun _ => internalName (r.nameOf outer)
       innerName := e.innerName
       access := Access.ofInner e.access }]

def innersOf (r : Relations) (id : ClassId) : List ClassId := (r.entry? id).elim [] (·.inners)

/-- Goes down from a stack of classes, the next one first; each step takes one
off it. -/
def inside (r : Relations) (start : ClassId) : Nat → List ClassId → List ClassId → List InnerClass
  | 0, _, _ => []
  | _ + 1, [], _ => []
  | fuel + 1, id :: stack, seen =>
    if seen.contains id then inside r start fuel stack seen
    else
      let inners := innersOf r id
      (inners.filter (· != start)).flatMap (recordOf r · id) ++
        inside r start fuel (inners.reverse ++ stack) (id :: seen)

/-- Records of the classes at any depth inside a class. -/
def recordsInside (r : Relations) (start : ClassId) : List InnerClass :=
  let fuel := 2 + total (r.entries.toList.map fun e => e.inners.length)
  inside r start fuel [start] []

/-- Goes outwards from a class until the chain ends, repeats or comes back to
its start. -/
def around (r : Relations) (start : ClassId) : Nat → List ClassId → ClassId → List InnerClass
  | 0, _, _ => []
  | fuel + 1, seen, id =>
    if seen.contains id then []
    else match (r.entry? id).bind (·.enclosing) with
      | none => []
      | some outer =>
        if outer = start then []
        else recordOf r id outer ++ around r start fuel (id :: seen) outer

/-- Records of a class and of the classes around it that are enclosed. -/
def recordsAround (r : Relations) (start : ClassId) : List InnerClass :=
  around r start (r.entries.size + 1) [] start

/-- What stands in front of and behind the last dollar sign. -/
def splitAtDollar? (name : String) : Option (String × String) :=
  let reversed := name.toList.reverse
  match reversed.dropWhile (· != '$') with
  | [] => none
  | _ :: front =>
    some (String.ofList front.reverse, String.ofList (reversed.takeWhile (· != '$')).reverse)

/-- The nesting of a super type, read off the program if it is known there and
otherwise off its name. -/
def recordsOfSuper (r : Relations) (isInterface : Bool) (descriptor : String) : List InnerClass :=
  match r.find? descriptor with
  | some id => match (r.entry? id).bind (·.enclosing) with
    | some outer => recordOf r id outer
    | none => []
  | none =>
    let name := internalName descriptor
    match splitAtDollar? name with
    | none => []
    | some (outer, inner) =>
      let access := Access.publicFlag ||| Access.staticFlag ||| Access.abstractFlag
      [{ name
         outerName := some outer
         innerName := some inner
         access := if isInterface then access ||| Access.interfaceFlag else access }]

def recordsOfSupers (r : Relations) (c : Register.Class) : List InnerClass :=
  let superclass := c.superclass.toList.filter fun d => d != "Ljava/lang/Object;" && d != c.name
  superclass.flatMap (recordsOfSuper r false) ++
    (c.interfaces.filter (· != c.name)).flatMap (recordsOfSuper r true)

/-- Whether a text can be an inner name; a digit may come first. -/
def isInnerName (s : String) : Bool :=
  match s.toList with
  | [] => false
  | _ :: rest => rest.all fun c => Text.isAlphanumeric c || c == '$' || c == '_'

/-- Drops both names of a record whose inner name is none. -/
def demoted (record : InnerClass) : InnerClass :=
  if record.innerName.any (!isInnerName ·) then { record with outerName := none, innerName := none }
  else record

def firstOfEach (records : List InnerClass) : List InnerClass :=
  records.foldl (fun kept x => if kept.any (·.name == x.name) then kept else kept ++ [x]) []

/-- The enclosing method or else the enclosing class. -/
def outerOf (r : Relations) (e : Entry) : Option OuterClass :=
  match e.enclosingMethod with
  | some m => some ⟨internalName m.owner, some m.name, some m.descriptor⟩
  | none => e.enclosing.map fun outer => ⟨internalName (r.nameOf outer), none, none⟩

structure Nest where
  records : List InnerClass
  outer : Option OuterClass

/-- In a method body, without a description of its own. -/
def Entry.isClosure (e : Entry) : Bool := e.enclosingMethod.isSome && !e.hasItem

/-- Records of the classes inside and around a class, and its outer class. -/
def ownNest (r : Relations) (c : Register.Class) : Nest :=
  match r.find? c.name with
  | none => ⟨[], none⟩
  | some id => match r.entry? id with
    | none => ⟨[], none⟩
    | some e =>
      if e.isClosure then ⟨[], none⟩
      else if e.isInner then
        ⟨recordsInside r id ++ recordsAround r id, if e.innerName.isNone then outerOf r e else none⟩
      else ⟨recordsInside r id, none⟩

def nestOf (r : Relations) (c : Register.Class) : Nest :=
  let own := ownNest r c
  let records := firstOfEach (own.records ++ recordsOfSupers r c)
  ⟨(records.mergeSort fun a b => !(b.name < a.name)).map demoted, own.outer⟩

end Restack.Nesting
