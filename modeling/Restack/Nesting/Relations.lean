/-
# Who encloses whom

The nesting of all classes of a program, gathered from the annotations of each.
Classes are numbered in order of first mention. A class may be given several
enclosing classes: the last one counts, but each of them lists it as an inner
class. Nothing keeps the relation free of cycles.
-/
import Restack.Access
import Restack.Register.Metadata

namespace Restack.Nesting

open Register (MethodRef Program)

abbrev ClassId := Nat

structure Entry where
  /-- Descriptor of the class. -/
  name : String
  access : UInt32 := 0
  enclosing : Option ClassId := none
  enclosingMethod : Option MethodRef := none
  /-- Absent for an anonymous class. -/
  innerName : Option String := none
  /-- Whether the class describes itself as an inner class. -/
  hasItem : Bool := false
  /-- Inner classes, ascending. -/
  inners : List ClassId := []

/-- Declared inside another class or a method body. -/
def Entry.isInner (e : Entry) : Bool := e.enclosing.isSome || e.enclosingMethod.isSome

def insertAscending (n : Nat) : List Nat → List Nat
  | [] => [n]
  | k :: rest => if n < k then n :: k :: rest else if n = k then k :: rest else k :: insertAscending n rest

/-- The entry of class number `i` at position `i`. -/
structure Relations where
  entries : Array Entry

namespace Relations

def empty : Relations := ⟨#[]⟩

def find? (r : Relations) (name : String) : Option ClassId := r.entries.findIdx? (·.name == name)

def entry? (r : Relations) (id : ClassId) : Option Entry := r.entries[id]?

def lookup? (r : Relations) (name : String) : Option Entry := r.entries.find? (·.name == name)

def nameOf (r : Relations) (id : ClassId) : String := (r.entry? id).elim "" (·.name)

def modify (r : Relations) (id : ClassId) (f : Entry → Entry) : Relations :=
  ⟨r.entries.modify id f⟩

/-- The number of a class, given to it if it has none. -/
def number (r : Relations) (name : String) : ClassId × Relations :=
  match r.find? name with
  | some id => (id, r)
  | none => (r.entries.size, ⟨r.entries.push { name }⟩)

/-- Puts a class inside another; one cannot be inside itself. -/
def link (r : Relations) (inner outer : ClassId) : Relations :=
  if inner = outer then r
  else
    (r.modify inner fun e => { e with enclosing := some outer }).modify outer fun e =>
      { e with inners := insertAscending inner e.inners }

def addAccess (r : Relations) (id : ClassId) (c : Register.Class) : Relations :=
  r.modify id fun e => { e with access := Access.Flags.without e.access Access.kindFlags ||| c.access }

def addEnclosingClass (r : Relations) (id : ClassId) (c : Register.Class) : Relations :=
  match c.enclosingClass? with
  | some name =>
    let (outer, r) := r.number name
    r.link id outer
  | none => r

def addEnclosingMethod (r : Relations) (id : ClassId) (c : Register.Class) : Relations :=
  match c.enclosingMethod? with
  | some method =>
    let (outer, r) := r.number method.owner
    if id = outer then r
    else (r.link id outer).modify id fun e => { e with enclosingMethod := some method }
  | none => r

def addItem (r : Relations) (id : ClassId) (c : Register.Class) : Relations :=
  match c.innerClass? with
  | some item => r.modify id fun e => { e with
      access := e.access ||| Access.Flags.without item.access Access.kindFlags
      innerName := item.name
      hasItem := true }
  | none => r

def addMember (id : ClassId) (r : Relations) (name : String) : Relations :=
  let (inner, r) := r.number name
  r.link inner id

def addClass (r : Relations) (c : Register.Class) : Relations :=
  let (id, r) := r.number c.name
  let r := r.addAccess id c
  let r := r.addEnclosingClass id c
  let r := r.addEnclosingMethod id c
  let r := r.addItem id c
  c.memberClasses.foldl (addMember id) r

def ofProgram (p : Program) : Relations := p.classes.foldl addClass empty

end Relations

end Restack.Nesting
