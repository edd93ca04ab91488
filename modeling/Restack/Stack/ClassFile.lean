/-
# Class files

The structure of a converted class: header, nesting attributes, annotations,
fields, methods and bodies. A class is recorded piece by piece, and a collector
keeps the classes it handed out, in order, refusing the names it was told to.
-/
import Restack.Stack.Instruction

namespace Restack.Stack

structure ClassHeader where
  version : Nat
  access : UInt32
  name : String
  signature : Option String
  superName : Option String
  interfaces : List String
  sourceFile : Option String

structure InnerClass where
  name : String
  outerName : Option String
  innerName : Option String
  access : UInt32

structure OuterClass where
  owner : String
  methodName : Option String
  methodDescriptor : Option String

structure Field where
  access : UInt32
  name : String
  descriptor : String
  signature : Option String
  value : Option Constant
  annotations : List Annotation

structure MethodHeader where
  access : UInt32
  name : String
  descriptor : String
  signature : Option String
  exceptions : List String

structure Method where
  header : MethodHeader
  annotationDefault : Option AnnotationValue := none
  annotations : List Annotation := []
  /-- Parameter position and annotation. -/
  parameterAnnotations : List (Nat × Annotation) := []
  code : Option Body := none
  closed : Bool := false

structure ClassFile where
  header : Option ClassHeader := none
  innerClasses : List InnerClass := []
  outerClass : Option OuterClass := none
  annotations : List Annotation := []
  fields : List Field := []
  methods : List Method := []
  closed : Bool := false

namespace Method

def opcodes (m : Method) : List Opcode := (m.code.map Body.opcodes).getD []

def beginCode (m : Method) : Method := { m with code := some .empty }

def addTryCatch (m : Method) (t : TryCatch) : Method :=
  let body := m.code.getD .empty
  { m with code := some { body with tryCatches := body.tryCatches ++ [t] } }

def addInstruction (m : Method) (i : Instruction) : Method :=
  let body := m.code.getD .empty
  { m with code := some { body with instructions := body.instructions ++ [i] } }

def addCode (m : Method) (body : Body) : Method := { m with code := some body }

end Method

namespace ClassFile

def name? (c : ClassFile) : Option String := c.header.map (·.name)

def field? (c : ClassFile) (name : String) : Option Field := c.fields.find? (·.name == name)

def method? (c : ClassFile) (name : String) : Option Method :=
  c.methods.find? (·.header.name == name)

def innerClass? (c : ClassFile) (name : String) : Option InnerClass :=
  c.innerClasses.find? (·.name == name)

def addInnerClass (c : ClassFile) (r : InnerClass) : ClassFile :=
  { c with innerClasses := c.innerClasses ++ [r] }

def addNote (c : ClassFile) (a : Annotation) : ClassFile :=
  { c with annotations := c.annotations ++ [a] }

def addField (c : ClassFile) (f : Field) : ClassFile := { c with fields := c.fields ++ [f] }

def addMethod (c : ClassFile) (m : Method) : ClassFile := { c with methods := c.methods ++ [m] }

/-- Applies a change to the method added last. -/
def modifyLastMethod? (c : ClassFile) (f : Method → Method) : Option ClassFile :=
  c.methods.getLast?.map fun m => { c with methods := c.methods.dropLast ++ [f m] }

end ClassFile

/-- Classes handed out so far and the internal names that are refused. -/
structure Collector where
  refused : List String
  classes : List ClassFile

namespace Collector

def skipping (names : List String) : Collector := ⟨names, []⟩

/-- Hands out a new class unless its name is refused. -/
def create? (k : Collector) (name : String) : Option Collector :=
  if k.refused.contains name then none else some { k with classes := k.classes ++ [{}] }

/-- The first class opened under a name. -/
def get? (k : Collector) (name : String) : Option ClassFile :=
  k.classes.find? fun c => c.name? == some name

def last? (k : Collector) : Option ClassFile := k.classes.getLast?

def setLast (k : Collector) (c : ClassFile) : Collector :=
  { k with classes := k.classes.dropLast ++ [c] }

end Collector

end Restack.Stack
