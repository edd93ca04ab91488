/-
# Converting classes and programs

A class becomes a header, its nesting, annotations, fields and methods, and
behind those the helpers that its methods call. A program is converted class by
class, in order, and the report says which bodies failed.
-/
import Restack.Conversion.Method
import Restack.Nesting.Records

namespace Restack.Conversion

open LongString (ClassHelpers TemplateSource)
open Nesting (Relations)
open Signature (internalName)

def classHeader (version : Nat) (r : Relations) (c : Register.Class) : Stack.ClassHeader where
  version := Access.classVersion version
  access := Access.ofClass ((r.lookup? c.name).any (·.isInner)) c.access
  name := internalName c.name
  signature := validSignature? Signature.isClassSignature c.annotations
  superName := c.superclass.map internalName
  interfaces := c.interfaces.map internalName
  sourceFile := c.sourceFile

/-- The value of a field that was never written, absent for references. -/
def zeroValue? (descriptor : String) : Option Stack.Constant :=
  match Ir.Ty.ofDescriptor descriptor with
  | .int => some (.int 0)
  | .long => some (.long 0)
  | .float => some (.float 0)
  | .double => some (.double 0)
  | _ => none

/-- The static field of a class that an instruction writes. -/
def writtenField? (c : Register.Class) : Register.Instruction → Option String
  | .staticField op _ field =>
    if !op.isGet && field.owner == c.name then some field.name else none
  | _ => none

/-- Names of the class's own fields that its initialiser writes. -/
def initialised (c : Register.Class) : List String :=
  match (c.methods.find? (·.ref.name == "<clinit>")).bind (·.code) with
  | some code => code.instructions.filterMap (writtenField? c)
  | none => []

def isStaticFinal (f : Register.Field) : Bool :=
  Access.Flags.has f.access (Access.staticFlag ||| Access.finalFlag)

def convertField (options : Options) (written : List String) (f : Register.Field) : Stack.Field :=
  let initial := f.initial.bind (fieldValue? f.descriptor)
  let zero :=
    if isStaticFinal f && options.zeroConstants && !written.contains f.name then
      zeroValue? f.descriptor
    else none
  { access := Access.ofField f.name f.access
    name := f.name
    descriptor := f.descriptor
    signature := validSignature? Signature.isFieldSignature f.annotations
    value := initial <|> zero
    annotations := notes f.annotations }

structure MemberFailure where
  /-- Descriptor of the class. -/
  owner : String
  /-- Name and descriptor. -/
  member : String
  failure : Failure

structure ConvertedClass where
  file : Stack.ClassFile
  failures : List MemberFailure

/-- What a receiver sees of a method before it takes it. -/
structure Offer where
  header : Stack.MethodHeader

/-- Who goes by names reads an offer as a name. -/
instance : Coe Offer String := ⟨(·.header.name)⟩

/-- Converts methods in order, leaving out those that are not `wanted`. -/
def convertMethods (options : Options) (wanted : Offer → Bool) (c : Register.Class) :
    ClassHelpers → List Register.Method →
      Except Failure (ClassHelpers × List (Register.Method × ConvertedMethod))
  | helpers, [] => .ok (helpers, [])
  | helpers, m :: rest =>
    if !wanted ⟨methodHeader m⟩ then convertMethods options wanted c helpers rest
    else do
      let (helpers, converted) ← convertMethod options c helpers m
      let (helpers, later) ← convertMethods options wanted c helpers rest
      .ok (helpers, (m, converted) :: later)

def failureOf? (c : Register.Class) (m : Register.Method × ConvertedMethod) : Option MemberFailure :=
  m.2.failure.map fun failure => ⟨c.name, m.1.ref.name ++ m.1.ref.descriptor, failure⟩

def helperMethods (wanted : Offer → Bool) (helpers : ClassHelpers) : List Stack.Method :=
  (helpers.methods.filter fun h => wanted ⟨h.1⟩).map fun (header, body) =>
    { header, code := some body, closed := true }

/-- Everything that stays the same from class to class. -/
structure Setting where
  options : Options := {}
  templates : TemplateSource := LongString.builtin
  /-- Whether the receiver takes a method. -/
  wantsMethod : Offer → Bool := fun _ => true

def convertClass (s : Setting) (version : Nat) (r : Relations) (tag : UInt32) (c : Register.Class) :
    Except Failure ConvertedClass := do
  let header := classHeader version r c
  let nest := Nesting.nestOf r c
  let fresh := ClassHelpers.ofClass header.name s.templates tag
  let (helpers, methods) ← convertMethods s.options s.wantsMethod c fresh c.methods
  .ok {
    file := {
      header := some header
      innerClasses := nest.records
      outerClass := nest.outer
      annotations := notes c.annotations
      fields := c.fields.map (convertField s.options (initialised c))
      methods := methods.map (·.2.method) ++ helperMethods s.wantsMethod helpers
      closed := true }
    failures := methods.filterMap (failureOf? c) }

structure Report where
  classes : Nat := 0
  /-- Classes that the receiver declined. -/
  skipped : Nat := 0
  failures : List MemberFailure := []

def Report.isClean (r : Report) : Bool := r.failures.isEmpty

structure Outcome where
  collector : Stack.Collector
  report : Report

/-- Converts one class into the collector; `tag` names its helpers. -/
def addClass (s : Setting) (version : Nat) (r : Relations) (done : Outcome)
    (c : Register.Class) (tag : UInt32) : Except Failure Outcome :=
  match done.collector.create? (internalName c.name) with
  | none => .ok { done with report := { done.report with skipped := done.report.skipped + 1 } }
  | some collector => do
    let converted ← convertClass s version r tag c
    .ok {
      collector := collector.setLast converted.file
      report := { done.report with
        classes := done.report.classes + 1
        failures := done.report.failures ++ converted.failures } }

/-- Converts every class of a program, in order. `tags` gives each class, by its
position, the tag of its helpers; only an abort ends the conversion. -/
def convertProgram (s : Setting) (tags : Nat → UInt32) (p : Register.Program)
    (collector : Stack.Collector) : Except Failure Outcome :=
  let r := Relations.ofProgram p
  p.classes.zipIdx.foldlM (fun done (c, i) => addClass s p.version r done c (tags i))
    ⟨collector, {}⟩

/-- Well spread tags, all different for the first 2³² numbers. -/
def spreadTag (i : Nat) : UInt32 := 0x9e3779b9 * UInt32.ofNat (i + 1)

/-- Different tags, none of them with the digits of a name already in `used`. Of
the first `n + used.length + 1` tags at least `n + 1` are left. -/
def freshTags (used : List String) (n : Nat) : UInt32 :=
  (((List.range (n + used.length + 1)).map spreadTag).filter fun tag =>
    !used.contains (Text.hex 8 tag.toNat)).getD n 0

end Restack.Conversion
