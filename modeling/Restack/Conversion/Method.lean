/-
# Converting a method

A body is lifted, taken through the standard pipeline, relieved of strings too
long for the class file, and lowered. A body that fails is replaced by one that
throws the message, if so wished; an abort ends the conversion of the program.
-/
import Restack.Lifting.Lift
import Restack.LongString.Rebuild
import Restack.Lowering.Lower
import Restack.Pass.Pipeline
import Restack.Register.Metadata

namespace Restack.Conversion

open LongString (ClassHelpers)

/-- The order in which the blocks of each method are closed. -/
class Closing where
  order : Register.Method → Lifting.ClosingOrder

instance : Closing := ⟨fun _ => .listed⟩

structure Options where
  /-- Rebuild strings that are too long at run time. -/
  splitStrings : Bool := true
  /-- Bytes that a string constant may take. -/
  maxStringLength : Nat := Text.maxConstantLength
  /-- Give constants without an initial value the value zero. -/
  zeroConstants : Bool := true
  /-- Replace a body that fails by one that throws. -/
  stubFailures : Bool := true
  [closing : Closing]

def validSignature? (isValid : String → Bool) (notes : List Register.AttachedNote) : Option String :=
  (Register.signature? notes).filter isValid

def methodHeader (m : Register.Method) : Stack.MethodHeader where
  access := Access.ofMethod m.access
  name := m.ref.name
  descriptor := m.ref.descriptor
  signature := validSignature? Signature.isMethodSignature m.annotations
  exceptions := Register.throws m.annotations

/-- The intermediate form of a body behind the standard pipeline. -/
def normalForm (options : Options) (m : Register.Method) (code : Register.Code) :
    Except Failure Ir.Method := do
  let lifted ← (Lifting.lift m code (options.closing.order m)).mapError (·.inStage "lift")
  Pipeline.standard.run lifted

/-- The stack code of a body. What the class knows of its helpers is kept also
when lowering fails. -/
def bodyCode (options : Options) (helpers : ClassHelpers) (m : Register.Method)
    (code : Register.Code) : ClassHelpers × Except Failure Stack.Body :=
  match normalForm options m code with
  | .error e => (helpers, .error e)
  | .ok ir =>
    let (helpers, ir) :=
      if options.splitStrings then
        let (helpers, ir, _) := helpers.rebuildStrings ir options.maxStringLength
        (helpers, ir)
      else (helpers, ir)
    (helpers, (Lowering.lower ir).mapError (·.inStage "lower"))

def convertBody (options : Options) (helpers : ClassHelpers) (m : Register.Method)
    (code : Register.Code) : ClassHelpers × Except Failure Stack.Body :=
  let (helpers, body) := bodyCode options helpers m code
  (helpers, body.mapError (·.within ("method " ++ m.ref.text)))

def runtimeException : String := "java/lang/RuntimeException"

def failureStub (f : Failure) : Stack.Body where
  instructions :=
    [.type .new runtimeException, .simple .dup, .ldc (.string f.message),
      .method .invokespecial runtimeException "<init>" "(Ljava/lang/String;)V" false, .simple .athrow]
  tryCatches := []

def elementDefault? (c : Register.Class) (m : Register.Method) : Option Stack.AnnotationValue :=
  if Access.Flags.has c.access Access.annotationFlag then
    (c.annotationDefault? m.ref.name).bind (element? true)
  else none

def parameterNotes (m : Register.Method) : List (Nat × Stack.Annotation) :=
  m.parameterAnnotations.zipIdx.flatMap fun (ns, i) => (notes ns).map (i, ·)

/-- A method without its body. -/
def declaration (c : Register.Class) (m : Register.Method) : Stack.Method where
  header := methodHeader m
  annotationDefault := elementDefault? c m
  annotations := notes m.annotations
  parameterAnnotations := parameterNotes m
  closed := true

structure ConvertedMethod where
  method : Stack.Method
  failure : Option Failure

def convertMethod (options : Options) (c : Register.Class) (helpers : ClassHelpers)
    (m : Register.Method) : Except Failure (ClassHelpers × ConvertedMethod) :=
  let declared := declaration c m
  match m.code with
  | none => .ok (helpers, ⟨declared, none⟩)
  | some code =>
    match convertBody options helpers m code with
    | (helpers, .ok body) => .ok (helpers, ⟨declared.addCode body, none⟩)
    | (helpers, .error e) =>
      if e.aborts then .error e
      else
        let stubbed := if options.stubFailures then declared.addCode (failureStub e) else declared
        .ok (helpers, ⟨stubbed, some e⟩)

end Restack.Conversion
