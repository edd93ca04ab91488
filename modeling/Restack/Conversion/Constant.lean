/-
# Converting encoded values

Handles, constants, annotations and initial values of fields. A handle must name
the kind of member that its kind works on. A value without a counterpart is
dropped, inside an array or an annotation only that value.
-/
import Restack.Register.Program
import Restack.Signature.Descriptor

namespace Restack.Conversion

open Signature (internalName)

def handleTag : Register.HandleKind → UInt8
  | .instanceGet => Stack.tagGetField
  | .instancePut => Stack.tagPutField
  | .staticGet => Stack.tagGetStatic
  | .staticPut => Stack.tagPutStatic
  | .invokeInstance => Stack.tagInvokeVirtual
  | .invokeStatic => Stack.tagInvokeStatic
  | .invokeConstructor => Stack.tagNewInvokeSpecial
  | .invokeDirect => Stack.tagInvokeSpecial
  | .invokeInterface => Stack.tagInvokeInterface

def handle (h : Register.MethodHandle) : Except Failure Stack.Handle :=
  match h.member, h.kind.isFieldAccess with
  | .field ref, true =>
    .ok ⟨handleTag h.kind, internalName ref.owner, ref.name, ref.descriptor, false⟩
  | .method ref, false =>
    .ok ⟨handleTag h.kind, internalName ref.owner, ref.name, ref.descriptor, h.kind == .invokeInterface⟩
  | member, _ => fail (.handleMismatch h.kind member)

def constant? : Register.Value → Option Stack.Constant
  | .byte v => some (.byte v)
  | .short v => some (.short v)
  | .char v => some (.char v)
  | .int v => some (.int v)
  | .long v => some (.long v)
  | .float bits => some (.float bits)
  | .double bits => some (.double bits)
  | .boolean v => some (.boolean v)
  | .string s => some (.string s)
  | .type d => some (.type d)
  | .methodType d => some (.methodType d)
  | .methodHandle h => (handle h).toOption.map .handle
  | _ => none

mutual

def element? (visible : Bool) : Register.Value → Option Stack.AnnotationValue
  | .enumConstant ref => some (.enumConstant ref.descriptor ref.name)
  | .array items => some (.array (elementItems visible items))
  | .annotated type elements => some (.nested type visible (namedElements visible elements))
  | .method _ | .null | .field _ | .methodType _ | .methodHandle _ => none
  | v => (constant? v).map .const

def elementItems (visible : Bool) : List Register.Value → List Stack.AnnotationValue
  | [] => []
  | v :: rest => (element? visible v).toList ++ elementItems visible rest

def namedElements (visible : Bool) :
    List (String × Register.Value) → List (String × Stack.AnnotationValue)
  | [] => []
  | (name, v) :: rest =>
    ((element? visible v).map (name, ·)).toList ++ namedElements visible rest

end

/-- Whether an annotation can be seen at run time; none for those of the system. -/
def runtimeVisible? : Register.Visibility → Option Bool
  | .runtime => some true
  | .build => some false
  | .system => none

def attachedNote? (n : Register.AttachedNote) : Option Stack.Annotation :=
  (runtimeVisible? n.visibility).map fun visible =>
    ⟨n.body.type, visible, namedElements visible n.body.elements⟩

def notes (ns : List Register.AttachedNote) : List Stack.Annotation := ns.filterMap attachedNote?

def integral? : Register.Value → Option Int64
  | .boolean b => some (if b then 1 else 0)
  | .byte v => some v.toInt64
  | .short v => some v.toInt64
  | .char v => some (Int64.ofInt v.toNat)
  | .int v => some v.toInt64
  | .long v => some v
  | _ => none

/-- The constant value of a field, brought to the declared type; only primitive
types and strings have one. -/
def fieldValue? (descriptor : String) (v : Register.Value) : Option Stack.Constant :=
  if ["Z", "B", "S", "C", "I"].contains descriptor then
    (integral? v).map fun n => .int n.toInt32
  else if descriptor = "J" then (integral? v).map .long
  else match v with
    | .float bits => if descriptor = "F" then some (.float bits) else none
    | .double bits => if descriptor = "D" then some (.double bits) else none
    | .string s => if descriptor = "Ljava/lang/String;" then some (.string s) else none
    | _ => none

end Restack.Conversion
