/-
# Templates of helper methods

A template holds methods of a placeholder class that are copied into the
classes that need them. The decoder puts a string together again from its
hexadecimal pieces.
-/
import Restack.Stack.Instruction

namespace Restack.LongString

open Stack (Body Instruction Opcode)

structure TemplateMethod where
  name : String
  descriptor : String
  code : Body

structure Template where
  /-- Internal name of the placeholder class. -/
  owner : String
  methods : List TemplateMethod

abbrev TemplateSource := String → Option Template

def decoderTemplate : String := "res/Hex"

def decodeString : String := "decode_S"

def decodeStringDescriptor : String := "([Ljava/lang/String;)Ljava/lang/String;"

def decodeChar : String := "decode_C"

def decodeCharDescriptor : String := "(Ljava/lang/String;I)C"

def builder : String := "java/lang/StringBuilder"

def call (op : Opcode) (owner name descriptor : String) : Instruction :=
  .method op owner name descriptor false

/-- Appends the character of every four digits of every piece. Slot 0 holds the
pieces, 1 the result, 2 the number of the piece, 3 the piece and 4 the position
in it. -/
def decodeStringBody : Body where
  instructions :=
    [.type .new builder, .simple .dup, call .invokespecial builder "<init>" "()V", .var .astore 1,
      .simple .iconst0, .var .istore 2,
      .label ⟨0⟩, .var .iload 2, .var .aload 0, .simple .arraylength, .jump .ifIcmpge ⟨3⟩,
      .var .aload 0, .var .iload 2, .simple .aaload, .var .astore 3, .simple .iconst0, .var .istore 4,
      .label ⟨1⟩, .var .iload 4, .var .aload 3, call .invokevirtual "java/lang/String" "length" "()I",
      .jump .ifIcmpge ⟨2⟩, .var .aload 1, .var .aload 3, .var .iload 4,
      call .invokestatic decoderTemplate decodeChar decodeCharDescriptor,
      call .invokevirtual builder "append" "(C)Ljava/lang/StringBuilder;", .simple .pop,
      .iinc 4 4, .jump .goto ⟨1⟩, .label ⟨2⟩, .iinc 2 1, .jump .goto ⟨0⟩,
      .label ⟨3⟩, .var .aload 1, call .invokevirtual builder "toString" "()Ljava/lang/String;",
      .simple .areturn]
  tryCatches := []

/-- The character whose four digits stand at a position. -/
def decodeCharBody : Body where
  instructions :=
    [.var .aload 0, .var .iload 1, .var .iload 1, .simple .iconst4, .simple .iadd,
      call .invokevirtual "java/lang/String" "substring" "(II)Ljava/lang/String;",
      Stack.pushInt 16, call .invokestatic "java/lang/Integer" "parseInt" "(Ljava/lang/String;I)I",
      .simple .i2c, .simple .ireturn]
  tryCatches := []

def decoder : Template where
  owner := decoderTemplate
  methods :=
    [⟨decodeString, decodeStringDescriptor, decodeStringBody⟩,
      ⟨decodeChar, decodeCharDescriptor, decodeCharBody⟩]

def builtin : TemplateSource := fun name => if name = decoderTemplate then some decoder else none

end Restack.LongString
