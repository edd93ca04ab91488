/-
# Opcodes of the stack machine

An opcode is a byte. The names below are the instructions the converter emits
and the helper methods use; a name says the operand kind by its first letter
(`i`, `l`, `f`, `d` and `a` for int, long, float, double and reference).
-/

namespace Restack.Stack

abbrev Opcode := UInt8

namespace Opcode

@[match_pattern] def nop : Opcode := 0
@[match_pattern] def aconstNull : Opcode := 1
@[match_pattern] def iconstM1 : Opcode := 2
@[match_pattern] def iconst0 : Opcode := 3
@[match_pattern] def iconst1 : Opcode := 4
@[match_pattern] def iconst2 : Opcode := 5
@[match_pattern] def iconst3 : Opcode := 6
@[match_pattern] def iconst4 : Opcode := 7
@[match_pattern] def iconst5 : Opcode := 8
@[match_pattern] def lconst0 : Opcode := 9
@[match_pattern] def lconst1 : Opcode := 10
@[match_pattern] def fconst0 : Opcode := 11
@[match_pattern] def fconst1 : Opcode := 12
@[match_pattern] def fconst2 : Opcode := 13
@[match_pattern] def dconst0 : Opcode := 14
@[match_pattern] def dconst1 : Opcode := 15
@[match_pattern] def bipush : Opcode := 16
@[match_pattern] def sipush : Opcode := 17
@[match_pattern] def ldc : Opcode := 18
@[match_pattern] def iload : Opcode := 21
@[match_pattern] def lload : Opcode := 22
@[match_pattern] def fload : Opcode := 23
@[match_pattern] def dload : Opcode := 24
@[match_pattern] def aload : Opcode := 25
@[match_pattern] def iaload : Opcode := 46
@[match_pattern] def laload : Opcode := 47
@[match_pattern] def faload : Opcode := 48
@[match_pattern] def daload : Opcode := 49
@[match_pattern] def aaload : Opcode := 50
@[match_pattern] def baload : Opcode := 51
@[match_pattern] def caload : Opcode := 52
@[match_pattern] def saload : Opcode := 53
@[match_pattern] def istore : Opcode := 54
@[match_pattern] def lstore : Opcode := 55
@[match_pattern] def fstore : Opcode := 56
@[match_pattern] def dstore : Opcode := 57
@[match_pattern] def astore : Opcode := 58
@[match_pattern] def iastore : Opcode := 79
@[match_pattern] def lastore : Opcode := 80
@[match_pattern] def fastore : Opcode := 81
@[match_pattern] def dastore : Opcode := 82
@[match_pattern] def aastore : Opcode := 83
@[match_pattern] def bastore : Opcode := 84
@[match_pattern] def castore : Opcode := 85
@[match_pattern] def sastore : Opcode := 86
@[match_pattern] def pop : Opcode := 87
@[match_pattern] def pop2 : Opcode := 88
@[match_pattern] def dup : Opcode := 89
@[match_pattern] def iadd : Opcode := 96
@[match_pattern] def ladd : Opcode := 97
@[match_pattern] def fadd : Opcode := 98
@[match_pattern] def dadd : Opcode := 99
@[match_pattern] def isub : Opcode := 100
@[match_pattern] def lsub : Opcode := 101
@[match_pattern] def fsub : Opcode := 102
@[match_pattern] def dsub : Opcode := 103
@[match_pattern] def imul : Opcode := 104
@[match_pattern] def lmul : Opcode := 105
@[match_pattern] def fmul : Opcode := 106
@[match_pattern] def dmul : Opcode := 107
@[match_pattern] def idiv : Opcode := 108
@[match_pattern] def ldiv : Opcode := 109
@[match_pattern] def fdiv : Opcode := 110
@[match_pattern] def ddiv : Opcode := 111
@[match_pattern] def irem : Opcode := 112
@[match_pattern] def lrem : Opcode := 113
@[match_pattern] def frem : Opcode := 114
@[match_pattern] def drem : Opcode := 115
@[match_pattern] def ineg : Opcode := 116
@[match_pattern] def lneg : Opcode := 117
@[match_pattern] def fneg : Opcode := 118
@[match_pattern] def dneg : Opcode := 119
@[match_pattern] def ishl : Opcode := 120
@[match_pattern] def lshl : Opcode := 121
@[match_pattern] def ishr : Opcode := 122
@[match_pattern] def lshr : Opcode := 123
@[match_pattern] def iushr : Opcode := 124
@[match_pattern] def lushr : Opcode := 125
@[match_pattern] def iand : Opcode := 126
@[match_pattern] def land : Opcode := 127
@[match_pattern] def ior : Opcode := 128
@[match_pattern] def lor : Opcode := 129
@[match_pattern] def ixor : Opcode := 130
@[match_pattern] def lxor : Opcode := 131
@[match_pattern] def iinc : Opcode := 132
@[match_pattern] def i2l : Opcode := 133
@[match_pattern] def i2f : Opcode := 134
@[match_pattern] def i2d : Opcode := 135
@[match_pattern] def l2i : Opcode := 136
@[match_pattern] def l2f : Opcode := 137
@[match_pattern] def l2d : Opcode := 138
@[match_pattern] def f2i : Opcode := 139
@[match_pattern] def f2l : Opcode := 140
@[match_pattern] def f2d : Opcode := 141
@[match_pattern] def d2i : Opcode := 142
@[match_pattern] def d2l : Opcode := 143
@[match_pattern] def d2f : Opcode := 144
@[match_pattern] def i2b : Opcode := 145
@[match_pattern] def i2c : Opcode := 146
@[match_pattern] def i2s : Opcode := 147
@[match_pattern] def lcmp : Opcode := 148
@[match_pattern] def fcmpl : Opcode := 149
@[match_pattern] def fcmpg : Opcode := 150
@[match_pattern] def dcmpl : Opcode := 151
@[match_pattern] def dcmpg : Opcode := 152
@[match_pattern] def ifeq : Opcode := 153
@[match_pattern] def ifne : Opcode := 154
@[match_pattern] def iflt : Opcode := 155
@[match_pattern] def ifge : Opcode := 156
@[match_pattern] def ifgt : Opcode := 157
@[match_pattern] def ifle : Opcode := 158
@[match_pattern] def ifIcmpeq : Opcode := 159
@[match_pattern] def ifIcmpne : Opcode := 160
@[match_pattern] def ifIcmplt : Opcode := 161
@[match_pattern] def ifIcmpge : Opcode := 162
@[match_pattern] def ifIcmpgt : Opcode := 163
@[match_pattern] def ifIcmple : Opcode := 164
@[match_pattern] def ifAcmpeq : Opcode := 165
@[match_pattern] def ifAcmpne : Opcode := 166
@[match_pattern] def goto : Opcode := 167
@[match_pattern] def tableswitch : Opcode := 170
@[match_pattern] def lookupswitch : Opcode := 171
@[match_pattern] def ireturn : Opcode := 172
@[match_pattern] def lreturn : Opcode := 173
@[match_pattern] def freturn : Opcode := 174
@[match_pattern] def dreturn : Opcode := 175
@[match_pattern] def areturn : Opcode := 176
@[match_pattern] def vreturn : Opcode := 177
@[match_pattern] def getstatic : Opcode := 178
@[match_pattern] def putstatic : Opcode := 179
@[match_pattern] def getfield : Opcode := 180
@[match_pattern] def putfield : Opcode := 181
@[match_pattern] def invokevirtual : Opcode := 182
@[match_pattern] def invokespecial : Opcode := 183
@[match_pattern] def invokestatic : Opcode := 184
@[match_pattern] def invokeinterface : Opcode := 185
@[match_pattern] def invokedynamic : Opcode := 186
@[match_pattern] def new : Opcode := 187
@[match_pattern] def newarray : Opcode := 188
@[match_pattern] def anewarray : Opcode := 189
@[match_pattern] def arraylength : Opcode := 190
@[match_pattern] def athrow : Opcode := 191
@[match_pattern] def checkcast : Opcode := 192
@[match_pattern] def instanceof : Opcode := 193
@[match_pattern] def monitorenter : Opcode := 194
@[match_pattern] def monitorexit : Opcode := 195
@[match_pattern] def multianewarray : Opcode := 197
@[match_pattern] def ifnull : Opcode := 198
@[match_pattern] def ifnonnull : Opcode := 199

end Opcode

def elementBoolean : Int32 := 4
def elementChar : Int32 := 5
def elementFloat : Int32 := 6
def elementDouble : Int32 := 7
def elementByte : Int32 := 8
def elementShort : Int32 := 9
def elementInt : Int32 := 10
def elementLong : Int32 := 11

end Restack.Stack
