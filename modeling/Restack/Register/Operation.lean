/-
# Operations of the register machine

The closed families of operations that register instructions draw on. Each
family has a `name`, under which it is stored and listed, and `all`, its members
in declaration order. The comparison, test and invocation families also have a
`mnemonic`.
-/

namespace Restack.Register

/-- Which kind of register content a move or a return carries. -/
inductive MoveKind where
  | single
  | wide
  | object
deriving DecidableEq

namespace MoveKind

def name : MoveKind → String
  | single => "Single"
  | wide => "Wide"
  | object => "Object"

def all : List MoveKind := [single, wide, object]

def suffix : MoveKind → String
  | single => ""
  | wide => "-wide"
  | object => "-object"

end MoveKind

/-- Three-way comparison; the bias says what an unordered pair answers. -/
inductive Comparison where
  | lessFloat
  | greaterFloat
  | lessDouble
  | greaterDouble
  | long
deriving DecidableEq

namespace Comparison

def name : Comparison → String
  | lessFloat => "LessThanFloat"
  | greaterFloat => "GreaterThanFloat"
  | lessDouble => "LessThanDouble"
  | greaterDouble => "GreaterThanDouble"
  | long => "Long"

def all : List Comparison := [lessFloat, greaterFloat, lessDouble, greaterDouble, long]

def mnemonic : Comparison → String
  | lessFloat => "cmpl-float"
  | greaterFloat => "cmpg-float"
  | lessDouble => "cmpl-double"
  | greaterDouble => "cmpg-double"
  | long => "cmp-long"

end Comparison

inductive Test where
  | eq
  | ne
  | lt
  | ge
  | gt
  | le
deriving DecidableEq

namespace Test

def name : Test → String
  | eq => "Equal"
  | ne => "NotEqual"
  | lt => "LessThan"
  | ge => "GreaterThanOrEqual"
  | gt => "GreaterThan"
  | le => "LessThanOrEqual"

def all : List Test := [eq, ne, lt, ge, gt, le]

def mnemonic : Test → String
  | eq => "eq"
  | ne => "ne"
  | lt => "lt"
  | ge => "ge"
  | gt => "gt"
  | le => "le"

end Test

/-- Reading or writing one cell of an array, an object or a class, with the
kind of content that moves. -/
inductive Access where
  | get
  | getWide
  | getObject
  | getBoolean
  | getByte
  | getChar
  | getShort
  | put
  | putWide
  | putObject
  | putBoolean
  | putByte
  | putChar
  | putShort
deriving DecidableEq

namespace Access

def name : Access → String
  | get => "Get"
  | getWide => "GetWide"
  | getObject => "GetObject"
  | getBoolean => "GetBoolean"
  | getByte => "GetByte"
  | getChar => "GetChar"
  | getShort => "GetShort"
  | put => "Put"
  | putWide => "PutWide"
  | putObject => "PutObject"
  | putBoolean => "PutBoolean"
  | putByte => "PutByte"
  | putChar => "PutChar"
  | putShort => "PutShort"

def all : List Access :=
  [get, getWide, getObject, getBoolean, getByte, getChar, getShort,
    put, putWide, putObject, putBoolean, putByte, putChar, putShort]

def isGet : Access → Bool
  | get | getWide | getObject | getBoolean | getByte | getChar | getShort => true
  | _ => false

def isWide : Access → Bool
  | getWide | putWide => true
  | _ => false

def isObject : Access → Bool
  | getObject | putObject => true
  | _ => false

end Access

inductive InvokeKind where
  | virtual
  | super
  | direct
  | static
  | interface
deriving DecidableEq

namespace InvokeKind

def name : InvokeKind → String
  | virtual => "Virtual"
  | super => "Super"
  | direct => "Direct"
  | static => "Static"
  | interface => "Interface"

def all : List InvokeKind := [virtual, super, direct, static, interface]

def mnemonic : InvokeKind → String
  | virtual => "invoke-virtual"
  | super => "invoke-super"
  | direct => "invoke-direct"
  | static => "invoke-static"
  | interface => "invoke-interface"

/-- Whether the first argument is the object the call is made on. -/
def hasReceiver : InvokeKind → Bool
  | static => false
  | _ => true

end InvokeKind

inductive UnaryOp where
  | negateInt
  | notInt
  | negateLong
  | notLong
  | negateFloat
  | negateDouble
  | intToLong
  | intToFloat
  | intToDouble
  | longToInt
  | longToFloat
  | longToDouble
  | floatToInt
  | floatToLong
  | floatToDouble
  | doubleToInt
  | doubleToLong
  | doubleToFloat
  | intToByte
  | intToChar
  | intToShort
deriving DecidableEq

namespace UnaryOp

def name : UnaryOp → String
  | negateInt => "NegateInt"
  | notInt => "NotInt"
  | negateLong => "NegateLong"
  | notLong => "NotLong"
  | negateFloat => "NegateFloat"
  | negateDouble => "NegateDouble"
  | intToLong => "IntToLong"
  | intToFloat => "IntToFloat"
  | intToDouble => "IntToDouble"
  | longToInt => "LongToInt"
  | longToFloat => "LongToFloat"
  | longToDouble => "LongToDouble"
  | floatToInt => "FloatToInt"
  | floatToLong => "FloatToLong"
  | floatToDouble => "FloatToDouble"
  | doubleToInt => "DoubleToInt"
  | doubleToLong => "DoubleToLong"
  | doubleToFloat => "DoubleToFloat"
  | intToByte => "IntToByte"
  | intToChar => "IntToChar"
  | intToShort => "IntToShort"

def all : List UnaryOp :=
  [negateInt, notInt, negateLong, notLong, negateFloat, negateDouble,
    intToLong, intToFloat, intToDouble, longToInt, longToFloat, longToDouble,
    floatToInt, floatToLong, floatToDouble, doubleToInt, doubleToLong, doubleToFloat,
    intToByte, intToChar, intToShort]

end UnaryOp

inductive BinaryOp where
  | addInt
  | subInt
  | mulInt
  | divInt
  | remInt
  | andInt
  | orInt
  | xorInt
  | shlInt
  | shrInt
  | ushrInt
  | addLong
  | subLong
  | mulLong
  | divLong
  | remLong
  | andLong
  | orLong
  | xorLong
  | shlLong
  | shrLong
  | ushrLong
  | addFloat
  | subFloat
  | mulFloat
  | divFloat
  | remFloat
  | addDouble
  | subDouble
  | mulDouble
  | divDouble
  | remDouble
deriving DecidableEq

namespace BinaryOp

def name : BinaryOp → String
  | addInt => "AddInt"
  | subInt => "SubInt"
  | mulInt => "MulInt"
  | divInt => "DivInt"
  | remInt => "RemInt"
  | andInt => "AndInt"
  | orInt => "OrInt"
  | xorInt => "XorInt"
  | shlInt => "ShlInt"
  | shrInt => "ShrInt"
  | ushrInt => "UshrInt"
  | addLong => "AddLong"
  | subLong => "SubLong"
  | mulLong => "MulLong"
  | divLong => "DivLong"
  | remLong => "RemLong"
  | andLong => "AndLong"
  | orLong => "OrLong"
  | xorLong => "XorLong"
  | shlLong => "ShlLong"
  | shrLong => "ShrLong"
  | ushrLong => "UshrLong"
  | addFloat => "AddFloat"
  | subFloat => "SubFloat"
  | mulFloat => "MulFloat"
  | divFloat => "DivFloat"
  | remFloat => "RemFloat"
  | addDouble => "AddDouble"
  | subDouble => "SubDouble"
  | mulDouble => "MulDouble"
  | divDouble => "DivDouble"
  | remDouble => "RemDouble"

def all : List BinaryOp :=
  [addInt, subInt, mulInt, divInt, remInt, andInt, orInt, xorInt, shlInt, shrInt, ushrInt,
    addLong, subLong, mulLong, divLong, remLong, andLong, orLong, xorLong, shlLong, shrLong,
    ushrLong, addFloat, subFloat, mulFloat, divFloat, remFloat,
    addDouble, subDouble, mulDouble, divDouble, remDouble]

/-- The only arithmetic that can throw: division and remainder of integers. -/
def isIntegralDivision : BinaryOp → Bool
  | divInt | remInt | divLong | remLong => true
  | _ => false

/-- The second operand of a shift is an int whatever the first one is. -/
def isShift : BinaryOp → Bool
  | shlInt | shrInt | ushrInt | shlLong | shrLong | ushrLong => true
  | _ => false

end BinaryOp

end Restack.Register
