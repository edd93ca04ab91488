/-
# Access flags

How the flags of a register class, field or method become those of a class
file. Every function is total on words, and applying one a second time leaves
its result unchanged.
-/

namespace Restack.Access

abbrev Flags := UInt32

def publicFlag : Flags := 0x1
def privateFlag : Flags := 0x2
def protectedFlag : Flags := 0x4
def staticFlag : Flags := 0x8
def finalFlag : Flags := 0x10
/-- On classes this bit asks for the modern rules of `invokespecial`; on members
it marks synchronized methods, or a hidden member. -/
def superFlag : Flags := 0x20
def nativeFlag : Flags := 0x100
def interfaceFlag : Flags := 0x200
def abstractFlag : Flags := 0x400
def syntheticFlag : Flags := 0x1000
def annotationFlag : Flags := 0x2000
def constructorFlag : Flags := 0x10000
def declaredSynchronizedFlag : Flags := 0x20000

def visibilityFlags : Flags := publicFlag ||| privateFlag ||| protectedFlag

def kindFlags : Flags := interfaceFlag ||| abstractFlag

def Flags.has (flags bit : Flags) : Bool := flags &&& bit == bit

def Flags.without (flags bits : Flags) : Flags := flags &&& ~~~bits

def atMostOneBit (v : Flags) : Bool := v &&& (v - 1) == 0

/-- Undoes the encoding of hidden members. Two visibility bits mark a hidden
member, and toggling all three restores the declared one; a marker bit, at
another place for native methods, is dropped. -/
def revealed (access : Flags) : Flags :=
  let shown :=
    if atMostOneBit (access &&& visibilityFlags) then access else access ^^^ visibilityFlags
  shown.without (if shown.has nativeFlag then interfaceFlag else superFlag)

/-- Flags of a class header. An inner class that was protected is public. -/
def ofClass (isInner : Bool) (access : Flags) : Flags :=
  let withSuper := if access.has interfaceFlag then access else access ||| superFlag
  let bare := withSuper.without (staticFlag ||| privateFlag)
  let opened :=
    if isInner && bare.has protectedFlag then bare.without protectedFlag ||| publicFlag else bare
  opened.without (declaredSynchronizedFlag ||| syntheticFlag ||| finalFlag)

/-- Flags of an entry of the inner classes attribute: the narrowest visibility wins. -/
def ofInner (access : Flags) : Flags :=
  let bare := access.without superFlag
  let narrowed :=
    if bare.has privateFlag then bare.without (publicFlag ||| protectedFlag)
    else if bare.has protectedFlag then bare.without publicFlag
    else bare
  narrowed.without syntheticFlag

def ofMethod (access : Flags) : Flags :=
  (revealed access).without (declaredSynchronizedFlag ||| constructorFlag ||| syntheticFlag)

/-- The constants array of an enum stays synthetic; look-ups by reflection depend on it. -/
def ofField (name : String) (access : Flags) : Flags :=
  if name == "$VALUES" then revealed access
  else (revealed access).without (declaredSynchronizedFlag ||| syntheticFlag)

/-- Class file version for a format version: the older one up to 36. -/
def classVersion (version : Nat) : Nat := if version ≤ 36 then 50 else 52

end Restack.Access
