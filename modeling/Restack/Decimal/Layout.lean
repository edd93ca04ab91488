/-
# Decimal layout

A floating point number is written with the fewest digits that identify it:
positionally while its leading digit stands between the fourth place after the
point and the sixteenth place before it, otherwise with a power of ten. A
positional number always shows a digit after the point.
-/
import Restack.Decimal.Shortest

namespace Restack.Decimal

/-- Leading exponents that are written positionally. -/
def isPositional (e : Int) : Bool := -4 ≤ e && e < 16

/-- Digits with the point after position `e` of the leading digit. -/
def positional (digits : List Char) (e : Int) : List Char :=
  if e < 0 then
    "0.".toList ++ List.replicate ((-e).toNat - 1) '0' ++ digits
  else
    let whole := e.toNat + 1
    let padded := digits ++ List.replicate (whole - digits.length) '0'
    padded.take whole ++ ['.'] ++
      (if padded.length ≤ whole then ['0'] else padded.drop whole)

/-- Digits with a point after the first, and the power of ten. -/
def scientific (digits : List Char) (e : Int) : List Char :=
  digits.take 1 ++ (if digits.length ≤ 1 then [] else '.' :: digits.drop 1) ++
    ('e' :: (toString e).toList)

def Magnitude.text : Magnitude → List Char
  | .notANumber => "NaN".toList
  | .infinite => "inf".toList
  | .finite number =>
    if number.m == 0 then "0.0".toList
    else
      let d := number.shortest
      let digits := d.significant
      let e := d.exponent + (Nat.toDigits 10 d.digits).length - 1
      if isPositional e then positional digits e else scientific digits e

def Format.text (f : Format) (bits : Nat) : String :=
  match f.magnitude bits with
  | .notANumber => "NaN"
  | magnitude =>
    String.ofList ((if f.negative bits then ['-'] else []) ++ magnitude.text)

end Restack.Decimal
