/-
# The fewest decimal digits that read back

A finite binary number `m * 2^q` stands for every real that rounds to it, ends of
the interval included exactly when `m` is even. `shortest` selects, in exact
arithmetic on naturals, the first decimal grid with a point in that interval, and
on it the point nearest to the number; an exact tie goes up.
-/

namespace Restack.Decimal

/-- A binary interchange format, by the sizes of its fraction and exponent fields. -/
structure Format where
  fraction : Nat
  exponent : Nat

def Format.single : Format := ⟨23, 8⟩

def Format.double : Format := ⟨52, 11⟩

structure Binary where
  m : Nat
  q : Int
  /-- The number below is half as far away as the number above. -/
  narrow : Bool

inductive Magnitude where
  | finite (number : Binary)
  | infinite
  | notANumber

def Format.exponentField (f : Format) (bits : Nat) : Nat :=
  bits / Nat.pow 2 f.fraction % Nat.pow 2 f.exponent

def Format.fractionField (f : Format) (bits : Nat) : Nat := bits % Nat.pow 2 f.fraction

def Format.negative (f : Format) (bits : Nat) : Bool :=
  bits / Nat.pow 2 (f.fraction + f.exponent) % 2 == 1

def Format.isNaN (f : Format) (bits : Nat) : Bool :=
  f.exponentField bits == Nat.pow 2 f.exponent - 1 && f.fractionField bits != 0

/-- Both zeros: every bit below the sign is clear. -/
def Format.isZero (f : Format) (bits : Nat) : Bool :=
  f.exponentField bits == 0 && f.fractionField bits == 0

/-- Numerical equality of two bit patterns: a pattern that is not a number
equals nothing, and the two zeros are equal. -/
def Format.same (f : Format) (a b : Nat) : Bool :=
  !f.isNaN a && !f.isNaN b && (a == b || (f.isZero a && f.isZero b))

def Format.magnitude (f : Format) (bits : Nat) : Magnitude :=
  let e := f.exponentField bits
  let part := f.fractionField bits
  let low : Int := 2 - (Nat.pow 2 (f.exponent - 1) : Nat) - f.fraction
  if f.isNaN bits then .notANumber
  else if e == Nat.pow 2 f.exponent - 1 then .infinite
  else if e == 0 then .finite ⟨part, low, false⟩
  else .finite ⟨Nat.pow 2 f.fraction + part, low + e - 1, part == 0 && e > 1⟩

structure Number where
  digits : Nat
  exponent : Int

/-- Compares `a * 10^i` with `n * 2^j`. -/
def compareScaled (a : Nat) (i : Int) (n : Nat) (j : Int) : Ordering :=
  compare (a * Nat.pow 10 i.toNat * Nat.pow 2 (-j).toNat)
    (n * Nat.pow 2 j.toNat * Nat.pow 10 (-i).toNat)

/-- Whether a decimal lies among the reals that round to `x`. -/
def Binary.readsBack (x : Binary) (d : Number) : Bool :=
  let below := compareScaled d.digits d.exponent (if x.narrow then 4 * x.m - 1 else 4 * x.m - 2) (x.q - 2)
  let above := compareScaled d.digits d.exponent (4 * x.m + 2) (x.q - 2)
  let ends := x.m % 2 == 0
  (below == .gt || (ends && below == .eq)) && (above == .lt || (ends && above == .eq))

/-- The grid point `10^g * n` at or below `x`. -/
def Binary.floorOn (x : Binary) (g : Int) : Nat :=
  (x.m * Nat.pow 2 x.q.toNat * Nat.pow 10 (-g).toNat) / (Nat.pow 2 (-x.q).toNat * Nat.pow 10 g.toNat)

/-- The point of the grid `10^g` that stands for `x`, if one does. -/
def Binary.onGrid (x : Binary) (g : Int) : Option Number :=
  let low : Number := ⟨x.floorOn g, g⟩
  let high : Number := ⟨x.floorOn g + 1, g⟩
  match x.readsBack low, x.readsBack high with
  | false, false => none
  | true, false => some low
  | false, true => some high
  | true, true =>
    if compareScaled (2 * low.digits + 1) g (2 * x.m) x.q == .gt then some low else some high

/-- Shifts the scale down until `x` reaches `10^scale`. -/
def Binary.scaleDown (x : Binary) : Nat → Int → Int
  | 0, scale => scale
  | fuel + 1, scale =>
    if compareScaled 1 scale x.m x.q == .gt then x.scaleDown fuel (scale - 1) else scale

/-- The exponent of the leading digit of a positive number. -/
def Binary.leading (x : Binary) : Int :=
  x.scaleDown (x.m.log2 + x.q.natAbs + 2) ((x.m.log2 : Int) + x.q + 1 |>.toNat)

/-- The decimal with the fewest digits that reads back as the positive number `x`. -/
def Binary.shortest (x : Binary) : Number :=
  let top := x.leading
  ((List.range 18).findSome? fun (n : Nat) => x.onGrid (top - n)).getD ⟨x.floorOn x.q, x.q⟩

/-- Digits without trailing zeros, most significant first. -/
def Number.significant (d : Number) : List Char :=
  ((Nat.toDigits 10 d.digits).reverse.dropWhile (· == '0')).reverse

end Restack.Decimal
