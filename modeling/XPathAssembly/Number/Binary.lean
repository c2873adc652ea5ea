import XPathAssembly.Text.Basic

/-!
# Binary floating-point numbers

The numbers of the format with 53 significant bits and eleven bits of exponent, as exact values: a
finite one is `significand * 2 ^ exponent` with a sign.  A decimal number is read as the nearest of
them, and of two equally near ones as the one with the even significand.
-/

namespace XPathAssembly

inductive Binary where
  | nan
  | infinite (negative : Bool)
  | finite (negative : Bool) (significand : Nat) (exponent : Int)
deriving DecidableEq, Repr

namespace Binary

/-- The powers of two, and of ten. -/
def twoTo (n : Nat) : Nat := Nat.pow 2 n

def tenTo (n : Nat) : Nat := Nat.pow 10 n

/-- The quotient to the nearest whole number, a half to the even neighbour. -/
def divNearest (num den : Nat) : Nat :=
  let q := num / den
  let r := num % den
  if 2 * r < den then q
  else if den < 2 * r then q + 1
  else if q % 2 = 0 then q else q + 1

/-- `num * 2 ^ e / den`, to the nearest whole number. -/
def scaled (num den : Nat) (e : Int) : Nat :=
  divNearest (num * twoTo e.toNat) (den * twoTo (-e).toNat)

/-- Whether `num * 2 ^ e / den` is at least `2 ^ 52`. -/
def fills (num den : Nat) (e : Int) : Bool :=
  den * twoTo (-e).toNat * twoTo 52 ≤ num * twoTo e.toNat

/-- The exponent that leaves 53 bits before the point, or the least one of the format. -/
def exponentOf (num den : Nat) : Int :=
  let e : Int := num.log2 - den.log2 - 52
  max (-1074) (if fills num den (-e) then e else e - 1)

/-- The number nearest to `num / den`. -/
def nearest (negative : Bool) (num den : Nat) : Binary :=
  let e := exponentOf num den
  let m := scaled num den (-e)
  let (m, e) := if m = twoTo 53 then (twoTo 52, e + 1) else (m, e)
  if 971 < e then infinite negative else finite negative m e

/-- The number nearest to `digits * 10 ^ exponent`.  Far outside the range of the format the powers
of ten are not worked out. -/
def ofDecimal (negative : Bool) (digits : Nat) (exponent : Int) : Binary :=
  let size : Int := (Nat.toDigits 10 digits).length + exponent
  if digits = 0 ∨ size < -400 then finite negative 0 (-1074)
  else if 400 < size then infinite negative
  else nearest negative (digits * tenTo exponent.toNat) (tenTo (-exponent).toNat)

end Binary

end XPathAssembly
