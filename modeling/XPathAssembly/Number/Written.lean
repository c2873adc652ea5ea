import XPathAssembly.Number.Shortest

/-!
# Written numbers

How a binary number is written and read.  Its shortest digits are written with a point, or with an
exponent where the point would stand too far from them; a whole number keeps one zero after the
point, so that it is told from an integer.
-/

namespace XPathAssembly

/-- Where the point may stand, counted in digits from the first one, without an exponent; and the
digits an exponent has at least. -/
structure PointRule where
  least : Int
  greatest : Int
  exponentWidth : Nat
deriving DecidableEq, Repr

namespace Binary

/-- A point stands from four places before the first digit to sixteen after it, and exponents have
two digits. -/
def pointRule : PointRule := ⟨-3, 16, 2⟩

/-- At least `width` digits, padded with zeros. -/
def padded (width : Nat) (digits : Text) : Text :=
  List.replicate (width - digits.length) '0' ++ digits

/-- Digits with the point after the first `point` of them. -/
def positional (digits : Text) (point : Int) : Text :=
  if point ≤ 0 then '0' :: '.' :: List.replicate (-point).toNat '0' ++ digits
  else if digits.length ≤ point then
    digits ++ List.replicate (point.toNat - digits.length) '0' ++ ['.', '0']
  else digits.take point.toNat ++ '.' :: digits.drop point.toNat

/-- Digits with the point after the first of them and an exponent. -/
def exponential (digits : Text) (exponent : Int) : Text :=
  let tail := digits.drop 1
  digits.take 1 ++ (if tail.isEmpty then [] else '.' :: tail) ++
    'e' :: (if exponent < 0 then '-' else '+') ::
      padded pointRule.exponentWidth (Nat.toDigits 10 exponent.natAbs)

def Decimal.written (d : Decimal) : Text :=
  let digits := Nat.toDigits 10 d.digits
  let point := digits.length + d.exponent
  if pointRule.least ≤ point ∧ point ≤ pointRule.greatest then positional digits point
  else exponential digits (point - 1)

/-- A text after the sign of a number. -/
def signed (negative : Bool) (t : Text) : Text := if negative then '-' :: t else t

def written : Binary → Text
  | nan => "nan".toList
  | infinite negative => signed negative "inf".toList
  | finite negative 0 _ => signed negative "0.0".toList
  | finite negative m q => signed negative (shortest m q).written

/-! ## Reading -/

/-- The digits at the front of a text, and the rest. -/
def digitsOf (t : Text) : Text × Text := t.span Char.isDigit

/-- The value of a list of decimal digits. -/
def natOf (digits : Text) : Nat := digits.foldl (fun n c => n * 10 + (c.toNat - '0'.toNat)) 0

/-- A sign at the front of a text, and the rest. -/
def signOf : Text → Bool × Text
  | '-' :: rest => (true, rest)
  | '+' :: rest => (false, rest)
  | t => (false, t)

/-- The exponent that is all of a text; none is zero. -/
def exponent? : Text → Option Int
  | [] => some 0
  | c :: rest =>
    let (negative, t) := signOf rest
    let (digits, rest) := digitsOf t
    if (c = 'e' ∨ c = 'E') ∧ digits ≠ [] ∧ rest = [] then
      some (if negative then -natOf digits else natOf digits)
    else none

/-- The number of the digits before and after a point. -/
def ofDigits (negative : Bool) (whole fraction : Text) (exponent : Int) : Binary :=
  ofDecimal negative (natOf (whole ++ fraction)) (exponent - fraction.length)

/-- The number a text spells in decimal, with or without point and exponent, or by name. -/
def read? (t : Text) : Option Binary :=
  let (negative, t) := signOf t
  let name := t.map Char.toLower
  if name = "inf".toList ∨ name = "infinity".toList then some (infinite negative)
  else if name = "nan".toList then some nan
  else
    let (whole, t) := digitsOf t
    let (fraction, t) := match t with
      | '.' :: rest => digitsOf rest
      | t => ([], t)
    if whole = [] ∧ fraction = [] then none
    else (exponent? t).map (ofDigits negative whole fraction)

end Binary

end XPathAssembly
