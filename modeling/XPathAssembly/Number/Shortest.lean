import XPathAssembly.Number.Binary

/-!
# Shortest decimals

A finite number is written with the fewest digits that read back as the same number, and of those
with the digits nearest to it, a tie going to the even last digit.  The numbers that read back as
`m * 2 ^ q` are those between the midpoints to its two neighbours; the midpoints belong to them if
`m` is even.  On the grid of decimals of a given number of digits only the two next to the number
can be nearest, so these are tried, for one digit, two digits and so on; seventeen always suffice.
-/

namespace XPathAssembly

namespace Binary

/-- A positive number and the midpoints to its neighbours, as multiples of `2 ^ scale`. -/
structure Around where
  low : Nat
  value : Nat
  high : Nat
  closed : Bool
  scale : Int
deriving Repr

/-- Below a power of two the neighbours lie twice as close, but not at the end of the range. -/
def around (m : Nat) (q : Int) : Around :=
  if m = twoTo 52 ∧ -1074 < q then ⟨4 * m - 1, 4 * m, 4 * m + 2, m % 2 = 0, q - 2⟩
  else ⟨2 * m - 1, 2 * m, 2 * m + 1, m % 2 = 0, q - 1⟩

/-- `d * 10 ^ k` compared with `n * 2 ^ s`, both sides multiplied out. -/
def decimalSide (d : Nat) (k s : Int) : Nat := d * tenTo k.toNat * twoTo (-s).toNat

def binarySide (n : Nat) (k s : Int) : Nat := n * twoTo s.toNat * tenTo (-k).toNat

/-- Whether `d * 10 ^ k` reads back as the number. -/
def Around.reads (a : Around) (d : Nat) (k : Int) : Bool :=
  let x := decimalSide d k a.scale
  let low := binarySide a.low k a.scale
  let high := binarySide a.high k a.scale
  if a.closed then low ≤ x && x ≤ high else low < x && x < high

/-- The multiple of `10 ^ k` not above the number. -/
def Around.floor (a : Around) (k : Int) : Nat :=
  binarySide a.value k a.scale / decimalSide 1 k a.scale

/-- The better of two neighbours on the grid, the lower one being `d`. -/
def Around.nearer (a : Around) (d : Nat) (k : Int) : Nat :=
  let below := binarySide a.value k a.scale - decimalSide d k a.scale
  let above := decimalSide (d + 1) k a.scale - binarySide a.value k a.scale
  if below < above then d else if above < below then d + 1
  else if d % 2 = 0 then d else d + 1

/-- The multiple of `10 ^ k` nearest to the number that reads back, if one does. -/
def Around.onGrid? (a : Around) (k : Int) : Option Nat :=
  let d := a.floor k
  match a.reads d k, a.reads (d + 1) k with
  | true, true => some (a.nearer d k)
  | true, false => some d
  | false, true => some (d + 1)
  | false, false => none

/-- A decimal number: its digits, and the power of ten of the last one. -/
structure Decimal where
  digits : Nat
  exponent : Int
deriving DecidableEq, Repr

/-- The first hit on the grids from `10 ^ k` on, each ten times as fine as the one before. -/
def Around.shortestFrom (a : Around) : Nat → Int → Decimal
  | 0, k => ⟨a.floor k, k⟩
  | n + 1, k =>
    match a.onGrid? k with
    | some d => ⟨d, k⟩
    | none => a.shortestFrom n (k - 1)

/-- A power of ten above the number: two to the tenth is more than ten to the third. -/
def gridAbove (a : Around) : Int := ((a.value.log2 : Int) + 1 + a.scale) * 302 / 1000 + 2

/-- The shortest decimal that reads back as `m * 2 ^ q`. -/
def shortest (m : Nat) (q : Int) : Decimal :=
  let a := around m q
  a.shortestFrom 25 (gridAbove a)

end Binary

end XPathAssembly
