import XPathAssembly.Text.Point
import XPathAssembly.Text.Printable

/-!
# Quoted literals

How a text or a byte string is shown in a message or a listing: between quotation marks, with
every character that is not printable spelled by its code.  The marks are single unless the text
has a single mark and no double one.
-/

namespace XPathAssembly

namespace Quoted

/-- The mark around a text in which the single and the double mark occur as told. -/
def mark (single double : Bool) : Char :=
  if single && !double then '"' else '\''

/-- The code of a character: two digits after `x`, four after `u`, eight after `U`. -/
def code (n : Nat) : Text :=
  if n < 0x100 then '\\' :: 'x' :: hexDigits 2 n
  else if n < 0x10000 then '\\' :: 'u' :: hexDigits 4 n
  else '\\' :: 'U' :: hexDigits 8 n

/-- One character of the literal. -/
def spell (printable : Nat → Bool) (mark : Char) (n : Nat) : Text :=
  if n = '\\'.toNat ∨ n = mark.toNat then ['\\', Char.ofNat n]
  else if n = '\t'.toNat then ['\\', 't']
  else if n = '\n'.toNat then ['\\', 'n']
  else if n = '\r'.toNat then ['\\', 'r']
  else if printable n then [Char.ofNat n]
  else code n

/-- The characters between two marks. -/
def between (printable : Nat → Bool) (mark : Char) (codes : List Nat) : Text :=
  mark :: codes.flatMap (spell printable mark) ++ [mark]

def literal (printable : Nat → Bool) (codes : List Nat) : Text :=
  between printable (mark ('\''.toNat ∈ codes) ('"'.toNat ∈ codes)) codes

/-- The literal of a text that may hold lone surrogates. -/
def points (ps : List Point) : Text := literal isPrintable (ps.map Point.codePoint)

def text (t : Text) : Text := literal isPrintable (t.map Char.toNat)

/-- Of the bytes only the printable ASCII characters stand for themselves. -/
def bytes (bs : Bytes) : Text :=
  'b' :: literal (fun n => 32 ≤ n && n ≤ 126) (bs.map UInt8.toNat)

theorem points_ofText (t : Text) : points (Point.ofText t) = text t := by
  simp [points, text, Point.ofText, Function.comp_def, Point.codePoint]

end Quoted

end XPathAssembly
