import XPathAssembly.Number.Written
import XPathAssembly.Text.Blank
import XPathAssembly.Text.Digit

/-!
# Spelled numbers

A number that somebody has typed may have blanks around it, underscores between its digits, and
digits of any script.  All of these are taken away before the number is read.
-/

namespace XPathAssembly

namespace Binary

/-- A character as it counts in a number: outside ASCII a digit of any script counts as the ASCII
one, a blank as a space, and nothing else has a meaning. -/
def plainChar (c : Char) : Char :=
  if c.toNat < 127 then c
  else if isBlank c then ' '
  else match decimalValue? c with
    | some d => Char.ofNat ('0'.toNat + d)
    | none => '?'

/-- The blanks of ASCII that may stand around a number. -/
def isPadding (c : Char) : Bool := c = ' ' || ('\t' ≤ c && c ≤ '\x0d')

/-- Takes away the underscores, each of which has to stand between two digits; `digit` says whether
a digit stands before. -/
def ungrouped? (digit : Bool) : Text → Option Text
  | [] => some []
  | '_' :: rest =>
    if digit && rest.head?.any Char.isDigit then ungrouped? false rest else none
  | c :: rest => (ungrouped? c.isDigit rest).map (c :: ·)

/-- The number a text spells. -/
def ofSpelling? (t : Text) : Option Binary :=
  (ungrouped? false (t.map plainChar)).bind fun t => read? (stripped isPadding t)

end Binary

end XPathAssembly
