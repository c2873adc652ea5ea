import XPathAssembly.Text.Blank
import XPathAssembly.Text.Lines

/-!
# Margins

Two ways to move the lines of a text to the right.  `indent` puts the margin before every line
that is not blank and keeps the ends of the lines as they are.  `hang` leaves the first line where
it is, puts the margin before every other line that is not empty, and ends every line but the last
with a line feed.
-/

namespace XPathAssembly

/-- The margin of one level. -/
def margin : Text := [' ', ' ']

def Line.indent (m : Text) (l : Line) : Text :=
  if isBlankText l.whole then l.whole else m ++ l.whole

def indent (m t : Text) : Text := (lines t).flatMap (Line.indent m)

/-- A line with the margin before it, unless it is empty. -/
def shift (m body : Text) : Text := if body.isEmpty then body else m ++ body

def hang (m t : Text) : Text :=
  match lineBodies t with
  -- a text without a first line; no value is listed as an empty text, so that none comes here
  | [] => []
  | first :: others => ['\n'].intercalate (first :: others.map (shift m))

end XPathAssembly
