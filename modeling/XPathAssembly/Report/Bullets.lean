import XPathAssembly.Fault
import XPathAssembly.Text.Indent

/-!
# Reports of errors

A report is a headline and the errors as bullets.  The second margin character of the first line of
each error makes room for the bullet; texts that would break this layout are refused.

The errors are texts of issues, and so without lone surrogates, as is the path in the headline.
-/

namespace XPathAssembly

namespace Report

def startsWith (c : Char) (t : Text) : Bool := t.head? == some c

def endsWith (c : Char) (t : Text) : Bool := t.getLast? == some c

/-- Whether a text can be the headline, which gets a colon at its end. -/
def isHeadline (t : Text) : Bool :=
  !startsWith '\n' t && !startsWith '*' t && !endsWith '\n' t && !endsWith ':' t

/-- Whether a text can be put after a bullet. -/
def isEntry (t : Text) : Bool :=
  !t.isEmpty && !startsWith '\n' t && !startsWith '*' t && !endsWith '\n' t

/-- An error after its bullet. -/
def bullet (error : Text) : Text := '*' :: ' ' :: (indent margin error).drop 2 ++ ['\n']

def headline (message : Text) : Text := message ++ [':', '\n']

def write (message : Text) (errors : List Text) : Except Fault Text :=
  if isHeadline message && errors.all isEntry then .ok (headline message ++ errors.flatMap bullet)
  else .error .layout

end Report

end XPathAssembly
