import XPathAssembly.Text.Basic

/-!
# Command words

How a command is shown so that a shell reads the same words back: a word of safe characters stands
as it is, any other between single quotes, and a single quote inside is put between double ones.
-/

namespace XPathAssembly

namespace Word

def isSafe (c : Char) : Bool := c.isAlphanum || c ∈ "_@%+=:,./-".toList

def quoteChar (c : Char) : Text := if c = '\'' then "'\"'\"'".toList else [c]

def quote (w : Text) : Text :=
  if !w.isEmpty && w.all isSafe then w else '\'' :: w.flatMap quoteChar ++ ['\'']

/-- The words of a command, separated by spaces. -/
def line (ws : List Text) : Text := [' '].intercalate (ws.map quote)

end Word

end XPathAssembly
