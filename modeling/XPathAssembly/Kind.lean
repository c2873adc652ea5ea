import XPathAssembly.Text.Basic

/-!
# Kinds of tokens

The kinds that the lexer of SLAX tells apart, and the names by which a token file calls them.

    ofName? k.name = some k      (ofName?_name)
-/

namespace XPathAssembly

inductive Kind where
  | bare
  | number
  | varName
  | functionName
  | elementName
  | quoted
  | axisName
  | dcolon
  | dotdotdot
  | underscore
  | slash
  | atSign
  | openBracket
  | closeBracket
  | openParen
  | closeParen
  | comma
  | dot
  | minus
  | plus
  | operator
  /-- The end of a statement, which is no segment. -/
  | eos
deriving DecidableEq, Repr

namespace Kind

def all : List Kind :=
  [bare, number, varName, functionName, elementName, quoted, axisName, dcolon, dotdotdot,
   underscore, slash, atSign, openBracket, closeBracket, openParen, closeParen, comma, dot, minus,
   plus, operator, eos]

theorem mem_all (k : Kind) : k ∈ all := by cases k <;> decide

def name : Kind → Text
  | bare => "bare".toList
  | number => "number".toList
  | varName => "var_name".toList
  | functionName => "function_name".toList
  | elementName => "element_name".toList
  | quoted => "quoted".toList
  | axisName => "axis_name".toList
  | dcolon => "dcolon".toList
  | dotdotdot => "dotdotdot".toList
  | underscore => "underscore".toList
  | slash => "slash".toList
  | atSign => "at".toList
  | openBracket => "open_bracket".toList
  | closeBracket => "close_bracket".toList
  | openParen => "open_paren".toList
  | closeParen => "close_paren".toList
  | comma => "comma".toList
  | dot => "dot".toList
  | minus => "minus".toList
  | plus => "plus".toList
  | operator => "operator".toList
  | eos => "eos".toList

def ofName? (t : Text) : Option Kind := all.find? fun k => k.name = t

/-- The kind's name in capitals, as a constant. -/
def constant (k : Kind) : Text := k.name.map Char.toUpper

/-- Axis names and double colons: no space follows a segment of these kinds, so that
`child::para` stays without a gap. -/
def isGlued (k : Kind) : Bool := k = axisName || k = dcolon

theorem ofName?_name (k : Kind) : ofName? k.name = some k := by
  cases k <;> decide

end Kind

end XPathAssembly
