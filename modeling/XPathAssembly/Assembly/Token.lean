import XPathAssembly.Json.Value
import XPathAssembly.Report.Issue
import XPathAssembly.Segment

/-!
# Tokens of the input

The input is a list of expressions, each a list of tokens, and each token a list of two strings: the
name of its kind and its text.  Reading it names every fault at its place: all expressions that are
no lists, and all tokens that are not as they should be.
-/

namespace XPathAssembly

namespace Assembly

/-- A token as it stands in the input. -/
structure Token where
  kind : Kind
  text : Text
deriving DecidableEq, Repr

/-- What is wrong with a token. -/
inductive Defect where
  | shape (token : Json)
  | kind (name : List Point)
  | encoding (index : Nat) (text : List Point)
  | quotes (text : Text)

/-! ## Wording -/

/-- The names of all kinds in alphabetical order. -/
def kindNames : List Text := (Kind.all.map Kind.name).mergeSort inOrder

def shownKindNames : Text := Json.enclosed '[' ']' (kindNames.map Quoted.text)

def Defect.message : Defect → Text
  | shape token => "Expected a token as a [kind, text] pair, but got: ".toList ++ token.shown
  | kind name =>
    "Unexpected token kind ".toList ++ Quoted.points name ++ "; expected one of: ".toList ++
      shownKindNames
  | encoding index text =>
    "Expected a token text encodable in UTF-8, but the character at index ".toList ++
      decimal index ++ " is not: ".toList ++ Quoted.points text
  | quotes text =>
    "Expected a quoted token delimited by matching quotes, but got: ".toList ++ Quoted.text text

/-- The place of an expression, and of a token in it, both counted from 0. -/
def expressionPlace (i : Nat) : Text := "expressions[".toList ++ decimal i ++ [']']

def tokenPlace (i j : Nat) : Text := expressionPlace i ++ '[' :: decimal j ++ [']']

/-! ## Reading -/

/-- Whether a text has matching quotes at its ends. -/
def isDelimited : Text → Bool
  | [] => false
  | first :: rest => XPathAssembly.Token.isMark first && rest.getLast? == some first

/-- The kind of a name. -/
def kindOf? (name : List Point) : Option Kind :=
  match Point.toText? name with
  | .ok name => Kind.ofName? name
  | .error _ => none

def readToken : Json → Except Defect Token
  | .array [.string name, .string text] =>
    match kindOf? name with
    | none => .error (.kind name)
    | some kind =>
      match Point.toText? text with
      | .error index => .error (.encoding index text)
      | .ok t => if kind = .quoted && !isDelimited t then .error (.quotes t) else .ok ⟨kind, t⟩
  | token => .error (.shape token)

/-- All results, or all issues in order. -/
def gather {α : Type} : List (Except (List Issue) α) → Except (List Issue) (List α)
  | [] => .ok []
  | .ok a :: rest =>
    match gather rest with
    | .ok as => .ok (a :: as)
    | .error issues => .error issues
  | .error issues :: rest =>
    match gather rest with
    | .ok _ => .error issues
    | .error more => .error (issues ++ more)

/-- The token at a place. -/
def readTokenAt (i j : Nat) (x : Json) : Except (List Issue) Token :=
  match readToken x with
  | .ok t => .ok t
  | .error d => .error [{ location := some (tokenPlace i j), message := d.message }]

/-- The tokens of the `i`-th expression. -/
def readExpression (i : Nat) : Json → Except (List Issue) (List Token)
  | .array tokens => gather (tokens.mapIdx (readTokenAt i))
  | _ =>
    .error [{ location := some (expressionPlace i),
              message := "Expected a list of tokens as an expression".toList }]

def noExpressions : Issue where
  message := "Expected a non-empty list of expressions at the top level".toList

def readExpressions : Json → Except (List Issue) (List (List Token))
  | .array [] => .error [noExpressions]
  | .array expressions => gather (expressions.mapIdx readExpression)
  | _ => .error [noExpressions]

end Assembly

end XPathAssembly
