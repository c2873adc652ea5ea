import XPathAssembly.Number.Written
import XPathAssembly.Text.Quoted

/-!
# JSON values

A JSON value with exact numbers and with the strings as points, since their escapes may name lone
surrogates.  The members of an object stand in the order of their first occurrence and have the
value of the last one.  `Json.shown` is how a value appears in an error message, always on one line.
-/

namespace XPathAssembly

inductive Json where
  | null
  | bool (b : Bool)
  | integer (n : Int)
  | float (x : Binary)
  | string (s : List Point)
  | array (xs : List Json)
  | object (members : List (List Point × Json))

namespace Json

/-- A member put into an object: its key keeps its place. -/
def putMember (key : List Point) (value : Json) :
    List (List Point × Json) → List (List Point × Json)
  | [] => [(key, value)]
  | (k, v) :: rest => if k = key then (k, value) :: rest else (k, v) :: putMember key value rest

/-- The value of a key. -/
def member? (key : Text) : Json → Option Json
  | object members => (members.find? fun m => m.1 = Point.ofText key).map (·.2)
  | _ => none

/-- Texts between an opening and a closing character, with a comma and a space between them. -/
def enclosed (opening closing : Char) (ts : List Text) : Text :=
  opening :: [',', ' '].intercalate ts ++ [closing]

mutual

def shown : Json → Text
  | null => "None".toList
  | bool b => (if b then "True" else "False").toList
  | integer n => decimal n
  | float x => x.written
  | string s => Quoted.points s
  | array xs => enclosed '[' ']' (shownAll xs)
  | object members => enclosed '\x7b' '\x7d' (shownMembers members)

def shownAll : List Json → List Text
  | [] => []
  | x :: rest => shown x :: shownAll rest

def shownMembers : List (List Point × Json) → List Text
  | [] => []
  | (k, v) :: rest => (Quoted.points k ++ ':' :: ' ' :: shown v) :: shownMembers rest

end

end Json

end XPathAssembly
