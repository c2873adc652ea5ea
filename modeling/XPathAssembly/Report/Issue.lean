import XPathAssembly.Text.Indent
import XPathAssembly.Text.Quoted

/-!
# Issues

An issue of the input has a message, perhaps a location, and perhaps issues that lie beneath it.
Its text is the headline with the texts of the issues beneath it on the lines after, one margin
further in.

Messages and locations are texts, without lone surrogates: what they cite of an input is quoted,
and a quoted literal has the code of a surrogate in its place (`Quoted.points`).
-/

namespace XPathAssembly

structure Issue where
  location : Option Text := none
  message : Text
  causes : Option (List Issue) := none

namespace Issue

/-- The message, after the location if there is one. -/
def headlineOf (location : Option Text) (message : Text) : Text :=
  match location with
  | none => message
  | some l => "At ".toList ++ l ++ ": ".toList ++ message

mutual

def text : Issue → Text
  | ⟨location, message, none⟩ => headlineOf location message
  | ⟨location, message, some causes⟩ =>
    match causes with
    | [] => headlineOf location message
    | causes => headlineOf location message ++ '\n' :: ['\n'].intercalate (indentedTexts causes)

/-- The texts of issues beneath another one. -/
def indentedTexts : List Issue → List Text
  | [] => []
  | i :: rest => indent margin (text i) :: indentedTexts rest

end

/-! ## Listing the fields -/

def shownLocation : Option Text → Text
  | none => "None".toList
  | some l => Quoted.text l

mutual

/-- The issue as an expression that builds it. -/
def shown : Issue → Text
  | ⟨location, message, causes⟩ =>
    "Error(location=".toList ++ shownLocation location ++ ", message=".toList ++
      Quoted.text message ++ ", underlying=".toList ++
      (match causes with
        | none => "None".toList
        | some causes => '[' :: [',', ' '].intercalate (shownAll causes) ++ [']']) ++ [')']

def shownAll : List Issue → List Text
  | [] => []
  | i :: rest => shown i :: shownAll rest

end

end Issue

end XPathAssembly
