import XPathAssembly.Number.Written
import XPathAssembly.Store.Basic
import XPathAssembly.Text.Indent

/-!
# Listings

A listing shows a value over several lines: lists one element a line between brackets, and entities
one property a line, each level one margin further in.  A chain is listed as the list of its
expressions, each the list of its segments.  Floating-point numbers are not listed.

The texts in a value have no lone surrogates: those of a chain are names of kinds and of marks, and
what its segments say is bytes.  A surrogate would be listed by its code, on the same line.
-/

namespace XPathAssembly

namespace Listing

inductive Value where
  | nothing
  | bool (b : Bool)
  | integer (n : Int)
  | float (x : Binary)
  | text (t : Text)
  | bytes (bs : Bytes)
  | list (xs : List Value)
  | entity (name : Text) (properties : List (Text × Value))

/-- The texts on lines of their own, with a comma after each but the last. -/
def onLines (ts : List Text) : Text := [',', '\n'].intercalate ts

def boolText (b : Bool) : Text := (if b then "True" else "False").toList

namespace Value

mutual

/-- The listing of a value, or the first number in it that cannot be listed. -/
def print : Value → Except Binary Text
  | nothing => .ok "None".toList
  | bool b => .ok (boolText b)
  | integer n => .ok (decimal n)
  | float x => .error x
  | text t => .ok (Quoted.text t)
  | bytes bs => .ok (Quoted.bytes bs)
  | list [] => .ok ['[', ']']
  | list xs => do
    return '[' :: '\n' :: onLines (← printElements xs) ++ [']']
  | entity name [] => .ok (name ++ ['(', ')'])
  | entity name properties => do
    return name ++ '(' :: '\n' :: onLines (← printProperties properties) ++ [')']

def printElements : List Value → Except Binary (List Text)
  | [] => .ok []
  | x :: rest => do
    let t ← print x
    return indent margin t :: (← printElements rest)

def printProperties : List (Text × Value) → Except Binary (List Text)
  | [] => .ok []
  | (name, x) :: rest => do
    let t ← print x
    return (margin ++ name ++ '=' :: hang margin t) :: (← printProperties rest)

end

mutual

/-- A value on one line, but for the entities in it, which are listed as they are. -/
def shown : Value → Except Binary Text
  | nothing => .ok "None".toList
  | bool b => .ok (boolText b)
  | integer n => .ok (decimal n)
  | float x => .ok x.written
  | text t => .ok (Quoted.text t)
  | bytes bs => .ok (Quoted.bytes bs)
  | list xs => do return '[' :: [',', ' '].intercalate (← shownAll xs) ++ [']']
  | entity name properties => print (entity name properties)

def shownAll : List Value → Except Binary (List Text)
  | [] => .ok []
  | x :: rest => do
    let t ← shown x
    return t :: (← shownAll rest)

end

end Value

/-- What is wrong with a value that holds this number. -/
def unlisted (x : Binary) : Text := "Unhandled value: ".toList ++ x.written ++ " (float)".toList

end Listing

/-! ## Chains -/

open Listing

/-- A segment as an entity. -/
def Segment.listing (g : Segment) : Value :=
  .entity "Segment".toList
    [("text".toList, .bytes g.text), ("kind".toList, .text g.kind.name),
     ("quote_flags".toList, .list (g.marks.names.map .text))]

namespace Store

/-- The segments at the handles. -/
def segmentsAt (s : Store) : List Handle → Except Fault (List Segment)
  | [] => .ok []
  | h :: rest => do
    let g ← s.segmentOf h
    return g :: (← s.segmentsAt rest)

/-- The segments of the expressions at the heads. -/
def expressionsAt (s : Store) : List Handle → Except Fault (List (List Segment))
  | [] => .ok []
  | h :: rest => do
    let gs ← s.segmentsAt (s.walk .next (some h))
    return gs :: (← s.expressionsAt rest)

/-- The segments of each expression of the concatenation at `head`. -/
def concatenation (s : Store) (head : Option Handle) : Except Fault (List (List Segment)) := do
  if !s.isChain head then throw .dead
  s.expressionsAt (s.walk .sibling head)

/-- The list of the expressions, each the list of its segments. -/
def chainListing (expressions : List (List Segment)) : Value :=
  .list (expressions.map fun e => .list (e.map Segment.listing))

/-- The listing of the concatenation at `head`.  Nothing in it is a number. -/
def listing (s : Store) (head : Option Handle) : Except Fault Text := do
  let expressions ← s.concatenation head
  return ((chainListing expressions).print.toOption).getD []

end Store

end XPathAssembly
