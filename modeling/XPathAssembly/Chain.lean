import XPathAssembly.Store.Discard

/-!
# Joining chains

Chains are joined end to end, along the next links into one expression, or along the sibling links
into one concatenation.  A cursor keeps the ends of an expression that grows chunk by chunk, with
the concatenation operator between the chunks.
-/

namespace XPathAssembly

/-- The first and the last handle of a chain. -/
structure Ends where
  first : Handle
  last : Handle
deriving DecidableEq, Repr

namespace Store

/-- Attaches the chain at `head` to the chain built so far, if there is one. -/
def extend (d : Direction) (ends : Option Ends) (head : Handle) : Call Store Ends := do
  if let some e := ends then connect d e.last (some head)
  let last := (← get).last d head
  return ⟨(ends.map Ends.first).getD head, last⟩

/-- Joins the chains at the heads, in order. -/
def extendAll (d : Direction) (ends : Option Ends) : List Handle → Call Store (Option Ends)
  | [] => return ends
  | h :: rest => do
    let e ← extend d ends h
    extendAll d (some e) rest

/-- The expressions at the heads as one concatenation; absent heads are passed over. -/
def concatenate (heads : List (Option Handle)) : Call Store (Option Handle) := do
  if !heads.all (← get).isChain then throw .dead
  return (← extendAll .sibling none (heads.filterMap id)).map Ends.first

end Store

/-! ## Cursors -/

/-- A growing expression, of which both ends are known. -/
structure Cursor where
  ends : Option Ends := none
deriving DecidableEq, Repr

namespace Cursor

/-- The text of the operator between two chunks. -/
def operator : Text := ['_']

def isEmpty (c : Cursor) : Bool := c.ends.isNone

def shownHandle : Option Handle → Text
  | none => "None".toList
  | some h => decimal h

/-- The cursor as an expression that builds it. -/
def describe (c : Cursor) : Text :=
  "TailCursor(head=".toList ++ shownHandle (c.ends.map Ends.first) ++ ", tail=".toList ++
    shownHandle (c.ends.map Ends.last) ++ [')']

/-- Links `h` after the last segment. -/
def attach (c : Cursor) (h : Handle) : Call Store Cursor := do
  Store.require h
  match c.ends with
  | none => return ⟨some ⟨h, h⟩⟩
  | some e =>
    Store.connect .next e.last (some h)
    return ⟨some ⟨e.first, h⟩⟩

end Cursor

end XPathAssembly
