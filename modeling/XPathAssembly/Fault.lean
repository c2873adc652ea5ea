import XPathAssembly.Text.Basic

/-!
# Faults

What can be wrong with a call: each operation of the library names the fault it stops with, and the
state it leaves is the state reached so far.  `Fault.message?` is the wording of those faults that
have one.
-/

namespace XPathAssembly

/-- The two links of a segment: to the next segment of its expression, and to the next expression
of the concatenation. -/
inductive Direction where
  | next
  | sibling
deriving DecidableEq, Repr

inductive Fault where
  /-- A handle that has to designate a live segment does not. -/
  | dead
  /-- The link would close a cycle. -/
  | cycle (d : Direction)
  /-- The segment still has a link. -/
  | linked
  /-- The end of the chain under construction has been linked further. -/
  | extended
  /-- A statement terminator, where a segment is to be made. -/
  | terminator
  /-- A text that cannot be encoded, with a lone surrogate at the index. -/
  | encoding (index : Nat)
  /-- The token is not a range of the source. -/
  | range
  /-- A quoted token without matching quotes at its ends. -/
  | unquoted
  /-- The bytes do not fit into the buffer. -/
  | full
  /-- Nothing has been written. -/
  | empty
  /-- A capacity below zero. -/
  | capacity
  /-- A code point or a count of digits that no escape can have. -/
  | escape
  /-- A message that would break the layout of a report. -/
  | layout
  /-- A path that is no file. -/
  | noFile
  /-- A number that designates no cell of the store. -/
  | unallocated
  /-- A position outside the source. -/
  | outside
  /-- A number too large for any position. -/
  | tooLarge
deriving DecidableEq, Repr

namespace Fault

/-- Whether a number can count positions: it has 64 bits with its sign. -/
def isPosition (n : Int) : Bool := -9223372036854775808 ≤ n && n ≤ 9223372036854775807

/-- The fault of looking at a position where there is nothing. -/
def lookingAt (n : Int) (f : Fault) : Fault := if isPosition n then f else tooLarge

/-- The condition that was broken, or what else is wrong, where it has a wording. -/
def message? : Fault → Option Text
  | cycle .next => some "No cycles along the next links".toList
  | cycle .sibling => some "No cycles along the sibling links".toList
  | linked => some "Links cleared before the release".toList
  | extended => some "Cursor points to the tail".toList
  | unquoted => some "Quoted tokens are delimited by matching quotes".toList
  | full => some "No write beyond the reserved capacity".toList
  | unallocated => some "list index out of range".toList
  | outside => some "string index out of range".toList
  | tooLarge => some "cannot fit 'int' into an index-sized integer".toList
  | _ => none

end Fault

end XPathAssembly
