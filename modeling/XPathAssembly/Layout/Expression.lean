import XPathAssembly.Layout.Buffer
import XPathAssembly.Layout.Spacing
import XPathAssembly.Layout.Style

/-!
# Laying out an expression

An expression is laid out in two passes: the first reserves the bytes it may need, the second
writes it into a buffer of that capacity.  A space is written after each segment whose kind allows
one, and taken back when the next segment is glued to what stands before it; the space after the
last segment is taken back too.  Only bytes of the expression itself are looked at, so that it is
laid out alike wherever it stands in the buffer.
-/

namespace XPathAssembly

namespace Buffer

/-- The `k`-th byte from the end, if it was written after the first `start` ones. -/
def back? (b : Buffer) (start k : Nat) : Option UInt8 :=
  if start + k ≤ b.size then b.bytes[b.size - k]? else none

/-- The gap between what was written after the first `start` bytes and the next segment. -/
def gap (b : Buffer) (start : Nat) (g : Segment) : Gap where
  previous := b.back? start 2
  beforePrevious := b.back? start 3
  following := g.text.head?
  kind := g.kind
  afterMinus := b.size = start + 2 && b.bytes[start]? == some (byteOf '-')

/-- Whether a space stands before the next segment that has to be taken back. -/
def closesBefore (b : Buffer) (start : Nat) (g : Segment) : Bool :=
  start + 1 < b.size && b.back? start 1 == some space && (b.gap start g).closes

/-- Writes a segment of the expression that begins at `start`. -/
def place (style : Style) (start : Nat) (g : Segment) : Call Buffer Unit := do
  if (← get).closesBefore start g then dropLast
  writeAll (g.writes style)
  if !g.kind.isGlued then write [space]

end Buffer

namespace Store

/-- Writes the segments at the handles; `separated` tells whether a space was written last. -/
def placeAll (s : Store) (style : Style) (start : Nat) (separated : Bool) :
    List Handle → Call Buffer Unit
  | [] => if separated then Buffer.dropLast else return
  | h :: rest =>
    match s.get? h with
    | none => throw .dead
    | some g => do
      Buffer.place style start g
      s.placeAll style start (!g.kind.isGlued) rest

/-- Writes the expression at `head` and answers the number of its bytes. -/
def layOut (s : Store) (head : Option Handle) (style : Style) : Call Buffer Nat := do
  if !s.isChain head then throw .dead
  let start := (← get).size
  s.placeAll style start false (s.walk .next head)
  return (← get).size - start

/-- The bytes to reserve for the segments at the handles. -/
def reserveAll (s : Store) (style : Style) : List Handle → Except Fault Nat
  | [] => .ok 0
  | h :: rest => do
    let g ← s.segmentOf h
    return g.reserve style + (← s.reserveAll style rest)

/-- The bytes to reserve for the expression at `head`, one for a terminator included. -/
def measure (s : Store) (head : Option Handle) (style : Style) : Except Fault Nat := do
  if !s.isChain head then throw .dead
  return (← s.reserveAll style (s.walk .next head)) + 1

end Store

/-- What the writes of a call produce in a buffer of the given capacity. -/
def written {α : Type} (capacity : Nat) (call : Call Buffer α) : Except Fault Bytes :=
  match call { capacity } with
  | .ok _ b => .ok b.toList
  | .error f _ => .error f

/-- The text of the expression at `head`. -/
def Store.expression (s : Store) (head : Option Handle) (style : Style) : Except Fault Bytes := do
  written (← s.measure head style) (s.layOut head style)

end XPathAssembly
