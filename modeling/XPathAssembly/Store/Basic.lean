import XPathAssembly.Segment
import XPathAssembly.Text.Point

/-!
# The store of segments

All segments of a compilation live in the cells of one store and are designated by the numbers of
their cells, their handles.  A cell also holds the two links of its segment.  A removed segment
leaves its cell vacant, and the cell vacated last is the first to be used again.

Every call checks its conditions first and changes one cell.  A call that stops with a fault leaves
the store as it is.

That a link closes no cycle is the one condition that a compilation may choose not to have checked,
since the check walks the whole chain.  Here it is always checked.  That links never close a cycle
rests on it; the consistency of the store does not, for `Sound.withLink` takes a link to anywhere.
-/

namespace XPathAssembly

/-- The number of a cell, counted from 0.  A link may also be looked up by a negative number,
which counts from the end; no segment is ever live under it. -/
abbrev Handle := Int

/-- Calls on a state of type `σ`; each ends with an answer or a fault, and leaves a state. -/
abbrev Call (σ : Type) := EStateM Fault σ

structure Cell where
  segment? : Option Segment
  next? : Option Handle := none
  sibling? : Option Handle := none
deriving DecidableEq, Repr

namespace Cell

def link? (c : Cell) : Direction → Option Handle
  | .next => c.next?
  | .sibling => c.sibling?

def setLink (c : Cell) (d : Direction) (target : Option Handle) : Cell :=
  match d with
  | .next => { c with next? := target }
  | .sibling => { c with sibling? := target }

@[simp] theorem link?_setLink (c : Cell) (d e : Direction) (target : Option Handle) :
    (c.setLink d target).link? e = if d = e then target else c.link? e := by
  cases d <;> cases e <;> rfl

@[simp] theorem segment?_setLink (c : Cell) (d : Direction) (target : Option Handle) :
    (c.setLink d target).segment? = c.segment? := by
  cases d <;> rfl

end Cell

/-- The cells, and the vacant ones among them, the last vacated first. -/
structure Store where
  cells : Array Cell := #[]
  vacant : List Handle := []
deriving DecidableEq, Repr

namespace Store

/-! ## Looking up -/

/-- The position of the cell that a number designates. -/
def index? (s : Store) (h : Handle) : Option Nat :=
  if 0 ≤ h then if h < s.cells.size then some h.toNat else none
  else if -h ≤ s.cells.size then some (s.cells.size - (-h).toNat) else none

def cell? (s : Store) (h : Handle) : Option Cell := (s.index? h).bind fun i => s.cells[i]?

/-- The live segment of a handle. -/
def get? (s : Store) (h : Handle) : Option Segment :=
  if 0 ≤ h then (s.cell? h).bind Cell.segment? else none

def isLive (s : Store) (h : Handle) : Bool := (s.get? h).isSome

/-- The link in the cell of `h`, live or not. -/
def link? (s : Store) (d : Direction) (h : Handle) : Option Handle := (s.cell? h).bind (·.link? d)

/-- The number of live segments. -/
def size (s : Store) : Nat := s.cells.size - s.vacant.length

/-- The live segment of `h`. -/
def segmentOf (s : Store) (h : Handle) : Except Fault Segment :=
  match s.get? h with
  | some g => .ok g
  | none => .error .dead

/-- The link of the live segment of `h`. -/
def linkOf (s : Store) (d : Direction) (h : Handle) : Except Fault (Option Handle) :=
  if s.isLive h then .ok (s.link? d h) else .error .dead

/-- `none` designates the empty chain, and any other head has to be live. -/
def isChain (s : Store) (head : Option Handle) : Bool := head.all s.isLive

/-! ## Walking -/

/-- The handles from `head` along the links of one direction, at most `n` of them. -/
def follow (s : Store) (d : Direction) : Nat → Option Handle → List Handle
  | 0, _ => []
  | _, none => []
  | n + 1, some h => h :: s.follow d n (s.link? d h)

/-- The handles from `head` along the links of one direction.  Links that close no cycle lead
through each cell once, so the number of cells bounds the walk. -/
def walk (s : Store) (d : Direction) (head : Option Handle) : List Handle :=
  s.follow d (s.cells.size + 1) head

/-- The last handle of a walk. -/
def last (s : Store) (d : Direction) (h : Handle) : Handle := (s.walk d (some h)).getLastD h

/-- `walk` for any number: one that designates no cell has no links to follow. -/
def walkFrom (s : Store) (d : Direction) : Option Handle → Except Fault (List Handle)
  | none => .ok []
  | some h =>
    if (s.index? h).isSome then .ok (s.walk d (some h)) else .error (.lookingAt h .unallocated)

/-- The handle at the end of the expression of a live segment. -/
def tailOf (s : Store) (h : Handle) : Except Fault Handle :=
  if s.isLive h then .ok (s.last .next h) else .error .dead

/-! ## Calls -/

/-- Stops unless `h` is live. -/
def require (h : Handle) : Call Store Unit := do
  if !(← get).isLive h then throw .dead

def modifyCell (s : Store) (h : Handle) (f : Cell → Cell) : Store :=
  { s with cells := s.cells.modify h.toNat f }

/-- The store with a link of `h` set. -/
def withLink (s : Store) (d : Direction) (h : Handle) (target : Option Handle) : Store :=
  s.modifyCell h (·.setLink d target)

/-- The store without the segment of `h`, whose cell is now the one vacated last. -/
def vacate (s : Store) (h : Handle) : Store :=
  { s.modifyCell h ({ · with segment? := none }) with vacant := h :: s.vacant }

/-- Puts a segment into the cell vacated last, or into a new one. -/
def insert (g : Segment) : Call Store Handle := fun s =>
  match s.vacant with
  | h :: rest => .ok h ({ s with vacant := rest }.modifyCell h ({ · with segment? := some g }))
  | [] => .ok s.cells.size { s with cells := s.cells.push { segment? := some g } }

/-- Refuses a link from `h` to `target` that would close a cycle. -/
def checkAcyclic (s : Store) (d : Direction) (h target : Handle) : Except Fault Unit :=
  if h ∈ s.walk d (some target) then .error (.cycle d)
  else if (s.index? target).isNone then .error (.lookingAt target .unallocated) else .ok ()

/-- Sets a link of `h`; the cycle is looked for before the two ends are. -/
def connect (d : Direction) (h : Handle) (target : Option Handle) : Call Store Unit := do
  if let some t := target then
    let s ← get
    match s.checkAcyclic d h t with
    | .error f => throw f
    | .ok () => require t
  require h
  modify (·.withLink d h target)

/-- Clears a link of `h` and answers where it led. -/
def cut (d : Direction) (h : Handle) : Call Store (Option Handle) := do
  require h
  let target := (← get).link? d h
  modify (·.withLink d h none)
  return target

/-- Removes the segment of `h`, which has to be without links. -/
def remove (h : Handle) : Call Store Unit := do
  require h
  let s ← get
  if (s.link? .next h).isSome || (s.link? .sibling h).isSome then throw .linked
  modify (·.vacate h)

/-- A segment of a text without escapes. -/
def insertText (t : Text) (kind : Kind) : Call Store Handle :=
  if kind = .eos then throw .terminator else insert (.ofText t kind)

/-- `insertText` for a text that may have lone surrogates; the kind is looked at before the text. -/
def insertPoints (t : List Point) (kind : Kind) : Call Store Handle :=
  match Point.toText? t with
  | .ok t => insertText t kind
  | .error index => throw (if kind = .eos then .terminator else .encoding index)

theorem insertPoints_ofText (t : Text) (kind : Kind) :
    insertPoints (Point.ofText t) kind = insertText t kind := by
  unfold insertPoints
  rw [Point.toText?_ofText]

/-- The segment of a token, if it has one. -/
def insertToken (source : Text) (r : Token.Range) (kind : Kind) : Call Store (Option Handle) :=
  match Token.segment? source r kind with
  | .error f => throw f
  | .ok none => return none
  | .ok (some g) => some <$> insert g

end Store

end XPathAssembly
