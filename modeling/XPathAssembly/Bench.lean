import XPathAssembly.Chain

/-!
# Slots and cursors

The store of a compilation together with what owns its chains: the slots of the parser's stack, each
holding the head of a chain or nothing, and the cursors of the expressions that grow chunk by chunk.
Both are designated by the order in which they were made.

What a call has done before it stops with a fault stays done.
-/

namespace XPathAssembly

/-- The head of a chain, or nothing. -/
abbrev Slot := Option Handle

structure Bench where
  store : Store := {}
  slots : Array Slot := #[]
  cursors : Array Cursor := #[]
deriving DecidableEq, Repr

namespace Bench

/-- A call on the store. -/
def onStore {α : Type} (call : Call Store α) : Call Bench α := fun b =>
  match call b.store with
  | .ok a store => .ok a { b with store }
  | .error f store => .error f { b with store }

/-! ## Slots -/

/-- What a slot holds. -/
def slot (i : Nat) : Call Bench Slot := do
  match (← get).slots[i]? with
  | some slot => return slot
  | none => throw .unallocated

def setSlot (i : Nat) (slot : Slot) : Call Bench Unit :=
  modify fun b => { b with slots := b.slots.setIfInBounds i slot }

/-- Empties a slot and answers what it held. -/
def take (i : Nat) : Call Bench Slot := do
  let held ← slot i
  setSlot i none
  return held

/-- A new slot, and its number. -/
def addSlot (slot : Slot) : Call Bench Nat :=
  modifyGet fun b => (b.slots.size, { b with slots := b.slots.push slot })

/-- What the slots hold, in the order asked for. -/
def slotList : List Nat → Call Bench (List Slot)
  | [] => return []
  | i :: rest => do
    let held ← slot i
    return held :: (← slotList rest)

/-- Joins what the slots hold, taking each chain as its turn comes. -/
def joinFrom (ends : Option Ends) : List Nat → Call Bench (Option Ends)
  | [] => return ends
  | i :: rest => do
    match ← take i with
    | none => joinFrom ends rest
    | some h =>
      let e ← onStore (Store.extend .next ends h)
      joinFrom (some e) rest

/-- The chains of the slots as one expression; the slots are left empty. -/
def join (slots : List Nat) : Call Bench (Option Handle) := do
  let held ← slotList slots
  if !held.all (← get).store.isChain then throw .dead
  return (← joinFrom none slots).map Ends.first

/-! ## Cursors -/

def cursor (i : Nat) : Call Bench Cursor := do
  match (← get).cursors[i]? with
  | some c => return c
  | none => throw .unallocated

def addCursor : Call Bench Nat :=
  modifyGet fun b => (b.cursors.size, { b with cursors := b.cursors.push {} })

/-- Links `h` after the last segment of a cursor's expression. -/
def attach (i : Nat) (h : Handle) : Call Bench Unit := do
  let c ← cursor i
  let c ← onStore (c.attach h)
  modify fun b => { b with cursors := b.cursors.setIfInBounds i c }

/-- A new segment after the last one of a cursor's expression. -/
def attachNew (i : Nat) (insert : Call Store Handle) : Call Bench Handle := do
  let h ← onStore insert
  attach i h
  return h

def attachText (i : Nat) (t : Text) (kind : Kind) : Call Bench Handle :=
  attachNew i (Store.insertText t kind)

/-- The operator after the last segment of a cursor's expression, if there is one. -/
def separate (i : Nat) : Call Bench Unit := do
  let c ← cursor i
  if let some e := c.ends then
    let s := (← get).store
    if !s.isLive e.last then throw .dead
    if (s.link? .next e.last).isSome then throw .extended
    discard <| attachText i Cursor.operator .underscore

/-- Appends a chunk to a cursor's expression, after an operator if it is not the first. -/
def append (i : Nat) (t : Text) (kind : Kind) : Call Bench Handle := do
  separate i
  attachText i t kind

/-- `append` for a text that may have lone surrogates. -/
def appendPoints (i : Nat) (t : List Point) (kind : Kind) : Call Bench Handle := do
  separate i
  attachNew i (Store.insertPoints t kind)

theorem appendPoints_ofText (i : Nat) (t : Text) (kind : Kind) :
    appendPoints i (Point.ofText t) kind = append i t kind := by
  unfold appendPoints append attachText
  rw [Store.insertPoints_ofText]

end Bench

end XPathAssembly
