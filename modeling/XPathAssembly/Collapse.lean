import XPathAssembly.Bench
import XPathAssembly.Layout.Expression

/-!
# Collapsing an expression

An expression is collapsed into one segment.  A lone segment that needs no quotes is handed over as
it is; of anything else the text is laid out, with quotes, into a new segment, and the chain stays
where it is.
-/

namespace XPathAssembly

/-- The segment that stands for an expression, and what is left to its former owner. -/
structure Collapsed where
  handle : Handle
  left : Option Handle
deriving DecidableEq, Repr

namespace Store

/-- The kind of the segment if the expression at `head` is only one. -/
def loneKind? (s : Store) (head : Option Handle) : Option Kind := do
  let h ← head
  let g ← s.get? h
  if (s.link? .next h).isSome then none else some g.kind

/-- Collapses the expression at `head` into a segment of the kind, or into a literal if it is one
literal. -/
def collapse (head : Option Handle) (kind : Kind) : Call Store Collapsed := do
  if kind = .eos then throw .terminator
  let s ← get
  if !s.isChain head then throw .dead
  match head, s.loneKind? head with
  | some h, some lone =>
    if lone = .quoted then make s .quoted else return ⟨h, none⟩
  | _, _ => make s kind
where
  /-- A new segment with the text of the expression. -/
  make (s : Store) (kind : Kind) : Call Store Collapsed := do
    match s.expression head { quotes := true } with
    | .error f => throw f
    | .ok text => return ⟨← insert (.ofBytes text kind), head⟩

end Store

/-- Collapses what a slot holds; the slot is left with what was not handed over. -/
def Bench.collapse (slot : Nat) (kind : Kind) : Call Bench Handle := do
  let head ← Bench.slot slot
  let c ← onStore (Store.collapse head kind)
  setSlot slot c.left
  return c.handle

end XPathAssembly
