import XPathAssembly.Store.Basic

/-!
# Discarding chains

A chain is discarded in both directions: of each segment first what hangs on its sibling link, then
the segment itself, then what hangs on its next link.  Links are cut as they are followed, so that
a segment reached a second time is found dead and the call stops there.
-/

namespace XPathAssembly

namespace Store

/-- One round: cuts the sibling link of `h`, which waits until its siblings are gone, or removes `h`
if it has none.  Answers what is to be discarded next. -/
def discardRound (h : Handle) (pending : List Handle) : Call Store (List Handle) := do
  match ← cut .sibling h with
  | some sibling => return sibling :: h :: pending
  | none =>
    let next ← cut .next h
    remove h
    return next.toList ++ pending

/-- Works off the handles still to be discarded, the first one first, in at most `n` rounds. -/
def discardFrom : Nat → List Handle → Call Store Unit
  | 0, _ => return
  | _, [] => return
  | n + 1, h :: pending => do discardFrom n (← discardRound h pending)

/-- Discards the chain at `head`.  Each round cuts a sibling link or removes a segment, so twice
the number of cells bounds the rounds. -/
def discard : Option Handle → Call Store Unit
  | none => return
  | some h => do
    require h
    discardFrom (2 * (← get).cells.size + 1) [h]

end Store

end XPathAssembly
