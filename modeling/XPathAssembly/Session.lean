import XPathAssembly.Bench
import XPathAssembly.Collapse
import XPathAssembly.Layout.Concatenation
import XPathAssembly.Listing

/-!
# Sessions

A session is a bench with buffers, worked on step by step.  Every step ends with a reply or a fault,
and the next one goes on from the state it leaves.  Slots, cursors and buffers are designated by the
order in which they were made.

A text of which a segment is made may have lone surrogates (`insertPoints`, `appendPoints`).  The
source of a token has none, which is one of the things that the reader of the tokens makes sure of.
-/

namespace XPathAssembly

structure Session where
  bench : Bench := {}
  buffers : Array Buffer := #[]
deriving DecidableEq, Repr

inductive Step where
  | insertToken (source : Text) (range : Token.Range) (kind : Kind)
  | insertText (text : Text) (kind : Kind)
  | insertPoints (text : List Point) (kind : Kind)
  | insert (segment : Segment)
  | segment (h : Handle)
  | describe (h : Handle)
  | isLive (h : Handle)
  | linkOf (d : Direction) (h : Handle)
  | connect (d : Direction) (h : Handle) (target : Option Handle)
  | cut (d : Direction) (h : Handle)
  | remove (h : Handle)
  | discard (head : Option Handle)
  | walk (d : Direction) (head : Option Handle)
  | tailOf (h : Handle)
  | addSlot (head : Option Handle)
  | take (slot : Nat)
  | slots
  | join (slots : List Nat)
  | concatenate (heads : List (Option Handle))
  | addCursor
  | cursor (cursor : Nat)
  | append (cursor : Nat) (text : Text) (kind : Kind)
  | appendPoints (cursor : Nat) (text : List Point) (kind : Kind)
  | attach (cursor : Nat) (h : Handle)
  | addBuffer (capacity : Int)
  | write (buffer : Nat) (data : Bytes)
  | dropLast (buffer : Nat)
  | byteAt (buffer : Nat) (i : Int)
  | buffer (buffer : Nat)
  | layOut (buffer : Nat) (head : Option Handle) (style : Style)
  | measure (head : Option Handle) (style : Style)
  | expression (head : Option Handle) (style : Style)
  | concatCall (head : Option Handle) (style : Style)
  | template (head : Option Handle) (style : Style)
  | isLone (h : Handle) (kind : Kind)
  | collapse (slot : Nat) (kind : Kind)
  | listing (head : Option Handle)
  | cells
deriving DecidableEq, Repr

inductive Reply where
  | done
  | handle (h : Option Handle)
  | handles (hs : List Handle)
  | slots (heads : List Slot)
  | flag (b : Bool)
  | number (n : Nat)
  | byte (b : Option UInt8)
  | bytes (bs : Bytes)
  | text (t : Text)
  | segment (g : Segment)
  | cursor (c : Cursor)
  | buffer (b : Buffer)
  | cells (cs : List Cell)
deriving DecidableEq, Repr

namespace Session

/-! ## Calls on the parts -/

def onBench {α : Type} (call : Call Bench α) : Call Session α := fun s =>
  match call s.bench with
  | .ok a bench => .ok a { s with bench }
  | .error f bench => .error f { s with bench }

def onStore {α : Type} (call : Call Store α) : Call Session α := onBench (Bench.onStore call)

/-- An answer that only looks at the store. -/
def ofStore {α : Type} (f : Store → Except Fault α) : Call Session α := do
  match f (← get).bench.store with
  | .ok a => return a
  | .error fault => throw fault

def onBuffer {α : Type} (i : Nat) (call : Call Buffer α) : Call Session α := fun s =>
  match s.buffers[i]? with
  | none => .error .unallocated s
  | some b =>
    match call b with
    | .ok a b => .ok a { s with buffers := s.buffers.setIfInBounds i b }
    | .error f b => .error f { s with buffers := s.buffers.setIfInBounds i b }

def addBuffer (capacity : Int) : Call Session Nat := fun s =>
  match Buffer.ofCapacity capacity with
  | .error f => .error f s
  | .ok b => .ok s.buffers.size { s with buffers := s.buffers.push b }

/-! ## Steps -/

def run : Step → Call Session Reply
  | .insertToken source range kind => .handle <$> onStore (Store.insertToken source range kind)
  | .insertText text kind => (.handle ∘ some) <$> onStore (Store.insertText text kind)
  | .insertPoints text kind => (.handle ∘ some) <$> onStore (Store.insertPoints text kind)
  | .insert segment => (.handle ∘ some) <$> onStore (Store.insert segment)
  | .segment h => .segment <$> ofStore (·.segmentOf h)
  | .describe h => (.text ∘ Segment.describe) <$> ofStore (·.segmentOf h)
  | .isLive h => .flag <$> ofStore fun s => .ok (s.isLive h)
  | .linkOf d h => .handle <$> ofStore (·.linkOf d h)
  | .connect d h target => (fun _ => .done) <$> onStore (Store.connect d h target)
  | .cut d h => .handle <$> onStore (Store.cut d h)
  | .remove h => (fun _ => .done) <$> onStore (Store.remove h)
  | .discard head => (fun _ => .done) <$> onStore (Store.discard head)
  | .walk d head => .handles <$> ofStore (·.walkFrom d head)
  | .tailOf h => (.handle ∘ some) <$> ofStore (·.tailOf h)
  | .addSlot head => .number <$> onBench (Bench.addSlot head)
  | .take slot => .handle <$> onBench (Bench.take slot)
  | .slots => do return .slots (← get).bench.slots.toList
  | .join slots => .handle <$> onBench (Bench.join slots)
  | .concatenate heads => .handle <$> onStore (Store.concatenate heads)
  | .addCursor => .number <$> onBench Bench.addCursor
  | .cursor i => .cursor <$> onBench (Bench.cursor i)
  | .append i text kind => (.handle ∘ some) <$> onBench (Bench.append i text kind)
  | .appendPoints i text kind => (.handle ∘ some) <$> onBench (Bench.appendPoints i text kind)
  | .attach i h => (fun _ => .done) <$> onBench (Bench.attach i h)
  | .addBuffer capacity => .number <$> addBuffer capacity
  | .write i data => (fun _ => .done) <$> onBuffer i (Buffer.write data)
  | .dropLast i => (fun _ => .done) <$> onBuffer i Buffer.dropLast
  | .byteAt i position => onBuffer i do return .byte ((← get).byteAt? position)
  | .buffer i => onBuffer i do return .buffer (← get)
  | .layOut i head style => do
    let s := (← get).bench.store
    .number <$> onBuffer i (s.layOut head style)
  | .measure head style => .number <$> ofStore (·.measure head style)
  | .expression head style => .bytes <$> ofStore (·.expression head style)
  | .concatCall head style => .bytes <$> ofStore (·.concatCall head style)
  | .template head style => .bytes <$> ofStore (·.template head style)
  | .isLone h kind => .flag <$> ofStore (·.isLone h kind)
  | .collapse slot kind => (.handle ∘ some) <$> onBench (Bench.collapse slot kind)
  | .listing head => .text <$> ofStore (·.listing head)
  | .cells => do return .cells (← get).bench.store.cells.toList

/-- What a step ends with, and the number of live segments after it. -/
structure Turn where
  result : Except Fault Reply
  live : Nat

/-- The turns of a session. -/
def play (s : Session) : List Step → List Turn
  | [] => []
  | step :: rest =>
    match run step s with
    | .ok r s => ⟨.ok r, s.bench.store.size⟩ :: play s rest
    | .error f s => ⟨.error f, s.bench.store.size⟩ :: play s rest

end Session

end XPathAssembly
