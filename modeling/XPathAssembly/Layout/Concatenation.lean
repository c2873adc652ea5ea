import XPathAssembly.Layout.Expression

/-!
# Laying out a concatenation

The expressions of a concatenation are written as the arguments of a call, `concat(a, b)`, or as the
parts of an attribute value template, where literals stand as they are and all other expressions
between braces.  In either case one buffer takes all of them, with the sum of what they need
reserved.
-/

namespace XPathAssembly

namespace Store

/-- The sum of what the expressions at the heads need. -/
def reserveSum (need : Handle → Except Fault Nat) : List Handle → Except Fault Nat
  | [] => .ok 0
  | h :: rest => do return (← need h) + (← reserveSum need rest)

/-! ## Calls -/

def callOpening : Bytes := utf8 "concat(".toList

def callSeparator : Bytes := utf8 ", ".toList

def callClosing : Bytes := utf8 ")".toList

/-- The arguments, with the separator before each but the first. -/
def writeArguments (s : Store) (style : Style) : List Handle → Call Buffer Unit
  | [] => return
  | [h] => discard <| s.layOut (some h) style
  | h :: rest => do
    discard <| s.layOut (some h) style
    Buffer.write callSeparator
    s.writeArguments style rest

/-- The concatenation at `head` as a call; a single expression is written without one.  Between
the arguments literals are always quoted. -/
def concatCall (s : Store) (head : Option Handle) (style : Style) : Except Fault Bytes := do
  if !s.isChain head then throw .dead
  match head.bind (s.link? .sibling) with
  | none => s.expression head style
  | some _ =>
    let heads := s.walk .sibling head
    let quoted := { style with quotes := true }
    let need ← reserveSum (fun h => s.measure (some h) quoted) heads
    let fixed := callOpening.length + callClosing.length + callSeparator.length * (heads.length - 1)
    written (fixed + need) do
      Buffer.write callOpening
      s.writeArguments quoted heads
      Buffer.write callClosing

/-! ## Templates -/

/-- Whether `h` is a segment of this kind without any links. -/
def isLone (s : Store) (h : Handle) (kind : Kind) : Except Fault Bool := do
  let g ← s.segmentOf h
  return (s.link? .next h).isNone && (s.link? .sibling h).isNone && g.kind = kind

/-- Whether the expression at `h` is one quoted literal, whatever its sibling. -/
def isLiteral (s : Store) (h : Handle) : Except Fault Bool := do
  let g ← s.segmentOf h
  return (s.link? .next h).isNone && g.kind = .quoted

/-- The bytes to reserve for a part of a template. -/
def partNeed (s : Store) (style : Style) (h : Handle) : Except Fault Nat := do
  if ← s.isLiteral h then s.measure (some h) style
  else return 2 + (← s.measure (some h) { style with quotes := true })

/-- A part of a template: a literal, or an expression between braces. -/
def writePart (s : Store) (style : Style) (h : Handle) : Call Buffer Unit := do
  match s.isLiteral h with
  | .error f => throw f
  | .ok true => discard <| s.layOut (some h) style
  | .ok false =>
    Buffer.write [openBrace]
    discard <| s.layOut (some h) { style with quotes := true }
    Buffer.write [closeBrace]

def writeParts (s : Store) (style : Style) : List Handle → Call Buffer Unit
  | [] => return
  | h :: rest => do
    s.writePart style h
    s.writeParts style rest

/-- The concatenation at `head` as an attribute value template.  A value that is one literal is
written without looking at parts. -/
def template (s : Store) (head : Option Handle) (style : Style) : Except Fault Bytes := do
  if !s.isChain head then throw .dead
  let style := { style with braces := true }
  match head with
  | none => s.expression none style
  | some h =>
    if ← s.isLone h .quoted then s.expression head style
    else
      let heads := s.walk .sibling head
      written (← reserveSum (s.partNeed style) heads) (s.writeParts style heads)

end Store

end XPathAssembly
