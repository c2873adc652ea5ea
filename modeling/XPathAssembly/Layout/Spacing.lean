import XPathAssembly.Segment

/-!
# Spacing

Segments are separated by single spaces, and some of these are taken back when the next segment is
known.  The decision looks at the two bytes before the space, at the first byte of the segment that
follows, and at whether all there is so far is a minus.
-/

namespace XPathAssembly

/-- Path steps, predicates and calls bind tightly, as in `a/b[@c]` and `f(x)`. -/
def isTight (b : UInt8) : Bool := b ∈ "@/()[]".toList.map byteOf

def isCloser (b : UInt8) : Bool := b ∈ ")]".toList.map byteOf

/-- What stands directly after a closer, as in `f(g(x))` and `a[1]/b`. -/
def followsCloser (b : UInt8) : Bool := b ∈ ")]/".toList.map byteOf

def isDigit (b : UInt8) : Bool := byteOf '0' ≤ b && b ≤ byteOf '9'

/-- What surrounds a space: the byte before it and the one before that, the first byte of the
segment after it and its kind, and whether a lone minus has been written. -/
structure Gap where
  previous : Option UInt8
  beforePrevious : Option UInt8
  following : Option UInt8
  kind : Kind
  afterMinus : Bool
deriving DecidableEq, Repr

namespace Gap

def previousIs (g : Gap) (p : UInt8 → Bool) : Bool := g.previous.any p

def followingIs (g : Gap) (p : UInt8 → Bool) : Bool := g.following.any p

/-- The rules in order; the first that applies decides. -/
def isGlued (g : Gap) : Bool :=
  if g.previousIs (· == byteOf '_') || g.followingIs (· == byteOf '_') then false
  else if g.previousIs isTight || g.followingIs isTight then true
  else if g.followingIs (· == byteOf ',') then true
  else if g.previousIs isDigit && g.followingIs (· == byteOf '.') && g.kind != .dotdotdot then true
  else if g.previousIs (· == byteOf '.') && g.beforePrevious != some (byteOf '.') &&
      g.followingIs isDigit then true
  else g.afterMinus

/-- Whether the space is taken back: a closer keeps its distance from all but closers and slashes,
as in `f() + 1`. -/
def closes (g : Gap) : Bool :=
  if g.previousIs isCloser && !g.followingIs followsCloser then false else g.isGlued

end Gap

end XPathAssembly
