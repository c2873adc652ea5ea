import XPathAssembly.Segment

/-!
# Quoted literals in the layout

The style decides how a quoted literal is written: between quotation marks that it does not
contain, or with its braces doubled, or as it is.  Every other segment is written as it is
(`Segment.spelled_eq`).
-/

namespace XPathAssembly

structure Style where
  /-- Quoted literals are written between quotation marks. -/
  quotes : Bool := false
  /-- The braces of quoted literals are doubled, if they are not written between marks. -/
  braces : Bool := false
deriving DecidableEq, Repr

def openBrace : UInt8 := byteOf '\x7b'

def closeBrace : UInt8 := byteOf '\x7d'

def space : UInt8 := byteOf ' '

/-- A backslash before each double mark. -/
def escapeMarks (bs : Bytes) : Bytes :=
  bs.flatMap fun b => if b = doubleMark then [backslash, b] else [b]

def doubleBraces (bs : Bytes) : Bytes :=
  bs.flatMap fun b => if b = openBrace ∨ b = closeBrace then [b, b] else [b]

namespace Segment

/-- The writes of a quoted literal between marks.  A text with marks of both sorts is put between
double ones, since the language has no escape for either. -/
def quotedWrites (g : Segment) : List Bytes :=
  if g.marks.both then [[doubleMark], escapeMarks g.text, [doubleMark]]
  else if g.marks.double then [[singleMark], g.text, [singleMark]]
  else [[doubleMark], g.text, [doubleMark]]

/-- The writes of a segment, one after the other. -/
def writes (style : Style) (g : Segment) : List Bytes :=
  if g.kind = .quoted && style.quotes then g.quotedWrites
  else if g.kind = .quoted && style.braces then [doubleBraces g.text]
  else [g.text]

/-- The text that is written for a segment. -/
def spelled (style : Style) (g : Segment) : Bytes := (g.writes style).flatten

/-- A quoted literal stands between marks if the style has quotes, with its braces doubled if it has
only braces, and as it is if it has neither, as every other segment does under any style. -/
theorem spelled_eq (style : Style) (g : Segment) :
    g.spelled style =
      if g.kind = .quoted ∧ style.quotes then
        if g.marks.both then doubleMark :: (escapeMarks g.text ++ [doubleMark])
        else if g.marks.double then singleMark :: (g.text ++ [singleMark])
        else doubleMark :: (g.text ++ [doubleMark])
      else if g.kind = .quoted ∧ style.braces then doubleBraces g.text
      else g.text := by
  unfold spelled writes quotedWrites
  by_cases hk : g.kind = .quoted
  · cases style.quotes <;> cases style.braces <;> cases g.marks.both <;> cases g.marks.double <;>
      simp [hk]
  · simp [hk]

/-- The bytes to reserve for a segment: its text, the space after it, the marks around it and one
more byte for each byte that could be escaped or doubled. -/
def reserve (style : Style) (g : Segment) : Nat :=
  g.text.length + (if g.kind.isGlued then 0 else 1) +
    if g.kind = .quoted then
      (if style.quotes then 2 + g.text.count doubleMark else 0) +
        (if style.braces then g.text.count openBrace + g.text.count closeBrace else 0)
    else 0

end Segment

end XPathAssembly
