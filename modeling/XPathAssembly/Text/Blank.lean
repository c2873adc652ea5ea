import XPathAssembly.Text.Basic

/-!
# Blank characters

The characters that count as white space: the four ASCII separators, the six ASCII layout
characters, next line, and the space, line and paragraph separators of Unicode.

    c.isWhitespace → isBlank c = true      (isBlank_of_isWhitespace)
-/

namespace XPathAssembly

/-- The blank characters, as ranges of code points. -/
def blankRanges : List (Nat × Nat) :=
  [(0x09, 0x0d), (0x1c, 0x20), (0x85, 0x85), (0xa0, 0xa0), (0x1680, 0x1680), (0x2000, 0x200a),
   (0x2028, 0x2029), (0x202f, 0x202f), (0x205f, 0x205f), (0x3000, 0x3000)]

def isBlank (c : Char) : Bool :=
  blankRanges.any fun r => r.1 ≤ c.toNat && c.toNat ≤ r.2

theorem isBlank_of_isWhitespace {c : Char} (h : c.isWhitespace = true) : isBlank c = true := by
  simp only [Char.isWhitespace, Bool.or_eq_true, decide_eq_true_eq] at h
  rcases h with ((h | h) | h) | h <;> subst h <;> decide

/-- A text of blank characters alone, the empty one included. -/
def isBlankText (t : Text) : Bool := t.all isBlank

/-- The text without the characters at its ends that `p` holds for. -/
def stripped (p : Char → Bool) (t : Text) : Text := ((t.dropWhile p).reverse.dropWhile p).reverse

/-- The text without the blank characters at its ends. -/
def trim (t : Text) : Text := stripped isBlank t

end XPathAssembly
