import XPathAssembly.Text.Basic

/-!
# Lines

Cutting a text into lines, each with the characters that end it.  Ten characters end a line; a
carriage return and the line feed after it are one end.  The last line has no end unless the text
stops with one, and the empty text has no lines.

    (lines t).flatMap Line.whole = t      (flatMap_whole_lines)
-/

namespace XPathAssembly

/-- A line: what it says, and the characters that end it. -/
structure Line where
  body : Text
  stop : Text
deriving DecidableEq, Repr

/-- The line with its end. -/
def Line.whole (l : Line) : Text := l.body ++ l.stop

/-- Line feed, vertical tab, form feed, carriage return, the three information separators above
the unit separator, next line, and the line and paragraph separators. -/
def endsLine (c : Char) : Bool :=
  let n := c.toNat
  (0x0a ≤ n && n ≤ 0x0d) || (0x1c ≤ n && n ≤ 0x1e) || n = 0x85 || n = 0x2028 || n = 0x2029

/-- A character in front of the first line. -/
def putOnFirst (c : Char) : List Line → List Line
  | [] => [⟨[c], []⟩]
  | l :: ls => ⟨c :: l.body, l.stop⟩ :: ls

def lines : Text → List Line
  | [] => []
  | '\r' :: '\n' :: rest => ⟨[], ['\r', '\n']⟩ :: lines rest
  | c :: rest => if endsLine c then ⟨[], [c]⟩ :: lines rest else putOnFirst c (lines rest)

/-- The lines of a text without their ends. -/
def lineBodies (t : Text) : List Text := (lines t).map Line.body

/-- The text with every carriage return, alone or before a line feed, read as a line feed. -/
def unifyLineEnds : Text → Text
  | [] => []
  | '\r' :: '\n' :: rest => '\n' :: unifyLineEnds rest
  | c :: rest => (if c = '\r' then '\n' else c) :: unifyLineEnds rest

/-! ## Lemmas -/

theorem endsLine_iff {c : Char} :
    endsLine c = true ↔
      c.toNat ∈ [0x0a, 0x0b, 0x0c, 0x0d, 0x1c, 0x1d, 0x1e, 0x85, 0x2028, 0x2029] := by
  simp only [endsLine, Bool.or_eq_true, Bool.and_eq_true, decide_eq_true_eq, List.mem_cons,
    List.not_mem_nil, or_false]
  omega

theorem flatMap_whole_putOnFirst (c : Char) (ls : List Line) :
    (putOnFirst c ls).flatMap Line.whole = c :: ls.flatMap Line.whole := by
  cases ls <;> simp [putOnFirst, Line.whole]

/-- Cutting into lines loses nothing. -/
theorem flatMap_whole_lines (t : Text) : (lines t).flatMap Line.whole = t := by
  fun_induction lines t with
  | case1 => rfl
  | case2 rest ih => simp [Line.whole, ih]
  | case3 c rest _ _ ih => simp [Line.whole, ih]
  | case4 c rest _ _ ih => rw [flatMap_whole_putOnFirst, ih]

end XPathAssembly
