import XPathAssembly.Text.Basic

/-!
# Reading UTF-8

The bytes are read one at a time.  Between characters the reader is `fresh`; inside a sequence it
knows the bits so far, how many bytes are still owed, and in which range the next one has to be.
The narrow ranges after some lead bytes keep out overlong forms, surrogates and what lies beyond
the last code point.  A byte that does not fit ends the sequence and is read again as a lead byte,
so that each malformed stretch is a longest one that could have begun a character.
-/

namespace XPathAssembly

namespace Utf8

inductive Defect where
  | badStart
  | badContinuation
  | cutShort
deriving DecidableEq, Repr

/-- Where the reader stands between two bytes; `owed` counts the bytes after the next one. -/
inductive State where
  | fresh
  | inside (bits : Nat) (low high : UInt8) (owed : Nat)
deriving DecidableEq, Repr

/-- A character, or the defect of a malformed stretch. -/
abbrev Piece := Except Defect Char

/-- A byte at the start of a character. -/
def lead (b : UInt8) : List Piece × State :=
  if b < 0x80 then ([.ok (Char.ofNat b.toNat)], .fresh)
  else if b < 0xc2 then ([.error .badStart], .fresh)
  else if b < 0xe0 then ([], .inside (b.toNat % 32) 0x80 0xbf 0)
  else if b = 0xe0 then ([], .inside 0 0xa0 0xbf 1)
  else if b = 0xed then ([], .inside 13 0x80 0x9f 1)
  else if b < 0xf0 then ([], .inside (b.toNat % 16) 0x80 0xbf 1)
  else if b = 0xf0 then ([], .inside 0 0x90 0xbf 2)
  else if b < 0xf4 then ([], .inside (b.toNat % 8) 0x80 0xbf 2)
  else if b = 0xf4 then ([], .inside 4 0x80 0x8f 2)
  else ([.error .badStart], .fresh)

/-- One byte: the pieces it completes and the state after it. -/
def step : State → UInt8 → List Piece × State
  | .fresh, b => lead b
  | .inside bits low high owed, b =>
    if low ≤ b ∧ b ≤ high then
      match owed with
      | 0 => ([.ok (Char.ofNat (bits * 64 + b.toNat % 64))], .fresh)
      | n + 1 => ([], .inside (bits * 64 + b.toNat % 64) 0x80 0xbf n)
    else (.error .badContinuation :: (lead b).1, (lead b).2)

def piecesFrom : State → Bytes → List Piece
  | .fresh, [] => []
  | .inside .., [] => [.error .cutShort]
  | s, b :: bs => (step s b).1 ++ piecesFrom (step s b).2 bs

/-- The characters and malformed stretches of a byte string, in order. -/
def pieces (bs : Bytes) : List Piece := piecesFrom .fresh bs

/-- The first defect, and the number of bytes before its stretch. -/
structure Refusal where
  offset : Nat
  defect : Defect
deriving DecidableEq, Repr

/-- The text of the pieces, `offset` bytes into the whole. -/
def collect (offset : Nat) : List Piece → Except Refusal Text
  | [] => .ok []
  | .error d :: _ => .error ⟨offset, d⟩
  | .ok c :: rest =>
    match collect (offset + c.utf8Size) rest with
    | .ok t => .ok (c :: t)
    | .error r => .error r

def decode (bs : Bytes) : Except Refusal Text := collect 0 (pieces bs)

/-- Stands for a malformed stretch. -/
def replacement : Char := '\ufffd'

/-- The text in which each malformed stretch is one replacement character. -/
def decodeLossy (bs : Bytes) : Text :=
  (pieces bs).map fun
    | .ok c => c
    | .error _ => replacement

def Defect.message : Defect → Text
  | badStart => "invalid start byte".toList
  | badContinuation => "invalid continuation byte".toList
  | cutShort => "unexpected end of data".toList

end Utf8

end XPathAssembly
