import XPathAssembly.Fault

/-!
# Escapes of quoted literals

The inside of a quoted literal is read from left to right as a list of items: characters that
stand for themselves, and escapes.  Decoding writes the bytes of each item; it never fails, since
an escape with a malformed digit stands for the replacement character.

    (items t).flatMap Item.source = t      (flatMap_source_items)
    decode t = (items t).flatMap Item.bytes
-/

namespace XPathAssembly

namespace CodePoint

/-- Stands for an escape with malformed digits. -/
def replacement : Nat := 0xfffd

/-- One more than the largest value of six hexadecimal digits. -/
def limit : Nat := 0x1000000

/-- A byte `tag + n % size`. -/
def tagged (tag size n : Nat) : UInt8 := UInt8.ofNat (tag + n % size)

/-- The four length classes of UTF-8.  Neither surrogates nor values beyond the last code point
are refused, and the lead byte of the longest class keeps the lowest three of its bits. -/
def encode (n : Nat) : Bytes :=
  if n ≤ 0x7f then [UInt8.ofNat n]
  else if n ≤ 0x7ff then [tagged 0xc0 32 (n / 64), tagged 0x80 64 n]
  else if n ≤ 0xffff then [tagged 0xe0 16 (n / 4096), tagged 0x80 64 (n / 64), tagged 0x80 64 n]
  else [tagged 0xf0 8 (n / 262144), tagged 0x80 64 (n / 4096), tagged 0x80 64 (n / 64),
    tagged 0x80 64 n]

/-- `encode` for the values that six hexadecimal digits can have. -/
def encode? (n : Int) : Except Fault Bytes :=
  if 0 ≤ n ∧ n < limit then .ok (encode n.toNat) else .error .escape

/-- The value of the digits read so far, `value`, and of those that follow. -/
def readFrom (value : Nat) : Text → Option Nat
  | [] => some value
  | c :: rest => (hexValue? c).bind fun d => readFrom (value * 16 + d) rest

/-- The value of hexadecimal digits, or the replacement character if one is malformed. -/
def read (digits : Text) : Nat := (readFrom 0 digits).getD replacement

/-- `read` for the two widths that the escapes have. -/
def read? (digits : Text) (width : Int) : Except Fault Nat :=
  if digits.length = width ∧ (width = 4 ∨ width = 6) then .ok (read digits) else .error .escape

end CodePoint

namespace Escape

/-! ## Algorithm -/

/-- An item of the inside of a quoted literal. -/
inductive Item where
  /-- A character that no backslash precedes, or the backslash that ends the literal. -/
  | plain (c : Char)
  /-- A backslash and a character without digits after it. -/
  | escaped (c : Char)
  /-- `\x` with the characters in place of its two digits, fewer at the end of the literal. -/
  | byte (digits : Text)
  /-- `\u+` with four characters in place of its digits, or `\u-` with six. -/
  | word (sign : Char) (digits : Text)
deriving DecidableEq, Repr

/-- The items of a text; a `\u` without sign or without room for its digits is an escaped
letter. -/
def items : Text → List Item
  | [] => []
  | ['\\'] => [.plain '\\']
  | '\\' :: 'x' :: a :: b :: rest => .byte [a, b] :: items rest
  | '\\' :: 'x' :: rest => [.byte rest]
  | '\\' :: 'u' :: '+' :: a :: b :: c :: d :: rest => .word '+' [a, b, c, d] :: items rest
  | '\\' :: 'u' :: '-' :: a :: b :: c :: d :: e :: f :: rest =>
    .word '-' [a, b, c, d, e, f] :: items rest
  | '\\' :: c :: rest => .escaped c :: items rest
  | c :: rest => .plain c :: items rest

/-- The bytes of an escaped character: three letters name controls. -/
def escapedBytes (c : Char) : Bytes :=
  if c = 'n' then [0x0a] else if c = 'r' then [0x0d] else if c = 't' then [0x09]
  else String.utf8EncodeChar c

def Item.bytes : Item → Bytes
  | plain c => String.utf8EncodeChar c
  | escaped c => escapedBytes c
  | byte digits =>
    CodePoint.encode (if digits.length = 2 then CodePoint.read digits else CodePoint.replacement)
  | word _ digits => CodePoint.encode (CodePoint.read digits)

/-- The text an item was read from. -/
def Item.source : Item → Text
  | plain c => [c]
  | escaped c => ['\\', c]
  | byte digits => '\\' :: 'x' :: digits
  | word sign digits => '\\' :: 'u' :: sign :: digits

/-- The bytes that the inside of a quoted literal stands for. -/
def decode (t : Text) : Bytes := (items t).flatMap Item.bytes

/-! ## Lemmas -/

/-- Reading the items loses nothing. -/
theorem flatMap_source_items (t : Text) : (items t).flatMap Item.source = t := by
  fun_induction items t <;> simp_all [Item.source]

end Escape

end XPathAssembly
