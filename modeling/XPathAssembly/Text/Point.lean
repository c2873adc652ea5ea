import XPathAssembly.Text.Basic

/-!
# Texts with lone surrogates

The escapes of a JSON string can name half of a surrogate pair.  Such a text is a list of points,
each a character or a surrogate that stands alone.  Only a text without lone surrogates can be
encoded; `toText?` gives its characters, or the index of the first surrogate.

    toText? (ofText t) = .ok t      (toText?_ofText)
-/

namespace XPathAssembly

/-- A character, or the `n`-th of the 2048 surrogates standing alone. -/
inductive Point where
  | char (c : Char)
  | surrogate (n : Fin 2048)
deriving DecidableEq, Repr

namespace Point

def codePoint : Point → Nat
  | char c => c.toNat
  | surrogate n => 0xd800 + n

/-- The point of a code point. -/
def ofCodePoint (n : Nat) : Point :=
  if h : 0xd800 ≤ n ∧ n < 0xe000 then surrogate ⟨n - 0xd800, by omega⟩ else char (Char.ofNat n)

def ofText (t : Text) : List Point := t.map char

/-- The characters of the points; with a surrogate among them, the index of the first. -/
def toText? : List Point → Except Nat Text
  | [] => .ok []
  | surrogate _ :: _ => .error 0
  | char c :: rest =>
    match toText? rest with
    | .ok t => .ok (c :: t)
    | .error i => .error (i + 1)

/-- A high surrogate and the low one after it are one character. -/
def pair? : Point → Point → Option Char
  | surrogate a, surrogate b =>
    if a < 1024 ∧ 1024 ≤ b then some (Char.ofNat (0x10000 + a * 1024 + (b - 1024))) else none
  | _, _ => none

/-- Joins the surrogate pairs, from left to right. -/
def joinPairs : List Point → List Point
  | a :: b :: rest =>
    match pair? a b with
    | some c => char c :: joinPairs rest
    | none => a :: joinPairs (b :: rest)
  | points => points

/-! ## Lemmas -/

theorem toText?_ofText (t : Text) : toText? (ofText t) = .ok t := by
  induction t with
  | nil => rfl
  | cons c t ih =>
    have h : ofText (c :: t) = char c :: ofText t := rfl
    rw [h, toText?, ih]

end Point

end XPathAssembly
