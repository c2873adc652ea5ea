/-!
# Texts and bytes

A text is its list of characters and a byte string its list of bytes, so that every function on
them is a recursion on the list.  Encoding writes each character as its UTF-8 sequence.

    utf8 (s ++ t) = utf8 s ++ utf8 t      (utf8_append)
-/

namespace XPathAssembly

abbrev Text := List Char

abbrev Bytes := List UInt8

/-- The UTF-8 encoding of a text. -/
def utf8 (t : Text) : Bytes := t.flatMap String.utf8EncodeChar

@[simp] theorem utf8_nil : utf8 [] = [] := rfl

@[simp] theorem utf8_cons (c : Char) (t : Text) :
    utf8 (c :: t) = String.utf8EncodeChar c ++ utf8 t := rfl

theorem utf8_append (s t : Text) : utf8 (s ++ t) = utf8 s ++ utf8 t := by
  simp [utf8]

/-- Whether one text stands before another, or equals it, in the order of their code points. -/
def inOrder : Text → Text → Bool
  | [], _ => true
  | _ :: _, [] => false
  | a :: s, b :: t => a.toNat < b.toNat || (a = b && inOrder s t)

theorem inOrder_cons_iff {a b : Char} {s t : Text} :
    inOrder (a :: s) (b :: t) = true ↔ a.toNat < b.toNat ∨ a = b ∧ inOrder s t = true := by
  simp [inOrder]

theorem inOrder_total (s t : Text) : inOrder s t = true ∨ inOrder t s = true := by
  induction s generalizing t with
  | nil => exact Or.inl rfl
  | cons a s ih =>
    cases t with
    | nil => exact Or.inr rfl
    | cons b t =>
      rw [inOrder_cons_iff, inOrder_cons_iff]
      rcases Nat.lt_trichotomy a.toNat b.toNat with hlt | heq | hgt
      · exact Or.inl (Or.inl hlt)
      · obtain rfl := Char.toNat_inj.mp heq
        exact (ih t).imp (fun h => Or.inr ⟨rfl, h⟩) (fun h => Or.inr ⟨rfl, h⟩)
      · exact Or.inr (Or.inl hgt)

theorem inOrder_trans {s t u : Text} (hst : inOrder s t = true) (htu : inOrder t u = true) :
    inOrder s u = true := by
  induction s generalizing t u with
  | nil => rfl
  | cons a s ih =>
    cases t with
    | nil => cases hst
    | cons b t =>
      cases u with
      | nil => cases htu
      | cons c u =>
        rw [inOrder_cons_iff] at *
        rcases hst with hab | ⟨rfl, hst⟩
        · rcases htu with hbc | ⟨rfl, -⟩
          · exact Or.inl (Nat.lt_trans hab hbc)
          · exact Or.inl hab
        · rcases htu with hac | ⟨rfl, htu⟩
          · exact Or.inl hac
          · exact Or.inr ⟨rfl, ih hst htu⟩

/-- The byte of an ASCII character. -/
def byteOf (c : Char) : UInt8 := UInt8.ofNat c.toNat

/-! ## Digits -/

/-- The digits of `n` in base 16, padded with zeros to `width`. -/
def hexDigits (width n : Nat) : Text :=
  let digits := Nat.toDigits 16 n
  List.replicate (width - digits.length) '0' ++ digits

/-- The value of a hexadecimal digit; both cases count, and no digit outside ASCII does. -/
def hexValue? (c : Char) : Option Nat :=
  if '0' ≤ c ∧ c ≤ '9' then some (c.toNat - '0'.toNat)
  else if 'a' ≤ c ∧ c ≤ 'f' then some (c.toNat - 'a'.toNat + 10)
  else if 'A' ≤ c ∧ c ≤ 'F' then some (c.toNat - 'A'.toNat + 10)
  else none

theorem hexValue?_lt {c : Char} {n : Nat} (h : hexValue? c = some n) : n < 16 := by
  unfold hexValue? at h
  simp only [Char.le_def, UInt32.le_iff_toNat_le] at h
  have e (x : Char) : x.toNat = x.val.toNat := rfl
  split at h
  · next hc => simp only [e] at h; simp at h hc; omega
  · split at h
    · next hc => simp only [e] at h; simp at h hc; omega
    · split at h
      · next hc => simp only [e] at h; simp at h hc; omega
      · cases h

/-- A number in base 10, with a sign if it is negative. -/
def decimal : Int → Text
  | .ofNat n => Nat.toDigits 10 n
  | .negSucc n => '-' :: Nat.toDigits 10 (n + 1)

end XPathAssembly
