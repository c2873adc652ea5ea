import XPathAssembly.Proofs.Escape.Spelling

/-!
# Literals in well-formed UTF-8

Every item decodes to the sequence of one code point.  Only an escape of four or six digits can
name one that is no scalar value: the others name characters, Latin-1 or the replacement character.

    decode t = ((items t).map Item.codePoint).flatMap CodePoint.encode       (decode_eq_flatMap)
    IsUtf8 (decode t) ↔ the long escapes of t name scalar values             (isUtf8_decode_iff)
-/

namespace XPathAssembly

namespace CodePoint

theorem encodesScalar_toNat (c : Char) : EncodesScalar c.toNat :=
  exists_alike_char_iff.1 ⟨c, Or.inl rfl⟩

/-- Malformed digits stand for a scalar value, so that only the number of well-formed ones
decides. -/
theorem encodesScalar_read_iff {digits : Text} (hne : digits ≠ []) :
    EncodesScalar (read digits) ↔ ∀ n, Hexadecimal digits n → EncodesScalar n := by
  unfold read
  cases hread : readFrom 0 digits with
  | none =>
    have hmalformed (n : Nat) : ¬ Hexadecimal digits n := by
      rw [← readFrom_eq_some_iff hne, hread]
      exact Option.some_ne_none n ∘ Eq.symm
    constructor
    · intro _ n hn
      exact absurd hn (hmalformed n)
    · intro _
      show EncodesScalar replacement
      decide
  | some value =>
    have hvalue (n : Nat) : Hexadecimal digits n ↔ value = n := by
      rw [← readFrom_eq_some_iff hne, hread, Option.some.injEq]
    simp only [hvalue, forall_eq', Option.getD_some]

end CodePoint

namespace Escape

/-- The code point that an item stands for. -/
def Item.codePoint : Item → Nat
  | plain c => c.toNat
  | escaped c =>
    if c = 'n' then 0x0a else if c = 'r' then 0x0d else if c = 't' then 0x09 else c.toNat
  | byte digits => if digits.length = 2 then CodePoint.read digits else CodePoint.replacement
  | word _ digits => CodePoint.read digits

theorem Item.bytes_eq_encode (i : Item) : i.bytes = CodePoint.encode i.codePoint := by
  cases i with
  | plain c => exact (CodePoint.encode_toNat c).symm
  | escaped c =>
    show escapedBytes c = CodePoint.encode (if c = 'n' then _ else _)
    unfold escapedBytes
    split_ifs
    · rfl
    · rfl
    · rfl
    · exact (CodePoint.encode_toNat c).symm
  | byte digits => rfl
  | word sign digits => rfl

theorem decode_eq_flatMap (t : Text) :
    decode t = ((items t).map Item.codePoint).flatMap CodePoint.encode := by
  unfold decode
  rw [List.flatMap_map, funext Item.bytes_eq_encode]

theorem digits_ne_nil_of_mem_items {t : Text} {sign : Char} {digits : Text}
    (h : .word sign digits ∈ items t) : digits ≠ [] := by
  rintro rfl
  rcases stands_of_word_mem_items h with ⟨-, hlength⟩ | ⟨-, hlength⟩
  · cases hlength
  · cases hlength

/-- The escapes of four or six digits decide; no other item breaks the encoding. -/
theorem Item.encodesScalar_codePoint {i : Item} (h : ∀ sign digits, i ≠ .word sign digits) :
    CodePoint.EncodesScalar i.codePoint := by
  cases i with
  | plain c => exact CodePoint.encodesScalar_toNat c
  | escaped c =>
    show CodePoint.EncodesScalar (if c = 'n' then _ else _)
    split_ifs
    · decide
    · decide
    · decide
    · exact CodePoint.encodesScalar_toNat c
  | byte digits =>
    show CodePoint.EncodesScalar (if digits.length = 2 then _ else _)
    split_ifs with hlength
    · have hne : 0 < digits.length := by omega
      refine (CodePoint.encodesScalar_read_iff (List.length_pos_iff.1 hne)).2 ?_
      intro n hn
      have := hn.lt hne
      rw [hlength] at this
      exact Or.inl ⟨by omega, by omega⟩
    · decide
  | word sign digits => exact absurd rfl (h sign digits)

/-- A decoded literal is well-formed UTF-8 exactly if every escape of four or six digits, all of
them hexadecimal, has a number whose sequence is that of a scalar value. -/
theorem isUtf8_decode_iff (t : Text) :
    IsUtf8 (decode t) ↔
      ∀ sign digits n, .word sign digits ∈ items t → Hexadecimal digits n →
        CodePoint.EncodesScalar n := by
  rw [decode_eq_flatMap, CodePoint.isUtf8_flatMap_encode_iff, List.forall_mem_map]
  constructor
  · intro h sign digits n hitem
    exact (CodePoint.encodesScalar_read_iff (digits_ne_nil_of_mem_items hitem)).1 (h _ hitem) n
  · intro h i hi
    by_cases hword : ∃ sign digits, i = .word sign digits
    · obtain ⟨sign, digits, rfl⟩ := hword
      refine (CodePoint.encodesScalar_read_iff (digits_ne_nil_of_mem_items hi)).2 ?_
      intro n
      exact h sign digits n hi
    · exact Item.encodesScalar_codePoint fun sign digits e => hword ⟨sign, digits, e⟩

/-- A number beyond the last code point whose lead byte loses what is too much. -/
example : decode ['\\', 'u', '-', '2', '1', 'F', '6', '0', '0'] = utf8 ['😀'] := by decide

end Escape

end XPathAssembly
