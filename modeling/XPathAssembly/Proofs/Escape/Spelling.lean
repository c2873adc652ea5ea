import Mathlib.Data.List.Forall2
import XPathAssembly.Proofs.Escape.CodePoint
import XPathAssembly.Proofs.Escape.Hexadecimal

/-!
# Spellings of a text

An item that ends on its own is read in the same way whatever follows it.  Each spelling of a
character is such an item with the bytes of the character, so that a text may be spelled one
character at a time, each in any way that is open to it.

    Stands i → items (i.source ++ rest) = i :: items rest         (items_source_append)
    Forall₂ Spells t spellings → decode spellings.flatten = utf8 t      (decode_flatten)
-/

namespace XPathAssembly

namespace Escape

/-- The item ends on its own: no text after it is read into it. -/
def Item.Stands : Item → Prop
  | plain c => c ≠ '\\'
  | escaped c => c ≠ 'x' ∧ c ≠ 'u'
  | byte digits => digits.length = 2
  | word sign digits => (sign = '+' ∧ digits.length = 4) ∨ (sign = '-' ∧ digits.length = 6)

theorem items_source_append {i : Item} (hi : i.Stands) (rest : Text) :
    items (i.source ++ rest) = i :: items rest := by
  cases i with
  | plain c =>
    have hc : c ≠ '\\' := hi
    show items (c :: rest) = _
    -- the last equation holds if none of the patterns with a backslash fits
    rw [items]
    all_goals simp_all
  | escaped c =>
    obtain ⟨hx, hu⟩ := hi
    show items ('\\' :: c :: rest) = _
    rw [items]
    all_goals simp_all
  | byte digits =>
    obtain ⟨a, b, rfl⟩ := List.length_eq_two.1 hi
    rfl
  | word sign digits =>
    rcases hi with ⟨rfl, hlength⟩ | ⟨rfl, hlength⟩
    · match digits, hlength with
      | [a, b, c, d], _ => rfl
    · match digits, hlength with
      | [a, b, c, d, e, f], _ => rfl

/-- The digits that are read are as many as the sign asks for. -/
theorem stands_of_word_mem_items {t digits : Text} {sign : Char}
    (h : .word sign digits ∈ items t) : (Item.word sign digits).Stands := by
  fun_induction items t with
  | case1 => cases h
  | case2 | case4 => cases List.mem_singleton.1 h
  | case3 a b rest ih => exact ih (List.mem_of_ne_of_mem (by simp) h)
  | case5 a b c d rest ih =>
    rcases List.mem_cons.1 h with h | h
    · cases h
      exact .inl ⟨rfl, rfl⟩
    · exact ih h
  | case6 a b c d e f rest ih =>
    rcases List.mem_cons.1 h with h | h
    · cases h
      exact .inr ⟨rfl, rfl⟩
    · exact ih h
  | case7 | case8 =>
    rename_i ih
    exact ih (List.mem_of_ne_of_mem (by simp) h)

theorem decode_source_append {i : Item} (hi : i.Stands) (rest : Text) :
    decode (i.source ++ rest) = i.bytes ++ decode rest := by
  unfold decode
  rw [items_source_append hi, List.flatMap_cons]

/-- The ways to spell a character.  An escape reads a fixed number of digits, so that the number of
the character has to fit in them (`exists_hexadecimal_iff`). -/
inductive Spells : Char → Text → Prop
  | plain {c : Char} : c ≠ '\\' → Spells c [c]
  | escaped {c : Char} : c ∉ ['n', 'r', 't', 'x', 'u'] → Spells c ['\\', c]
  | newline : Spells '\n' ['\\', 'n']
  | carriageReturn : Spells '\r' ['\\', 'r']
  | tab : Spells '\t' ['\\', 't']
  | byte {c : Char} {digits : Text} : digits.length = 2 → Hexadecimal digits c.toNat →
    Spells c ('\\' :: 'x' :: digits)
  | short {c : Char} {digits : Text} : digits.length = 4 → Hexadecimal digits c.toNat →
    Spells c ('\\' :: 'u' :: '+' :: digits)
  | long {c : Char} {digits : Text} : digits.length = 6 → Hexadecimal digits c.toNat →
    Spells c ('\\' :: 'u' :: '-' :: digits)

/-- A spelling is read as one item, with the bytes of the character. -/
theorem Spells.exists_item {c : Char} {s : Text} (h : Spells c s) :
    ∃ i : Item, i.Stands ∧ i.source = s ∧ i.bytes = String.utf8EncodeChar c := by
  cases h with
  | plain hc => exact ⟨.plain c, hc, rfl, rfl⟩
  | escaped hc =>
    simp only [List.mem_cons, List.not_mem_nil, or_false, not_or] at hc
    obtain ⟨hn, hr, ht, hx, hu⟩ := hc
    refine ⟨.escaped c, ⟨hx, hu⟩, rfl, ?_⟩
    show escapedBytes c = _
    rw [escapedBytes, if_neg hn, if_neg hr, if_neg ht]
  | newline => exact ⟨.escaped 'n', ⟨by decide, by decide⟩, rfl, by decide⟩
  | carriageReturn => exact ⟨.escaped 'r', ⟨by decide, by decide⟩, rfl, by decide⟩
  | tab => exact ⟨.escaped 't', ⟨by decide, by decide⟩, rfl, by decide⟩
  | @byte _ digits hlength hdigits =>
    refine ⟨.byte digits, hlength, rfl, ?_⟩
    show CodePoint.encode (if digits.length = 2 then _ else _) = _
    rw [if_pos hlength, CodePoint.read_of_hexadecimal (by omega) hdigits, CodePoint.encode_toNat]
  | @short _ digits hlength hdigits =>
    refine ⟨.word '+' digits, Or.inl ⟨rfl, hlength⟩, rfl, ?_⟩
    show CodePoint.encode _ = _
    rw [CodePoint.read_of_hexadecimal (by omega) hdigits, CodePoint.encode_toNat]
  | @long _ digits hlength hdigits =>
    refine ⟨.word '-' digits, Or.inr ⟨rfl, hlength⟩, rfl, ?_⟩
    show CodePoint.encode _ = _
    rw [CodePoint.read_of_hexadecimal (by omega) hdigits, CodePoint.encode_toNat]

theorem Spells.decode_append {c : Char} {s : Text} (h : Spells c s) (rest : Text) :
    decode (s ++ rest) = String.utf8EncodeChar c ++ decode rest := by
  obtain ⟨i, hi, rfl, hbytes⟩ := h.exists_item
  rw [decode_source_append hi, hbytes]

/-- Decoding undoes every escaping, whatever spelling is taken for each character. -/
theorem decode_flatten {t : Text} {spellings : List Text} (h : List.Forall₂ Spells t spellings) :
    decode spellings.flatten = utf8 t := by
  induction h with
  | nil => rfl
  | cons hc _ ih => rw [List.flatten_cons, hc.decode_append, ih, utf8_cons]

/-- A digit after a short escape, a letter of an escape after an escaped backslash, and digits in
both cases. -/
theorem decode_flatten_mixed :
    List.Forall₂ Spells ['€', '4', '\\', 'x', 'é', '\n', '😀', 'A']
        [['\\', 'u', '+', '2', '0', 'a', 'C'], ['4'], ['\\', '\\'], ['x'],
          ['\\', 'x', 'E', '9'], ['\\', 'n'], ['\\', 'u', '-', '0', '1', 'F', '6', '0', '0'],
          ['\\', 'A']] ∧
      decode ['\\', 'u', '+', '2', '0', 'a', 'C', '4', '\\', '\\', 'x', '\\', 'x', 'E', '9',
          '\\', 'n', '\\', 'u', '-', '0', '1', 'F', '6', '0', '0', '\\', 'A'] =
        utf8 ['€', '4', '\\', 'x', 'é', '\n', '😀', 'A'] := by
  have h : List.Forall₂ Spells ['€', '4', '\\', 'x', 'é', '\n', '😀', 'A']
      [['\\', 'u', '+', '2', '0', 'a', 'C'], ['4'], ['\\', '\\'], ['x'],
        ['\\', 'x', 'E', '9'], ['\\', 'n'], ['\\', 'u', '-', '0', '1', 'F', '6', '0', '0'],
        ['\\', 'A']] := by
    refine .cons (.short rfl (by decide)) <| .cons (.plain (by decide)) <|
      .cons (.escaped (by decide)) <| .cons (.plain (by decide)) <|
      .cons (.byte rfl (by decide)) <| .cons .newline <| .cons (.long rfl (by decide)) <|
      .cons (.escaped (by decide)) .nil
  exact ⟨h, decode_flatten h⟩

end Escape

end XPathAssembly
