import Mathlib.Data.List.Infix
import XPathAssembly.Proofs.Escape.Length

/-!
# Where a text can be divided

What is written after a text is decoded apart from it, as long as no escape of the text waits for
more.  An escape that does, at the end of the text, takes what follows for its own digits.

    isCutShort t = false → items (t ++ b) = i :: items (rest ++ b)        (exists_item)
    (∀ b, decode (a ++ b) = decode a ++ decode b) ↔ IsWhole a             (decode_append_iff)
-/

namespace XPathAssembly

namespace Escape

/-! ## Escapes that are cut short -/

/-- Whether an escape stands at the beginning of a text that ends too early for it: after the
backslash, before both digits, before the sign, or before all digits that the sign asks for. -/
def isCutShort : Text → Bool
  | ['\\'] => true
  | '\\' :: 'x' :: rest => rest.length < 2
  | ['\\', 'u'] => true
  | '\\' :: 'u' :: '+' :: rest => rest.length < 4
  | '\\' :: 'u' :: '-' :: rest => rest.length < 6
  | _ => false

/-- What is left of a text each time an item is read, and after the last one. -/
def remainders (t : Text) : List Text := (items t).tails.map (·.flatMap Item.source)

/-- No escape that is read from the text is cut short by its end. -/
def IsWhole (t : Text) : Prop := ∀ rest ∈ remainders t, isCutShort rest = false

instance (t : Text) : Decidable (IsWhole t) := inferInstanceAs (Decidable (∀ _ ∈ _, _))

/-! ## Lemmas -/

variable {t rest digits : Text} {sign : Char} {width : Nat} {i : Item}

theorem items_eq_nil_iff : items t = [] ↔ t = [] := by
  constructor
  · intro h
    have ht := flatMap_source_items t
    rw [h] at ht
    exact ht.symm
  · rintro rfl
    rfl

theorem mem_remainders_self (t : Text) : t ∈ remainders t :=
  List.mem_map.mpr ⟨items t, (List.mem_tails _ _).mpr List.suffix_rfl, flatMap_source_items t⟩

theorem isWhole_iff_of_items (hi : items t = i :: items rest) :
    IsWhole t ↔ isCutShort t = false ∧ IsWhole rest := by
  have hremainders : remainders t = t :: remainders rest := by
    have ht := flatMap_source_items t
    unfold remainders
    rw [hi] at ht ⊢
    rw [List.tails_cons, List.map_cons, ht]
  unfold IsWhole
  rw [hremainders, List.forall_mem_cons]

/-- A `u` without a sign, or without room for its digits, is a letter like any other. -/
theorem items_escaped_u
    (hplus : ∀ a b c d r, rest ≠ '+' :: a :: b :: c :: d :: r)
    (hminus : ∀ a b c d e f r, rest ≠ '-' :: a :: b :: c :: d :: e :: f :: r) :
    items ('\\' :: 'u' :: rest) = .escaped 'u' :: items rest := by
  rw [items]
  all_goals simp_all

/-- An item that is not cut short is read in the same way whatever follows the text. -/
theorem exists_item (hne : t ≠ []) (hcut : isCutShort t = false) :
    ∃ i rest, ∀ b, items (t ++ b) = i :: items (rest ++ b) := by
  fun_cases items t with
  | case1 => exact absurd rfl hne
  | case2 => cases hcut
  | case3 a b rest => exact ⟨_, rest, fun _ => rfl⟩
  | case4 rest hx =>
    match rest, hx with
    | [], _ => cases hcut
    | [a], _ => cases hcut
    | a :: b :: rest, hx => exact absurd rfl (hx a b rest)
  | case5 a b c d rest => exact ⟨_, rest, fun _ => rfl⟩
  | case6 a b c d e f rest => exact ⟨_, rest, fun _ => rfl⟩
  | case7 c rest _ hx hplus hminus =>
    by_cases hu : c = 'u'
    · subst hu
      match rest with
      | [] => cases hcut
      | sign :: digits =>
        refine ⟨.escaped 'u', sign :: digits, fun b => items_escaped_u ?_ ?_⟩
        · intro a b' c d r he
          obtain rfl := (List.cons.inj he).1
          have hlength : 4 ≤ digits.length := by simpa [isCutShort] using hcut
          match digits, hlength with
          | a :: b :: c :: d :: r, _ => exact hplus a b c d r rfl rfl
        · intro a b' c d e f r he
          obtain rfl := (List.cons.inj he).1
          have hlength : 6 ≤ digits.length := by simpa [isCutShort] using hcut
          match digits, hlength with
          | a :: b :: c :: d :: e :: f :: r, _ => exact hminus a b c d e f r rfl rfl
    · exact ⟨.escaped c, rest, fun b => items_source_append (i := .escaped c) ⟨hx, hu⟩ _⟩
  | case8 c rest h1 _ _ _ _ h6 =>
    have hc : c ≠ '\\' := by
      rintro rfl
      cases rest with
      | nil => exact h1 rfl rfl
      | cons c' rest => exact h6 c' rest rfl rfl
    exact ⟨.plain c, rest, fun b => items_source_append (i := .plain c) hc _⟩

/-- A text that is whole is read apart from what follows it. -/
theorem items_append (ht : IsWhole t) (b : Text) : items (t ++ b) = items t ++ items b := by
  generalize his : items t = is
  induction is generalizing t with
  | nil =>
    obtain rfl := items_eq_nil_iff.mp his
    rfl
  | cons i is ih =>
    have hne : t ≠ [] := fun h => by
      rw [items_eq_nil_iff.mpr h] at his
      cases his
    obtain ⟨j, rest, hread⟩ := exists_item hne (ht t (mem_remainders_self t))
    have ht' : items t = j :: items rest := by simpa using hread []
    rw [ht'] at his
    obtain ⟨rfl, hrest⟩ := List.cons.inj his
    rw [hread, ih ((isWhole_iff_of_items ht').mp ht).2 hrest, List.cons_append]

/-! ### Texts that go on -/

theorem readFrom_of_mem {c : Char} {value : Nat} (hm : c ∈ digits) (hc : hexValue? c = none) :
    CodePoint.readFrom value digits = none := by
  induction digits generalizing value with
  | nil => cases hm
  | cons c' digits ih =>
    show (hexValue? c').bind _ = none
    rcases List.mem_cons.1 hm with rfl | hm
    · rw [hc]
      rfl
    · cases hexValue? c' with
      | none => rfl
      | some d => exact ih hm

/-- How many digits a sign asks for. -/
def IsWidth (sign : Char) (width : Nat) : Prop :=
  (sign = '+' ∧ width = 4) ∨ (sign = '-' ∧ width = 6)

/-- Letters that are no digits, to fill up an escape. -/
def filling (n : Nat) : Text := List.replicate n 'z'

theorem length_decode_filling (n : Nat) : n ≤ (decode (filling n)).length := by
  have hplain : '\\' ∉ filling n := fun h => nomatch List.eq_of_mem_replicate h
  have hlength := length_le_length_utf8 (filling n)
  rw [decode_of_not_mem hplain]
  rwa [filling, List.length_replicate] at hlength

/-- An escape that is filled up is malformed. -/
theorem read_append_filling {n : Nat} (hn : 0 < n) (digits : Text) :
    CodePoint.read (digits ++ filling n) = CodePoint.replacement := by
  have hm : 'z' ∈ digits ++ filling n :=
    List.mem_append_right _ (List.mem_replicate.2 ⟨by omega, rfl⟩)
  unfold CodePoint.read
  rw [readFrom_of_mem hm (by decide)]
  rfl

theorem length_decode_pos (ht : t ≠ []) : 0 < (decode t).length := by
  have hitems : items t ≠ [] := fun h => ht (items_eq_nil_iff.1 h)
  unfold decode
  cases hi : items t with
  | nil => exact absurd hi hitems
  | cons i is =>
    rw [List.flatMap_cons, List.length_append, i.bytes_eq_encode, CodePoint.length_encode]
    have := CodePoint.size_pos i.codePoint
    omega

/-- An escape that is filled up has the three bytes of the replacement character; read apart, what
it has and what fills it up are more. -/
theorem decode_append_filling_ne {n : Nat} (hi : i.Stands) (hsource : t ++ filling n = i.source)
    (hbytes : i.bytes.length = 3) (hlt : 3 < (decode t).length + n) :
    decode (t ++ filling n) ≠ decode t ++ decode (filling n) := by
  intro he
  have hfilling := length_decode_filling n
  have hread : decode i.source = i.bytes ++ decode [] := by
    rw [← decode_source_append hi, List.append_nil]
  have hlength := congrArg List.length he
  rw [hsource, hread, List.length_append, List.length_append, hbytes] at hlength
  have hnil : (decode []).length = 0 := rfl
  omega

theorem length_encode_read_append_filling {n : Nat} (hn : 0 < n) (digits : Text) :
    (CodePoint.encode (CodePoint.read (digits ++ filling n))).length = 3 := by
  rw [read_append_filling hn]
  rfl

theorem length_append_filling {n : Nat} (hlt : digits.length < n) :
    (digits ++ filling (n - digits.length)).length = n := by
  rw [List.length_append, filling, List.length_replicate]
  omega

theorem length_decode_byte (hlt : digits.length < 2) :
    (decode ('\\' :: 'x' :: digits)).length = 3 := by
  match digits, hlt with
  | [], _ => rfl
  | [_], _ => rfl

/-- A sign without room for its digits is a character like any other. -/
theorem length_decode_word (hw : IsWidth sign width) (hlt : digits.length < width) :
    (decode ('\\' :: 'u' :: sign :: digits)).length = 2 + (decode digits).length := by
  have hsign : sign ≠ '\\' := by
    rcases hw with ⟨rfl, -⟩ | ⟨rfl, -⟩ <;> decide
  have hitems : items ('\\' :: 'u' :: sign :: digits) =
      .escaped 'u' :: .plain sign :: items digits := by
    rw [items_escaped_u, ← items_source_append (i := .plain sign) hsign]
    · rfl
    · intro a b c d r he
      obtain ⟨rfl, rfl⟩ := List.cons.inj he
      rcases hw with ⟨-, rfl⟩ | ⟨he, -⟩
      · simp only [List.length_cons] at hlt
        omega
      · cases he
    · intro a b c d e f r he
      obtain ⟨rfl, rfl⟩ := List.cons.inj he
      rcases hw with ⟨he, -⟩ | ⟨-, rfl⟩
      · cases he
      · simp only [List.length_cons] at hlt
        omega
  have hbytes : (String.utf8EncodeChar sign).length = 1 := by
    rcases hw with ⟨rfl, -⟩ | ⟨rfl, -⟩ <;> rfl
  unfold decode
  rw [hitems, List.flatMap_cons, List.flatMap_cons, List.length_append, List.length_append]
  show 1 + ((String.utf8EncodeChar sign).length + _) = _
  omega

theorem exists_ne_of_byte (hlt : digits.length < 2) :
    ∃ b, decode ('\\' :: 'x' :: digits ++ b) ≠ decode ('\\' :: 'x' :: digits) ++ decode b := by
  have hlength := length_append_filling hlt
  have hbytes : (Item.byte (digits ++ filling (2 - digits.length))).bytes.length = 3 := by
    show (CodePoint.encode (if _ then _ else _)).length = 3
    rw [if_pos hlength, length_encode_read_append_filling (by omega)]
  refine ⟨_, decode_append_filling_ne (i := .byte _) hlength rfl hbytes ?_⟩
  rw [length_decode_byte hlt]
  omega

theorem exists_ne_of_word (hw : IsWidth sign width) (hlt : digits.length < width) :
    ∃ b, decode ('\\' :: 'u' :: sign :: digits ++ b) ≠
      decode ('\\' :: 'u' :: sign :: digits) ++ decode b := by
  have hstands : (Item.word sign (digits ++ filling (width - digits.length))).Stands := by
    show IsWidth sign _
    rwa [length_append_filling hlt]
  refine ⟨_, decode_append_filling_ne hstands rfl
    (length_encode_read_append_filling (by omega) digits) ?_⟩
  rw [length_decode_word hw hlt]
  -- Without any digits the letter and the sign are two bytes, and four at least are filled up.
  by_cases hdigits : digits = []
  · subst hdigits
    rcases hw with ⟨-, rfl⟩ | ⟨-, rfl⟩ <;> decide
  · have hpos := length_decode_pos hdigits
    omega

/-- An escape that is cut short takes what follows for its own. -/
theorem exists_ne_of_isCutShort (hcut : isCutShort t) :
    ∃ b, decode (t ++ b) ≠ decode t ++ decode b := by
  unfold isCutShort at hcut
  split at hcut
  · exact ⟨['n'], by decide⟩
  · exact exists_ne_of_byte (by simpa using hcut)
  · exact ⟨'+' :: filling 4, by decide⟩
  · exact exists_ne_of_word (.inl ⟨rfl, rfl⟩) (by simpa using hcut)
  · exact exists_ne_of_word (.inr ⟨rfl, rfl⟩) (by simpa using hcut)
  · cases hcut

theorem exists_ne_of_not_isWhole (ht : ¬ IsWhole t) :
    ∃ b, decode (t ++ b) ≠ decode t ++ decode b := by
  generalize his : items t = is
  induction is generalizing t with
  | nil =>
    obtain rfl := items_eq_nil_iff.mp his
    exact absurd (by decide) ht
  | cons i is ih =>
    cases hcut : isCutShort t with
    | true => exact exists_ne_of_isCutShort hcut
    | false =>
      have hne : t ≠ [] := fun h => by
        rw [items_eq_nil_iff.mpr h] at his
        cases his
      obtain ⟨j, rest, hread⟩ := exists_item hne hcut
      have ht' : items t = j :: items rest := by simpa using hread []
      rw [ht'] at his
      have hrest : ¬ IsWhole rest := fun h => ht ((isWhole_iff_of_items ht').mpr ⟨hcut, h⟩)
      obtain ⟨b, hb⟩ := ih hrest (List.cons.inj his).2
      refine ⟨b, fun he => hb ?_⟩
      unfold decode at he ⊢
      rw [hread, ht', List.flatMap_cons, List.flatMap_cons, List.append_assoc] at he
      exact List.append_cancel_left he

/-- **Decoding is compositional at escape boundaries.**  What follows a text is decoded apart from
it, whatever it is, if and only if no escape that is read from the text is cut short by its end. -/
theorem decode_append_iff (a : Text) :
    (∀ b, decode (a ++ b) = decode a ++ decode b) ↔ IsWhole a := by
  constructor
  · intro h
    by_contra hnot
    obtain ⟨b, hb⟩ := exists_ne_of_not_isWhole hnot
    exact hb (h b)
  · intro h b
    unfold decode
    rw [items_append h, List.flatMap_append]

/-- An escaped backslash ends on its own, and the `x` after it is a letter. -/
example : IsWhole ['\\', '\\', 'x', '\\', 'u', 'x'] := by decide

end Escape

end XPathAssembly
