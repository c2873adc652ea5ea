import Mathlib.Tactic.SplitIfs
import XPathAssembly.Proofs.Escape.Spelling
import XPathAssembly.Proofs.Escape.Validity
import XPathAssembly.Proofs.Token

/-!
# How long a decoded literal is

Decoding never fails: what it hands to the functions for digits and for code points meets their
conditions, and what they answer keeps their promises.  No item has more bytes than its source, but
for an `\x` at the very end, which has one more; so a segment is shorter than its quoted token.

    decodeChecked t = .ok (decode t)                                 (decodeChecked_eq)
    (decode t).length ≤ (utf8 t).length + (items t).count (.byte [])    (length_decode_le)
-/

namespace XPathAssembly

/-! ## Decoding with all conditions checked -/

namespace CodePoint

/-- `read?` of which the answer is checked too: six digits have no more. -/
def readChecked (digits : Text) (width : Int) : Except Fault Nat := do
  let n ← read? digits width
  if n < limit then return n else throw .escape

/-- `encode?` of which the answer is checked too: it has one to four bytes. -/
def encodeChecked (n : Int) : Except Fault Bytes := do
  let bs ← encode? n
  if 1 ≤ bs.length ∧ bs.length ≤ 4 then return bs else throw .escape

end CodePoint

namespace Escape

/-- The bytes of an item, with the conditions of all calls checked. -/
def Item.bytesChecked : Item → Except Fault Bytes
  | plain c => return String.utf8EncodeChar c
  | escaped c => return escapedBytes c
  | byte digits =>
    CodePoint.encodeChecked
      (if digits.length = 2 then CodePoint.read digits else CodePoint.replacement)
  | word sign digits => do
    CodePoint.encodeChecked (← CodePoint.readChecked digits (if sign = '+' then 4 else 6))

/-- `decode` with the conditions of all calls checked; a text without backslashes has to be
encoded only. -/
def decodeChecked (t : Text) : Except Fault Bytes := do
  let bs := (← (items t).mapM Item.bytesChecked).flatten
  if '\\' ∈ t ∨ bs = utf8 t then return bs else throw .escape

end Escape

/-! ## Lemmas -/

theorem length_le_length_utf8 (t : Text) : t.length ≤ (utf8 t).length := by
  induction t with
  | nil => exact Nat.le_refl 0
  | cons c t ih =>
    have hc := c.utf8Size_pos
    rw [utf8_cons, List.length_append, String.length_utf8EncodeChar, List.length_cons]
    omega

namespace CodePoint

theorem size_pos (n : Nat) : 1 ≤ size n := by
  unfold size
  split_ifs <;> omega

theorem size_le (n : Nat) : size n ≤ 4 := by
  unfold size
  split_ifs <;> omega

theorem read_lt_limit {digits : Text} (hlength : digits.length ≤ 6) : read digits < limit := by
  by_cases hne : digits = []
  · subst hne
    decide
  · unfold read
    cases hread : readFrom 0 digits with
    | none => decide
    | some n =>
      have hpos : 0 < digits.length := List.length_pos_iff.2 hne
      have hn : n < 16 ^ digits.length := ((readFrom_eq_some_iff hne).1 hread).lt hpos
      have hle : 16 ^ digits.length ≤ 16 ^ 6 := Nat.pow_le_pow_right (by decide) hlength
      exact Nat.lt_of_lt_of_le hn hle

theorem readChecked_eq {digits : Text} {width : Int} (hlength : digits.length = width)
    (hwidth : width = 4 ∨ width = 6) : readChecked digits width = .ok (read digits) := by
  have hlimit : read digits < limit := read_lt_limit (by omega)
  unfold readChecked read?
  rw [if_pos ⟨hlength, hwidth⟩]
  exact if_pos hlimit

theorem encodeChecked_eq {n : Nat} (hn : n < limit) : encodeChecked n = .ok (encode n) := by
  have hlength := length_encode n
  have hpos := size_pos n
  have hle := size_le n
  unfold encodeChecked
  rw [encode?_eq hn]
  exact if_pos ⟨by omega, by omega⟩

end CodePoint

namespace Escape

variable {t digits : Text} {i : Item} {is : List Item} {sign : Char}

/-- A text without backslashes is encoded as it stands. -/
theorem decode_of_not_mem (ht : '\\' ∉ t) : decode t = utf8 t := by
  induction t with
  | nil => rfl
  | cons c t ih =>
    obtain ⟨hc, ht⟩ := not_or.1 (List.mem_cons.not.1 ht)
    have hread : decode (c :: t) = String.utf8EncodeChar c ++ decode t :=
      decode_source_append (i := .plain c) (Ne.symm hc) t
    rw [hread, ih ht, utf8_cons]

/-! ### Calls -/

/-- The calls that an item is decoded with meet their conditions and keep their promises. -/
theorem Item.bytesChecked_eq (hi : i ∈ items t) : i.bytesChecked = .ok i.bytes := by
  cases i with
  | plain c => rfl
  | escaped c => rfl
  | byte digits =>
    have hreplacement : CodePoint.replacement < CodePoint.limit := by decide
    show CodePoint.encodeChecked (if digits.length = 2 then _ else _) =
      .ok (CodePoint.encode (if digits.length = 2 then _ else _))
    split_ifs with hlength
    · exact CodePoint.encodeChecked_eq (CodePoint.read_lt_limit (by omega))
    · exact CodePoint.encodeChecked_eq hreplacement
  | word sign digits =>
    have hread : CodePoint.readChecked digits (if sign = '+' then 4 else 6) =
        .ok (CodePoint.read digits) := by
      rcases stands_of_word_mem_items hi with ⟨rfl, hlength⟩ | ⟨rfl, hlength⟩
      · exact CodePoint.readChecked_eq (congrArg Int.ofNat hlength) (.inl rfl)
      · exact CodePoint.readChecked_eq (congrArg Int.ofNat hlength) (.inr rfl)
    have hlimit : CodePoint.read digits < CodePoint.limit := by
      refine CodePoint.read_lt_limit ?_
      rcases stands_of_word_mem_items hi with ⟨-, hlength⟩ | ⟨-, hlength⟩ <;> omega
    show (CodePoint.readChecked digits _ >>= fun n => CodePoint.encodeChecked n) =
      .ok (CodePoint.encode (CodePoint.read digits))
    simp only [hread, bind, Except.bind, CodePoint.encodeChecked_eq hlimit]

theorem decodeChecked_eq (t : Text) : decodeChecked t = .ok (decode t) := by
  have hplain : '\\' ∈ t ∨ decode t = utf8 t := by
    by_cases ht : '\\' ∈ t
    · exact .inl ht
    · exact .inr (decode_of_not_mem ht)
  unfold decodeChecked
  rw [mapM_of_ok fun i hi => Item.bytesChecked_eq hi]
  show (if '\\' ∈ t ∨ ((items t).map Item.bytes).flatten = utf8 t then _ else _) = _
  rw [← List.flatMap_def]
  exact if_pos hplain

/-! ### Lengths -/

/-- No item has more bytes than its source, but for an `\x` without any characters after it. -/
theorem Item.length_bytes_le (hword : ∀ sign, i ≠ .word sign []) :
    i.bytes.length ≤ (utf8 i.source).length + if i = .byte [] then 1 else 0 := by
  cases i with
  | plain c => exact Nat.le_of_eq (by simp [Item.bytes, Item.source])
  | escaped c =>
    have hc := c.utf8Size_pos
    have hbackslash := '\\'.utf8Size_pos
    have hbytes : (escapedBytes c).length ≤ c.utf8Size := by
      unfold escapedBytes
      split_ifs
      · exact hc
      · exact hc
      · exact hc
      · exact Nat.le_of_eq (String.length_utf8EncodeChar c)
    have hsource : (utf8 ['\\', c]).length = '\\'.utf8Size + c.utf8Size := by simp
    show (escapedBytes c).length ≤ (utf8 ['\\', c]).length + _
    omega
  | byte digits =>
    have hsource := length_le_length_utf8 ('\\' :: 'x' :: digits)
    show (CodePoint.encode (if digits.length = 2 then _ else _)).length ≤
      (utf8 ('\\' :: 'x' :: digits)).length + _
    rw [List.length_cons, List.length_cons] at hsource
    rw [CodePoint.length_encode]
    by_cases hlength : digits.length = 2
    · have hle := CodePoint.size_le (CodePoint.read digits)
      rw [if_pos hlength]
      omega
    · have hreplacement : CodePoint.size CodePoint.replacement = 3 := by decide
      rw [if_neg hlength, hreplacement]
      cases digits with
      | nil =>
        rw [if_pos rfl]
        exact Nat.succ_le_succ hsource
      | cons c digits =>
        rw [List.length_cons] at hsource
        omega
  | word sign digits =>
    have hsource := length_le_length_utf8 ('\\' :: 'u' :: sign :: digits)
    have hpos : 0 < digits.length := List.length_pos_iff.2 fun h => hword sign (h ▸ rfl)
    have hle := CodePoint.size_le (CodePoint.read digits)
    show (CodePoint.encode (CodePoint.read digits)).length ≤
      (utf8 ('\\' :: 'u' :: sign :: digits)).length + _
    rw [List.length_cons, List.length_cons, List.length_cons] at hsource
    rw [CodePoint.length_encode]
    omega

theorem length_flatMap_bytes_le (hword : ∀ sign, .word sign [] ∉ is) :
    (is.flatMap Item.bytes).length ≤
      (utf8 (is.flatMap Item.source)).length + is.count (.byte []) := by
  induction is with
  | nil => exact Nat.le_refl 0
  | cons i is ih =>
    have hfirst : i.bytes.length ≤ (utf8 i.source).length + if i = .byte [] then 1 else 0 :=
      Item.length_bytes_le fun sign he => hword sign (he ▸ List.mem_cons_self)
    have hrest := ih fun sign hm => hword sign (List.mem_cons_of_mem _ hm)
    rw [List.flatMap_cons, List.flatMap_cons, utf8_append, List.length_append, List.length_append,
      List.count_cons]
    simp only [beq_iff_eq]
    omega

/-- A decoded text is longer than the text by its escapes `\x` without digits at most. -/
theorem length_decode_le (t : Text) :
    (decode t).length ≤ (utf8 t).length + (items t).count (.byte []) := by
  have hword (sign : Char) : .word sign [] ∉ items t :=
    fun hm => digits_ne_nil_of_mem_items hm rfl
  have h := length_flatMap_bytes_le hword
  rwa [flatMap_source_items] at h

/-- Such an escape is the end of the text, so that there is one at most. -/
theorem exists_of_bare_mem_items (h : .byte [] ∈ items t) :
    ∃ front, items t = front ++ [.byte []] ∧ .byte [] ∉ front := by
  have hcons {i : Item} {rest : Text} (hi : i ≠ .byte []) (h : .byte [] ∈ i :: items rest)
      (ih : .byte [] ∈ items rest → ∃ front, items rest = front ++ [.byte []] ∧ .byte [] ∉ front) :
      ∃ front, i :: items rest = front ++ [.byte []] ∧ .byte [] ∉ front := by
    obtain ⟨front, hfront, hnot⟩ := ih (List.mem_of_ne_of_mem (Ne.symm hi) h)
    refine ⟨i :: front, by rw [hfront]; rfl, ?_⟩
    rw [List.mem_cons, not_or]
    exact ⟨Ne.symm hi, hnot⟩
  fun_induction items t with
  | case1 => cases h
  | case2 => cases List.mem_singleton.1 h
  | case3 a b rest ih => exact hcons (by simp) h ih
  | case4 rest hx =>
    rw [← List.mem_singleton.1 h]
    exact ⟨[], rfl, List.not_mem_nil⟩
  | case5 a b c d rest ih => exact hcons (by simp) h ih
  | case6 a b c d e f rest ih => exact hcons (by simp) h ih
  | case7 => rename_i ih; exact hcons (by simp) h ih
  | case8 => rename_i ih; exact hcons (by simp) h ih

/-! ### Tokens -/

theorem length_utf8_slice {source : Text} {start stop : Nat} (hlt : start + 2 ≤ stop)
    (hstop : stop ≤ source.length) :
    (utf8 (Token.slice source (start + 1) (stop - 1))).length + 2 ≤
      (utf8 (Token.slice source start stop)).length := by
  obtain ⟨first, last, hslice⟩ := Token.slice_eq_cons_append hlt hstop
  have hfirst := first.utf8Size_pos
  have hlast := last.utf8Size_pos
  rw [hslice, utf8_cons, utf8_append, List.length_append, List.length_append,
    String.length_utf8EncodeChar, utf8_cons, utf8_nil, List.append_nil,
    String.length_utf8EncodeChar]
  omega

/-- **Decoding never outgrows its token.**  It meets all conditions of what it calls, and the bytes
are more than those of the text by one at most, and only if the text ends with an `\x`; so the
segment of a quoted token is always shorter than the token. -/
theorem decode_bounded :
    (∀ t : Text, decodeChecked t = .ok (decode t) ∧
      (decode t).length ≤ (utf8 t).length + 1 ∧
      ((utf8 t).length < (decode t).length → ∃ front, items t = front ++ [.byte []] ∧
        t = front.flatMap Item.source ++ ['\\', 'x'])) ∧
    ∀ (source : Text) (r : Token.Range) (g : Segment),
      Token.segment? source r .quoted = .ok (some g) →
      g.text.length < (utf8 (Token.slice source r.start.toNat r.stop.toNat)).length := by
  have hbound (t : Text) : (decode t).length ≤ (utf8 t).length + 1 ∧
      ((utf8 t).length < (decode t).length → ∃ front, items t = front ++ [.byte []] ∧
        t = front.flatMap Item.source ++ ['\\', 'x']) := by
    have hle := length_decode_le t
    by_cases hbare : .byte [] ∈ items t
    · obtain ⟨front, hfront, hnot⟩ := exists_of_bare_mem_items hbare
      have hcount : (items t).count (.byte []) = 1 := by
        rw [hfront, List.count_append, List.count_eq_zero.2 hnot]
        rfl
      have ht : front.flatMap Item.source ++ ['\\', 'x'] = t := by
        rw [← flatMap_source_items t, hfront, List.flatMap_append]
        rfl
      exact ⟨by omega, fun _ => ⟨front, hfront, ht.symm⟩⟩
    · rw [List.count_eq_zero.2 hbare] at hle
      exact ⟨by omega, fun hlt => absurd hlt (by omega)⟩
  refine ⟨fun t => ⟨decodeChecked_eq t, hbound t⟩, fun source r g hg => ?_⟩
  obtain ⟨hstart, hlt, hstop⟩ := Token.bounds_of_segment? hg
  have htext : g = .ofBytes (decode (Token.slice source (r.start.toNat + 1) (r.stop.toNat - 1)))
      .quoted := Option.some.inj (Token.taken?_of_segment? hg)
  have hinside := (hbound (Token.slice source (r.start.toNat + 1) (r.stop.toNat - 1))).1
  have hslice := @length_utf8_slice source r.start.toNat r.stop.toNat (by omega) (by omega)
  rw [htext]
  show (decode _).length < _
  omega

/-- An `\x` before the closing quote: six bytes of a token for five of its segment. -/
theorem decode_bounded_bare :
    (utf8 ['é', '\\', 'x']).length < (decode ['é', '\\', 'x']).length ∧
    (∃ front, items ['é', '\\', 'x'] = front ++ [.byte []] ∧
      ['é', '\\', 'x'] = front.flatMap Item.source ++ ['\\', 'x']) ∧
    Token.segment? ['\'', 'é', '\\', 'x', '\''] ⟨0, 5⟩ .quoted =
      .ok (some (.ofText ['é', '\ufffd'] .quoted)) ∧
    (utf8 ['é', '\ufffd']).length < (utf8 ['\'', 'é', '\\', 'x', '\'']).length := by
  have hg : Token.segment? ['\'', 'é', '\\', 'x', '\''] ⟨0, 5⟩ .quoted =
      .ok (some (.ofText ['é', '\ufffd'] .quoted)) := by decide
  have hlonger : (utf8 ['é', '\\', 'x']).length < (decode ['é', '\\', 'x']).length := by decide
  obtain ⟨hdecode, hsegment⟩ := decode_bounded
  exact ⟨hlonger, (hdecode ['é', '\\', 'x']).2.2 hlonger, hg, hsegment _ _ _ hg⟩

end Escape

end XPathAssembly
