import XPathAssembly.Proofs.Layout.Literals
import XPathAssembly.Proofs.Text.Utf8
import Mathlib.Data.List.Induction

/-!
# Well-formed texts

All that laying out adds to the texts of segments, and all that it takes back, is ASCII.  A byte of
a longer sequence is never ASCII, so no sequence is split or cut, and the text of well-formed
segments is well-formed.  It has the replacement characters of the segments and no others.

    (∀ g ∈ gs, IsUtf8 g.text) → Encodes (laid style gs) (replacements gs)      (encodes_laid)

`Encodes bs n` is kept by another text after `bs`, by a space less at the end, and by writing more
ASCII for ASCII bytes (`Encodes.replace`), which is what escaping and doubling do.
-/

namespace XPathAssembly

/-- The bytes encode a text with this many replacement characters. -/
def Encodes (bs : Bytes) (n : Nat) : Prop := ∃ t : Text, bs = utf8 t ∧ t.count Utf8.replacement = n

/-- The replacement characters in the text of a segment when it is read. -/
def Segment.replacements (g : Segment) : Nat := (Utf8.decodeLossy g.text).count Utf8.replacement

namespace Layout

/-- The replacement characters in the texts of segments. -/
def replacements (gs : List Segment) : Nat := (gs.map Segment.replacements).sum

theorem replacements_append (gs gs' : List Segment) :
    replacements (gs ++ gs') = replacements gs + replacements gs' := by
  simp [replacements]

theorem replacements_cons (g : Segment) (gs : List Segment) :
    replacements (g :: gs) = g.replacements + replacements gs :=
  replacements_append [g] gs

end Layout

/-! ## ASCII in encoded text -/

/-- A character is encoded as itself, or without any ASCII byte. -/
theorem encodeChar_cases (c : Char) :
    (∃ b < (0x80 : UInt8), String.utf8EncodeChar c = [b] ∧ c ≠ Utf8.replacement) ∨
      ∀ b ∈ String.utf8EncodeChar c, 0x80 ≤ b := by
  have htagged : ∀ {tag size n : Nat}, 0 < size → tag + size ≤ 256 → 0x80 ≤ tag →
      0x80 ≤ CodePoint.tagged tag size n := by
    intro tag size n hsize hfit htag
    rw [UInt8.le_iff_toNat_le, CodePoint.toNat_tagged n hsize hfit]
    exact Nat.le_trans htag (Nat.le_add_right _ _)
  rw [← CodePoint.encode_toNat]
  unfold CodePoint.encode
  split_ifs with h1 h2 h3
  · have hb : (UInt8.ofNat c.toNat).toNat = c.toNat := Nat.mod_eq_of_lt (by omega)
    refine .inl ⟨_, ?_, rfl, ?_⟩
    · rw [UInt8.lt_iff_toNat_lt, hb]
      exact Nat.lt_succ_of_le h1
    · rintro rfl
      exact absurd h1 (by decide)
  all_goals
    refine .inr fun b hb => ?_
    simp only [List.mem_cons, List.not_mem_nil, or_false] at hb
    rcases hb with rfl | rfl | rfl | rfl <;> exact htagged (by decide) (by decide) (by decide)

namespace Encodes

variable {as bs : Bytes} {n m : Nat}

theorem isUtf8 (h : Encodes bs n) : IsUtf8 bs := by
  obtain ⟨t, ht, -⟩ := h
  exact ⟨t, ht⟩

theorem nil : Encodes [] 0 := ⟨[], rfl, rfl⟩

theorem append (ha : Encodes as n) (hb : Encodes bs m) : Encodes (as ++ bs) (n + m) := by
  obtain ⟨s, rfl, rfl⟩ := ha
  obtain ⟨t, rfl, rfl⟩ := hb
  exact ⟨s ++ t, (utf8_append s t).symm, List.count_append⟩

/-- A text between texts without replacement characters. -/
theorem between {opening closing : Bytes} (ho : Encodes opening 0) (h : Encodes bs n)
    (hc : Encodes closing 0) : Encodes (opening ++ (bs ++ closing)) n := by
  have hall := ho.append (h.append hc)
  rwa [Nat.zero_add, Nat.add_zero] at hall

theorem ascii (hb : ∀ b ∈ bs, b < 0x80) : Encodes bs 0 := by
  induction bs with
  | nil => exact nil
  | cons b bs ih =>
    obtain ⟨hfirst, hrest⟩ := List.forall_mem_cons.mp hb
    have hn : b.toNat < 0x80 := UInt8.lt_iff_toNat_lt.mp hfirst
    obtain ⟨c, hc⟩ := CodePoint.exists_char_toNat (n := b.toNat) (.inl (by omega))
    have hone : Encodes [b] 0 := by
      refine ⟨[c], ?_, ?_⟩
      · rw [utf8_cons, ← CodePoint.encode_toNat, hc, CodePoint.encode, if_pos (by omega),
          UInt8.ofNat_toNat]
        rfl
      · refine List.count_eq_zero_of_not_mem fun hm => ?_
        rw [← List.mem_singleton.mp hm] at hc
        exact absurd (hc ▸ hn) (by decide)
    exact hone.append (ih hrest)

/-- A constant of ASCII bytes. -/
theorem constant (hb : (bs.all fun b => b < 0x80) = true) : Encodes bs 0 := by
  rw [List.all_eq_true] at hb
  exact ascii fun b hm => of_decide_eq_true (hb b hm)

/-- ASCII bytes may be replaced by ASCII bytes. -/
theorem replace {p : UInt8 → Prop} [DecidablePred p] {f : UInt8 → Bytes}
    (hp : ∀ b, p b → b < 0x80 ∧ ((f b).all fun x => x < 0x80) = true) (h : Encodes bs n) :
    Encodes (bs.flatMap fun b => if p b then f b else [b]) n := by
  obtain ⟨t, rfl, rfl⟩ := h
  induction t with
  | nil => exact nil
  | cons c t ih =>
    rw [utf8_cons, List.flatMap_append]
    rcases encodeChar_cases c with ⟨b, hb, hc, hne⟩ | hc
    · have hone : Encodes (if p b then f b else [b]) 0 := by
        split
        · next hb => exact constant (hp b hb).2
        · exact ascii (by simpa using hb)
      rw [hc, List.flatMap_singleton, List.count_cons_of_ne hne, ← Nat.zero_add (t.count _)]
      exact hone.append ih
    · have hkept : ∀ b ∈ String.utf8EncodeChar c, (if p b then f b else [b]) = [b] := fun b hb =>
        if_neg fun h => absurd (hp b h).1 (UInt8.not_lt.mpr (hc b hb))
      have hone : Encodes (String.utf8EncodeChar c) ([c].count Utf8.replacement) :=
        ⟨[c], (List.append_nil _).symm, rfl⟩
      rw [(List.flatMap_congr hkept).trans (List.flatMap_singleton' _), ← List.singleton_append,
        List.count_append]
      exact hone.append ih

theorem escapeMarks (h : Encodes bs n) : Encodes (escapeMarks bs) n :=
  h.replace (by rintro b rfl; decide)

theorem doubleBraces (h : Encodes bs n) : Encodes (doubleBraces bs) n :=
  h.replace (by rintro b (rfl | rfl) <;> decide)

/-- An ASCII byte at the end may be taken back. -/
theorem of_append_space (h : Encodes (as ++ [space]) n) : Encodes as n := by
  obtain ⟨t, ht, rfl⟩ := h
  induction t using List.reverseRecOn with
  | nil => exact absurd ht (by simp)
  | append_singleton t c _ =>
    rw [utf8_append, utf8_cons, utf8_nil, List.append_nil] at ht
    rcases encodeChar_cases c with ⟨b, -, hc, hne⟩ | hc
    · rw [hc] at ht
      refine ⟨t, (List.append_inj' ht rfl).1, ?_⟩
      rw [List.count_append, List.count_cons_of_ne hne, List.count_nil, Nat.add_zero]
    · -- the last byte of a longer sequence is no space
      have hlast := congrArg List.getLast? ht
      rw [List.getLast?_append_of_ne_nil _ String.utf8EncodeChar_ne_nil,
        List.getLast?_concat] at hlast
      exact absurd (hc _ (List.mem_of_getLast? hlast.symm)) (by decide)

end Encodes

/-! ## Texts of segments -/

namespace Segment

variable {g : Segment} {style : Style}

theorem encodes_text (hg : IsUtf8 g.text) : Encodes g.text g.replacements := by
  obtain ⟨t, ht⟩ := hg
  refine ⟨t, ht, ?_⟩
  unfold replacements
  rw [ht, Utf8.decodeLossy_utf8]

theorem encodes_quotedWrites (hg : IsUtf8 g.text) :
    Encodes g.quotedWrites.flatten g.replacements := by
  obtain ⟨q, body, hmark, hbody, hwrites⟩ := g.quotedWrites_eq
  have hq : Encodes [q] 0 := by
    simp only [Template.isMark, Bool.or_eq_true, decide_eq_true_eq] at hmark
    rcases hmark with rfl | rfl <;> exact .constant (by decide)
  have htext : Encodes body g.replacements := by
    rcases hbody with rfl | rfl
    · exact encodes_text hg
    · exact (encodes_text hg).escapeMarks
  rw [hwrites]
  exact hq.between htext hq

theorem encodes_spelled (hg : IsUtf8 g.text) (style : Style) :
    Encodes (g.spelled style) g.replacements := by
  have htext := encodes_text hg
  unfold spelled writes
  split
  · exact encodes_quotedWrites hg
  · split
    · rw [List.flatten_singleton]
      exact htext.doubleBraces
    · rwa [List.flatten_singleton]

end Segment

/-! ## Laid out texts -/

namespace Layout

variable {style : Style} {gs : List Segment} {es : List (List Segment)}

theorem encodes_laid (hg : ∀ g ∈ gs, IsUtf8 g.text) (style : Style) :
    Encodes (laid style gs) (replacements gs) := by
  refine laid_induction (fun done acc => Encodes acc (replacements done)) .nil ?_ ?_ ?_
  · intro done acc g hmem hacc
    rw [replacements_append, replacements_cons]
    exact hacc.append (Segment.encodes_spelled (hg g hmem) style)
  · intro done acc hacc
    exact hacc.append (.constant (by decide))
  · exact fun _ _ hacc => hacc.of_append_space

theorem encodes_arguments (hg : ∀ gs ∈ es, ∀ g ∈ gs, IsUtf8 g.text) (style : Style) :
    Encodes (Store.callSeparator.intercalate (es.map (laid style))) (replacements es.flatten) := by
  refine Store.arguments_induction (fun es acc => Encodes acc (replacements es.flatten)) .nil ?_ ?_
  · intro gs hmem
    rw [List.flatten_singleton]
    exact encodes_laid (hg gs hmem) style
  · intro gs hmem gs' rest acc hacc
    have hseparator : Encodes Store.callSeparator 0 := .constant (by decide)
    have hall := (encodes_laid (hg gs hmem) style).append (hseparator.append hacc)
    rw [List.flatten_cons, replacements_append]
    rwa [Nat.zero_add] at hall

theorem encodes_callText (hg : ∀ gs ∈ es, ∀ g ∈ gs, IsUtf8 g.text) (style : Style) :
    Encodes (callText style es) (replacements es.flatten) :=
  .between (.constant (by decide)) (encodes_arguments hg style) (.constant (by decide))

theorem encodes_part (hg : ∀ g ∈ gs, IsUtf8 g.text) (style : Style) :
    Encodes (part style gs) (replacements gs) := by
  unfold part
  split
  · exact encodes_laid hg style
  · have hopening : Encodes [openBrace] 0 := .constant (by decide)
    exact hopening.between (encodes_laid hg { style with quotes := true }) (.constant (by decide))

theorem encodes_parts (hg : ∀ g ∈ es.flatten, IsUtf8 g.text) (style : Style) :
    Encodes (es.flatMap (part style)) (replacements es.flatten) := by
  induction es with
  | nil => exact .nil
  | cons gs es ih =>
    rw [List.flatten_cons, List.forall_mem_append] at hg
    rw [List.flatMap_cons, List.flatten_cons, replacements_append]
    exact (encodes_part hg.1 style).append (ih hg.2)

end Layout

/-! ## Chains -/

namespace Store

open Layout

variable {s : Store} {head : Option Handle} {es : List (List Segment)} {gs : List Segment}

/-- Without a sibling there is at most one expression. -/
theorem IsConcatenation.headD_eq_flatten (hc : s.IsConcatenation head es)
    (hn : head.bind (s.link? .sibling) = none) : es.headD [] = es.flatten := by
  match es with
  | [] => rfl
  | [gs] => simp
  | _ :: _ :: _ =>
    obtain ⟨k, hk⟩ := hc.exists_sibling (by simp)
    rw [hn] at hk
    cases hk

theorem encodes_expression (he : s.IsExpression head gs) (hg : ∀ g ∈ gs, IsUtf8 g.text)
    (style : Style) : ∃ bs, s.expression head style = .ok bs ∧ Encodes bs (replacements gs) :=
  ⟨_, expression_eq he, encodes_laid hg style⟩

theorem encodes_concatCall (hc : s.IsConcatenation head es)
    (hg : ∀ g ∈ es.flatten, IsUtf8 g.text) (style : Style) :
    ∃ bs, s.concatCall head style = .ok bs ∧ Encodes bs (replacements es.flatten) := by
  cases hk : head.bind (s.link? .sibling) with
  | none =>
    have he := hc.isExpression_headD
    rw [hc.headD_eq_flatten hk] at he
    rw [concatCall_of_no_sibling he.isChain hk]
    exact encodes_expression he hg style
  | some k =>
    rw [List.forall_mem_flatten] at hg
    exact ⟨_, concatCall_of_sibling hc hk, encodes_callText hg _⟩

theorem encodes_template (hc : s.IsConcatenation head es)
    (hg : ∀ g ∈ es.flatten, IsUtf8 g.text) (style : Style) :
    ∃ bs, s.template head style = .ok bs ∧ Encodes bs (replacements es.flatten) := by
  cases head with
  | none =>
    have he := hc.isExpression_headD
    rw [hc.headD_eq_flatten rfl] at he
    exact encodes_expression he hg { style with braces := true }
  | some h => exact ⟨_, template_eq hc, encodes_parts hg _⟩

end Store

end XPathAssembly
