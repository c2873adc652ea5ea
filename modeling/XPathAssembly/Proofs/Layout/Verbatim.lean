import XPathAssembly.Proofs.Layout.Reading

/-!
# Literals in templates

A part of a template that is one literal stands there as its text with the braces doubled, and has
no marks around it — unless the style asks for quotes.  Then every such literal is written between
marks, and its braces are left as they are.

    s.template (some h) style = .ok (es.flatMap verbatim) ↔
      (style.quotes = true → no expression is one literal)      (template_verbatim_iff)

That the two texts differ is seen from their marks: doubling braces adds none, and a literal between
marks has two more than its text.
-/

namespace XPathAssembly

/-! ## Marks in texts -/

namespace Template

/-- How many marks stand in a text. -/
def markCount (bs : Bytes) : Nat := bs.countP isMark

theorem markCount_append (as bs : Bytes) : markCount (as ++ bs) = markCount as + markCount bs :=
  List.countP_append

/-- What puts no marks in and takes none out leaves their number. -/
theorem markCount_flatMap {f : UInt8 → Bytes} (hf : ∀ b, markCount (f b) = markCount [b])
    (bs : Bytes) : markCount (bs.flatMap f) = markCount bs := by
  induction bs with
  | nil => rfl
  | cons b bs ih => rw [List.flatMap_cons, markCount_append, hf, ih, ← markCount_append]; rfl

theorem markCount_doubleBraces (bs : Bytes) : markCount (doubleBraces bs) = markCount bs := by
  refine markCount_flatMap (fun b => ?_) bs
  split
  · next hb => rcases hb with rfl | rfl <;> rfl
  · rfl

theorem markCount_escapeMarks (bs : Bytes) : markCount (escapeMarks bs) = markCount bs := by
  refine markCount_flatMap (fun b => ?_) bs
  split
  · next hb => rw [hb]; rfl
  · rfl

end Template

open Template

/-- A literal between marks has two more than its text. -/
theorem Segment.markCount_quotedWrites (g : Segment) :
    markCount g.quotedWrites.flatten = markCount g.text + 2 := by
  have hbetween : ∀ (q : UInt8) (bs : Bytes), isMark q →
      markCount [[q], bs, [q]].flatten = markCount bs + 2 := by
    intro q bs hq
    have hone : markCount [q] = 1 := by simp [markCount, hq]
    show markCount ([q] ++ (bs ++ ([q] ++ []))) = _
    rw [markCount_append, markCount_append, List.append_nil, hone]
    omega
  unfold quotedWrites
  split
  · rw [hbetween _ _ (by decide), markCount_escapeMarks]
  · split <;> rw [hbetween _ _ (by decide)]

/-! ## Parts -/

namespace Layout

variable {style : Style} {gs : List Segment} {es : List (List Segment)}

/-- A part as it is meant to be: a literal with its braces doubled, any other expression in braces
and with its literals between marks. -/
def verbatim (gs : List Segment) : Bytes :=
  if isLiteral gs then doubleBraces (gs.flatMap Segment.text)
  else openBrace :: (laid { quotes := true } gs ++ [closeBrace])

/-- Literals between marks. -/
def marked (gs : List Segment) : Bytes := gs.flatMap fun g => g.quotedWrites.flatten

theorem part_eq_verbatim (hb : style.braces = true)
    (hq : style.quotes = true → isLiteral gs = false) : part style gs = verbatim gs := by
  cases hlit : isLiteral gs with
  | true =>
    obtain ⟨g, rfl, hk⟩ := isLiteral_iff.mp hlit
    have hquotes : style.quotes = false := by
      by_contra hne
      rw [hq (by simpa using hne)] at hlit
      cases hlit
    rw [part_of_isLiteral hk hquotes hb, verbatim, if_pos hlit]
    simp
  | false =>
    have hnot : ¬ isLiteral gs := by rw [hlit]; exact Bool.false_ne_true
    unfold part verbatim
    rw [if_neg hnot, if_neg hnot, laid_quotes]

theorem part_of_quotes (hq : style.quotes = true) (hlit : isLiteral gs) :
    part style gs = marked gs := by
  obtain ⟨g, rfl, hk⟩ := isLiteral_iff.mp hlit
  unfold part
  rw [if_pos hlit, laid_singleton]
  simp [Segment.spelled, Segment.writes, marked, hk, hq]

theorem markCount_verbatim_lt (hq : style.quotes = true) (hlit : isLiteral gs) :
    markCount (verbatim gs) < markCount (part style gs) := by
  rw [part_of_quotes hq hlit, verbatim, if_pos hlit, markCount_doubleBraces]
  obtain ⟨g, rfl, -⟩ := isLiteral_iff.mp hlit
  have hmarks := g.markCount_quotedWrites
  simp only [marked, List.flatMap_cons, List.flatMap_nil, List.append_nil]
  omega

theorem markCount_parts (f : List Segment → Bytes) (es : List (List Segment)) :
    markCount (es.flatMap f) = (es.map fun gs => markCount (f gs)).sum :=
  List.countP_flatMap

/-- Under quotes, one literal among the parts makes the marks more than they are meant to be. -/
theorem parts_eq_verbatim_iff (hb : style.braces = true) :
    es.flatMap (part style) = es.flatMap verbatim ↔
      (style.quotes = true → ∀ gs ∈ es, isLiteral gs = false) := by
  constructor
  · intro he hq gs hm
    by_contra hne
    have hlit : isLiteral gs := by simpa using hne
    have hle : ∀ k ∈ es, markCount (verbatim k) ≤ markCount (part style k) := by
      intro k _
      cases hk : isLiteral k with
      | true => exact Nat.le_of_lt (markCount_verbatim_lt hq hk)
      | false => rw [part_eq_verbatim hb fun _ => hk]
    have hsum := List.sum_lt_sum _ _ hle ⟨gs, hm, markCount_verbatim_lt hq hlit⟩
    rw [← markCount_parts, ← markCount_parts, he] at hsum
    exact Nat.lt_irrefl _ hsum
  · intro hnone
    exact List.flatMap_congr fun gs hm => part_eq_verbatim hb fun hq => hnone hq gs hm

end Layout

/-! ## Templates -/

namespace Store

open Layout

variable {s : Store} {h : Handle} {es : List (List Segment)} {style : Style}

/-- **When literals are written as they are.**  A template is its parts as they are meant to be if
and only if the style asks for no quotes or no expression is one literal; and if it does, each such
literal is written between marks, while the other parts are the same. -/
theorem template_verbatim_iff (hc : s.IsConcatenation (some h) es) (style : Style) :
    ∃ bs, s.template (some h) style = .ok bs ∧
      (bs = es.flatMap verbatim ↔
        (style.quotes = true → ∀ gs ∈ es, Layout.isLiteral gs = false)) ∧
      (style.quotes = true →
        bs = es.flatMap fun gs => if Layout.isLiteral gs then marked gs else verbatim gs) := by
  refine ⟨_, template_eq hc, parts_eq_verbatim_iff rfl, fun hq => ?_⟩
  refine List.flatMap_congr fun gs _ => ?_
  cases hlit : Layout.isLiteral gs with
  | true => exact part_of_quotes hq hlit
  | false => exact part_eq_verbatim rfl fun _ => hlit

/-- Under quotes, a literal beside a name has marks, and its braces are single. -/
theorem template_verbatim_literalBesideName :
    ∃ bs, literalBesideName.template (some 0) { quotes := true } = .ok bs ∧
      bs = utf8 "\"\x7bx\x7d\"\x7ba\x7d".toList ∧
      bs ≠ [[Segment.ofText ['\x7b', 'x', '\x7d'] .quoted],
        [Segment.ofText ['a'] .bare]].flatMap verbatim := by
  have hc : literalBesideName.IsConcatenation (some 0)
      [[.ofText ['\x7b', 'x', '\x7d'] .quoted], [.ofText ['a'] .bare]] :=
    ⟨[0, 1], ⟨rfl, rfl, rfl, rfl, rfl⟩,
      .cons ⟨[0], ⟨rfl, rfl, rfl⟩, rfl⟩ (.cons ⟨[1], ⟨rfl, rfl, rfl⟩, rfl⟩ .nil)⟩
  obtain ⟨bs, hbs, hiff, hmarked⟩ := template_verbatim_iff hc { quotes := true }
  refine ⟨bs, hbs, hmarked rfl, fun he => ?_⟩
  have hnone : Layout.isLiteral [.ofText ['\x7b', 'x', '\x7d'] .quoted] = false :=
    hiff.mp he rfl _ List.mem_cons_self
  cases hnone

/-- A literal that is the whole value has marks around it, too. -/
theorem template_marks_lone_literal :
    ∃ (s : Store) (g : Segment), g = .ofText ['a'] .quoted ∧
      s.IsConcatenation (some 0) [[g]] ∧ Layout.isLiteral [g] ∧
      s.template (some 0) { quotes := true } = .ok (utf8 ['"', 'a', '"']) ∧
      s.template (some 0) { quotes := true } ≠ .ok (doubleBraces g.text) :=
  ⟨{ cells := #[⟨some (.ofText ['a'] .quoted), none, none⟩] }, _, rfl,
    ⟨[0], ⟨rfl, rfl, rfl⟩, .cons ⟨[0], ⟨rfl, rfl, rfl⟩, rfl⟩ .nil⟩, rfl, rfl, nofun⟩

end Store

end XPathAssembly
