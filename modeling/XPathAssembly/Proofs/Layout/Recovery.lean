import XPathAssembly.Proofs.Layout.Reading

/-!
# Literals told apart

A literal that is written between marks can be read back, whatever bytes it has: the marks at its
ends are taken off, and between double ones each backslash that stands before a double mark is taken
out.  So no two literals are written in the same way.

    unquote (g.spelled style) = some g.text                                (unquote_spelled)

Backslashes of the text are not escaped, and two of the three forms begin with a double mark.  The
reader needs not know which of them it has: the inside of one has no double mark at all, and in the
inside of the other each double mark has its own backslash directly before it.
-/

namespace XPathAssembly

namespace Layout

/-! ## Reading -/

/-- Each backslash before a double mark is taken out, from left to right. -/
def unescapeMarks : Bytes → Bytes
  | a :: b :: rest =>
    if a = backslash ∧ b = doubleMark then doubleMark :: unescapeMarks rest
    else a :: unescapeMarks (b :: rest)
  | bs => bs

/-- The text of a literal between two marks of one sort. -/
def unquote : Bytes → Option Bytes
  | [] => none
  | q :: rest =>
    if Template.isMark q ∧ rest.getLast? = some q then
      some (if q = doubleMark then unescapeMarks rest.dropLast else rest.dropLast)
    else none

/-! ## Lemmas -/

section
variable {b q : UInt8} {bs : Bytes}

/-- Where no double mark follows, no byte is taken out. -/
theorem unescapeMarks_cons (hb : bs.head? ≠ some doubleMark) :
    unescapeMarks (b :: bs) = b :: unescapeMarks bs := by
  cases bs with
  | nil => rfl
  | cons c bs =>
    have hc : c ≠ doubleMark := fun he => hb (congrArg some he)
    rw [unescapeMarks, if_neg fun h => hc h.2]

theorem unescapeMarks_of_not_mem (hb : doubleMark ∉ bs) : unescapeMarks bs = bs := by
  induction bs with
  | nil => rfl
  | cons b bs ih =>
    have hbs : doubleMark ∉ bs := fun h => hb (List.mem_cons_of_mem b h)
    rw [unescapeMarks_cons fun he => hbs (List.mem_of_mem_head? he), ih hbs]

theorem escapeMarks_cons (b : UInt8) (bs : Bytes) :
    escapeMarks (b :: bs) = (if b = doubleMark then [backslash, b] else [b]) ++ escapeMarks bs :=
  List.flatMap_cons

theorem head?_escapeMarks (bs : Bytes) : (escapeMarks bs).head? ≠ some doubleMark := by
  cases bs with
  | nil => exact nofun
  | cons b bs =>
    rw [escapeMarks_cons]
    by_cases hb : b = doubleMark
    · rw [if_pos hb]
      show some backslash ≠ some doubleMark
      decide
    · rw [if_neg hb]
      exact fun he => hb (Option.some.inj he)

/-- A backslash of the text is followed by no double mark, since this has one of its own. -/
theorem unescapeMarks_escapeMarks (bs : Bytes) : unescapeMarks (escapeMarks bs) = bs := by
  induction bs with
  | nil => rfl
  | cons b bs ih =>
    rw [escapeMarks_cons]
    by_cases hb : b = doubleMark
    · rw [if_pos hb, hb]
      show unescapeMarks (backslash :: doubleMark :: escapeMarks bs) = _
      rw [unescapeMarks, if_pos ⟨rfl, rfl⟩, ih]
    · rw [if_neg hb]
      show unescapeMarks (b :: escapeMarks bs) = _
      rw [unescapeMarks_cons (head?_escapeMarks bs), ih]

theorem unquote_between (hq : Template.isMark q) (bs : Bytes) :
    unquote (q :: (bs ++ [q])) = some (if q = doubleMark then unescapeMarks bs else bs) := by
  rw [unquote, if_pos ⟨hq, List.getLast?_concat⟩, List.dropLast_concat]

end

/-- A literal that was made of its text is read back, in each of the three forms. -/
theorem unquote_quotedWrites {g : Segment} (hm : g.IsMade) :
    unquote g.quotedWrites.flatten = some g.text := by
  have hmarks : g.marks = Marks.ofBytes g.text := congrArg Segment.marks hm
  have hflat {q : UInt8} {bs : Bytes} : [[q], bs, [q]].flatten = q :: (bs ++ [q]) := by simp
  have hsingle : Template.isMark singleMark := by decide
  have hdouble : Template.isMark doubleMark := by decide
  unfold Segment.quotedWrites
  split
  · rw [hflat, unquote_between hdouble, if_pos rfl, unescapeMarks_escapeMarks]
  · split
    · rw [hflat, unquote_between hsingle, if_neg Marks.singleMark_ne_doubleMark]
    · next hnone =>
      have hnot : doubleMark ∉ g.text := by
        rwa [hmarks, Marks.double_ofBytes_iff] at hnone
      rw [hflat, unquote_between hdouble, if_pos rfl, unescapeMarks_of_not_mem hnot]

theorem unquote_spelled {g : Segment} (hm : g.IsMade) (hk : g.kind = .quoted) {style : Style}
    (hq : style.quotes = true) : unquote (g.spelled style) = some g.text := by
  have hspelled : g.spelled style = g.quotedWrites.flatten := by
    simp [Segment.spelled, Segment.writes, hk, hq]
  rw [hspelled, unquote_quotedWrites hm]

end Layout

/-! ## Literals as expressions -/

namespace Store

open Layout

/-- **No two literals are written alike.**  With quotes each literal is written so that it can be
read back, in one way for all of them; so what is written is the same only for the same text. -/
theorem expression_eq_iff_of_quoted {s s' : Store} {head head' : Option Handle}
    {text text' : Bytes} (hl : s.IsExpression head [.ofBytes text .quoted])
    (hl' : s'.IsExpression head' [.ofBytes text' .quoted]) {style style' : Style}
    (hq : style.quotes = true) (hq' : style'.quotes = true) :
    ∃ bs bs', s.expression head style = .ok bs ∧ s'.expression head' style' = .ok bs' ∧
      unquote bs = some text ∧ unquote bs' = some text' ∧ (bs = bs' ↔ text = text') := by
  have hread {text : Bytes} {style : Style} (hq : style.quotes = true) :
      unquote (laid style [.ofBytes text .quoted]) = some text := by
    rw [laid_singleton]
    exact unquote_spelled (g := .ofBytes text .quoted) rfl rfl hq
  refine ⟨_, _, expression_eq hl, expression_eq hl', hread hq, hread hq', ?_, ?_⟩
  · intro he
    have hsame := congrArg unquote he
    rw [hread hq, hread hq'] at hsame
    exact Option.some.inj hsame
  · rintro rfl
    -- with quotes the braces of a literal do not matter
    have hstyle : ∀ {style : Style}, style.quotes = true →
        ({ style with quotes := true } : Style) = style := by
      rintro ⟨_, _⟩ rfl
      rfl
    rw [← hstyle hq, ← hstyle hq', laid_quotes, laid_quotes style']

/-- A store with one literal. -/
def oneLiteral (text : Bytes) : Store where
  cells := #[⟨some (.ofBytes text .quoted), none, none⟩]

theorem isExpression_oneLiteral (text : Bytes) :
    (oneLiteral text).IsExpression (some 0) [.ofBytes text .quoted] :=
  ⟨[0], ⟨rfl, rfl, rfl⟩, rfl⟩

/-- A text that ends with a backslash, and one with a backslash before a mark and with marks of both
sorts: either is written between double marks. -/
theorem expression_backslash :
    (oneLiteral (utf8 ['a', '\\'])).expression (some 0) { quotes := true } =
        .ok (utf8 ['"', 'a', '\\', '"']) ∧
      unquote (utf8 ['"', 'a', '\\', '"']) = some (utf8 ['a', '\\']) ∧
      (oneLiteral (utf8 ['\\', '"', '\''])).expression (some 0) { quotes := true, braces := true } =
        .ok (utf8 ['"', '\\', '\\', '"', '\'', '"']) ∧
      unquote (utf8 ['"', '\\', '\\', '"', '\'', '"']) = some (utf8 ['\\', '"', '\'']) := by
  have hquotes : ({ quotes := true } : Style).quotes = true := rfl
  have hbraces : ({ quotes := true, braces := true } : Style).quotes = true := rfl
  obtain ⟨bs, bs', hbs, hbs', hread, hread', -⟩ :=
    expression_eq_iff_of_quoted (isExpression_oneLiteral (utf8 ['a', '\\']))
      (isExpression_oneLiteral (utf8 ['\\', '"', '\''])) hquotes hbraces
  have hrun : (oneLiteral (utf8 ['a', '\\'])).expression (some 0) { quotes := true } =
      .ok (utf8 ['"', 'a', '\\', '"']) := rfl
  have hrun' : (oneLiteral (utf8 ['\\', '"', '\''])).expression (some 0)
      { quotes := true, braces := true } = .ok (utf8 ['"', '\\', '\\', '"', '\'', '"']) := rfl
  obtain rfl := Except.ok.inj (hrun.symm.trans hbs)
  obtain rfl := Except.ok.inj (hrun'.symm.trans hbs')
  exact ⟨hrun, hread, hrun', hread'⟩

end Store

end XPathAssembly
