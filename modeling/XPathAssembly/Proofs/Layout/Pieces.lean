import XPathAssembly.Proofs.Layout.Gaps

/-!
# The pieces of an expression

The text of an expression is made of one piece for each segment, in order: the text of the segment
and at most one space after it.  Laying out takes bytes back, but only such spaces, and the one that
a glued segment may itself end in.

    s.IsExpression head gs →
      ∃ ps, Forall₂ (Piece.Of style) gs ps ∧ … ∧ s.expression head style = .ok (text of ps)
                                                                          (expression_pieces)

Whether a space is taken back is decided by bytes that stand in the text, whoever wrote them.  So
the invariant says of the text so far not only that it is made of pieces but also that it is
without the space at its end (`Spaced`).  It is kept because a segment without a text takes a space
back only after a byte that is no space itself.
-/

namespace XPathAssembly

namespace Layout

/-! ## Definitions -/

/-- What stands in the text for one segment, and what follows it. -/
structure Piece where
  core : Bytes
  gap : Bytes

def Piece.bytes (p : Piece) : Bytes := p.core ++ p.gap

/-- The piece has the text that is written for the segment (`Segment.spelled_eq` gives it by cases)
in full, except that a glued segment may lack the space it ends in; after it comes one space or
nothing, and nothing after a glued segment. -/
structure Piece.Of (style : Style) (g : Segment) (p : Piece) : Prop where
  core : p.core = g.spelled style ∨ g.kind.isGlued ∧ g.text = p.core ++ [space]
  gap : p.gap = [] ∨ p.gap = [space]
  glued : g.kind.isGlued → p.gap = []

/-- The text is made of pieces of the segments. -/
def Pieced (style : Style) (gs : List Segment) (acc : Bytes) : Prop :=
  ∃ ps, List.Forall₂ (Piece.Of style) gs ps ∧ acc = ps.flatMap Piece.bytes

/-- The text is made of pieces, with the space at its end and without it. -/
structure Spaced (style : Style) (gs : List Segment) (acc : Bytes) : Prop where
  whole : Pieced style gs acc
  trimmed : ∀ left, acc = left ++ [space] → Pieced style gs left

variable {style : Style} {gs : List Segment} {g : Segment} {acc left core gap : Bytes}

/-! ## Lemmas -/

theorem spelled_of_isGlued (hg : g.kind.isGlued) : g.spelled style = g.text := by
  have hk : g.kind ≠ .quoted := by
    intro hq
    rw [hq] at hg
    cases hg
  exact Segment.spelled_of_ne_quoted hk style

theorem Pieced.concat (hp : Pieced style gs acc) (hg : Piece.Of style g ⟨core, gap⟩) :
    Pieced style (gs ++ [g]) (acc ++ core ++ gap) := by
  obtain ⟨ps, hps, rfl⟩ := hp
  refine ⟨ps ++ [⟨core, gap⟩], List.rel_append hps (.cons hg .nil), ?_⟩
  simp [Piece.bytes]

/-- Before a segment without a text no space is taken back that stands after another one. -/
theorem not_closesBefore_of_text_eq_nil (left : Bytes) (ht : g.text = []) :
    ¬ closesBefore (left ++ [space, space]) g := by
  intro hc
  obtain ⟨left', -, hacc, hcloses⟩ := closesBefore_iff.mp hc
  obtain ⟨rfl, -⟩ := List.append_inj' (left.append_cons space [space] ▸ hacc) rfl
  rcases Gap.beside_of_closes hcloses with h | h | h
  · obtain ⟨b, hb, hpunctuation⟩ := Gap.previousIs_iff.mp h
    obtain rfl : space = b := Option.some.inj (List.getLast?_concat.symm.trans hb)
    exact absurd hpunctuation (by decide)
  · obtain ⟨b, hb, -⟩ := Gap.followingIs_iff.mp h
    have hnone : g.text.head? = none := by rw [ht]; rfl
    exact absurd (hnone.symm.trans hb) (Option.some_ne_none b).symm
  · -- a lone minus is no space
    have hlast := congrArg List.getLast? (eq_of_beq h)
    rw [List.getLast?_concat] at hlast
    exact absurd (Option.some.inj hlast) (by decide)

/-! ## One segment more -/

theorem Spaced.kept (hs : Spaced style gs acc) (g : Segment) : Pieced style gs (kept acc g) := by
  unfold Layout.kept
  split
  · next hc => exact hs.trimmed _ (getLast_eq_space_of_closesBefore hc)
  · exact hs.whole

/-- What is kept before a segment without a text is made of pieces also without a space at its
end. -/
theorem Spaced.trimmed_kept (hs : Spaced style gs acc) (ht : g.text = [])
    (hk : Layout.kept acc g = left ++ [space]) : Pieced style gs left := by
  unfold Layout.kept at hk
  split at hk
  · next hc =>
    have hacc := getLast_eq_space_of_closesBefore hc
    rw [hk, List.append_assoc] at hacc
    rw [hacc] at hc
    exact absurd hc (not_closesBefore_of_text_eq_nil left ht)
  · exact hs.trimmed left hk

theorem Spaced.add (hs : Spaced style gs acc) (g : Segment) :
    Spaced style (gs ++ [g]) (add style acc g) := by
  have hkept := hs.kept g
  cases hg : g.kind.isGlued with
  | false =>
    have hadd : Layout.add style acc g = Layout.kept acc g ++ g.spelled style ++ [space] := by
      rw [add_eq, hg]
      rfl
    have hnot : ¬ g.kind.isGlued := by rw [hg]; exact Bool.false_ne_true
    rw [hadd]
    refine ⟨hkept.concat ⟨.inl rfl, .inr rfl, fun h => absurd h hnot⟩, fun left hleft => ?_⟩
    -- the space is the one after the segment
    rw [← List.append_inj_left' hleft rfl]
    have hpiece : Pieced style (gs ++ [g]) (Layout.kept acc g ++ g.spelled style ++ []) :=
      hkept.concat ⟨.inl rfl, .inl rfl, fun _ => rfl⟩
    rwa [List.append_nil] at hpiece
  | true =>
    have hspelled : g.spelled style = g.text := spelled_of_isGlued hg
    have hadd : Layout.add style acc g = Layout.kept acc g ++ g.text ++ [] := by
      rw [add_eq, hg, hspelled]
      rfl
    rw [hadd]
    refine ⟨hkept.concat ⟨.inl hspelled.symm, .inl rfl, fun _ => rfl⟩, fun left hleft => ?_⟩
    rw [List.append_nil] at hleft
    rcases List.eq_nil_or_concat g.text with ht | ⟨core, b, ht⟩
    · -- the segment is empty, and the space is one that was kept
      rw [ht, List.append_nil] at hleft
      have hpiece : Pieced style (gs ++ [g]) (left ++ [] ++ []) :=
        (hs.trimmed_kept ht hleft).concat ⟨.inl (by rw [hspelled, ht]), .inl rfl, fun _ => rfl⟩
      rwa [List.append_nil, List.append_nil] at hpiece
    · -- the space is the last byte of the segment
      rw [List.concat_eq_append] at ht
      rw [ht, ← List.append_assoc] at hleft
      obtain ⟨hl, hb⟩ := List.append_inj' hleft rfl
      rw [← hl]
      have hpiece : Pieced style (gs ++ [g]) (Layout.kept acc g ++ core ++ []) :=
        hkept.concat ⟨.inr ⟨hg, by rw [ht, hb]⟩, .inl rfl, fun _ => rfl⟩
      rwa [List.append_nil] at hpiece

/-! ## All segments -/

theorem spaced_nil (style : Style) : Spaced style [] [] where
  whole := ⟨[], .nil, rfl⟩
  trimmed left hleft := by simp at hleft

theorem Spaced.foldl (hs : Spaced style gs acc) (rest : List Segment) :
    Spaced style (gs ++ rest) (rest.foldl (Layout.add style) acc) := by
  induction rest generalizing gs acc with
  | nil => rwa [List.append_nil]
  | cons g rest ih =>
    rw [List.append_cons, List.foldl_cons]
    exact ih (hs.add g)

/-- The text ends with the last segment: no space is left after it. -/
theorem laidFrom_concat (separated : Bool) (acc : Bytes) (gs : List Segment) (g : Segment) :
    laidFrom style separated acc (gs ++ [g]) =
      kept (gs.foldl (add style) acc) g ++ g.spelled style := by
  induction gs generalizing separated acc with
  | nil =>
    show (if !g.kind.isGlued then (add style acc g).dropLast else add style acc g) = _
    rw [add_eq]
    cases g.kind.isGlued with
    | true => simp
    | false => simp [List.dropLast_append_of_ne_nil]
  | cons h rest ih => exact ih _ _

end Layout

namespace Store

open Layout

variable {s : Store} {head : Option Handle} {gs : List Segment}

/-- **Laying out loses and reorders nothing.**  The text of a finite live expression has a piece for
each of its segments, in order, and nothing after the last of them. -/
theorem expression_pieces (he : s.IsExpression head gs) (style : Style) :
    ∃ ps, List.Forall₂ (Piece.Of style) gs ps ∧ (∀ p, ps.getLast? = some p → p.gap = []) ∧
      s.expression head style = .ok (ps.flatMap Piece.bytes) := by
  rw [expression_eq he]
  rcases List.eq_nil_or_concat gs with rfl | ⟨gs, g, rfl⟩
  · exact ⟨[], .nil, nofun, rfl⟩
  · obtain ⟨ps, hps, hkept⟩ := ((spaced_nil style).foldl gs).kept g
    have hlast : Piece.Of style g ⟨g.spelled style, []⟩ := ⟨.inl rfl, .inl rfl, fun _ => rfl⟩
    rw [List.concat_eq_append]
    refine ⟨ps ++ [⟨g.spelled style, []⟩], List.rel_append hps (.cons hlast .nil), ?_, ?_⟩
    · intro p hp
      rw [List.getLast?_concat] at hp
      rw [← Option.some.inj hp]
    · unfold laid
      rw [laidFrom_concat, hkept]
      simp [Piece.bytes]

/-- An axis name that ends in a space, between a name and a slash, and a literal with a double
mark. -/
def axisAndLiteral : Store where
  cells := #[⟨some (.ofText ['x'] .bare), some 1, none⟩,
    ⟨some (.ofText ['a', ' '] .axisName), some 2, none⟩,
    ⟨some (.ofText ['/'] .slash), some 3, none⟩,
    ⟨some (.ofText ['b', '"', 'c'] .quoted), none, none⟩]

theorem isExpression_axisAndLiteral : axisAndLiteral.IsExpression (some 0)
    [.ofText ['x'] .bare, .ofText ['a', ' '] .axisName, .ofText ['/'] .slash,
      .ofText ['b', '"', 'c'] .quoted] :=
  ⟨[0, 1, 2, 3], ⟨rfl, rfl, rfl, rfl, rfl, rfl, rfl, rfl, rfl⟩, rfl⟩

/-- The axis name has lost its space, the slash stands directly after it, and the literal between
single marks directly after the slash. -/
theorem pieces_axisAndLiteral : ∃ ps,
    List.Forall₂ (Piece.Of { quotes := true })
      [.ofText ['x'] .bare, .ofText ['a', ' '] .axisName, .ofText ['/'] .slash,
        .ofText ['b', '"', 'c'] .quoted] ps ∧
      (∀ p, ps.getLast? = some p → p.gap = []) ∧
      utf8 "x a/'b\"c'".toList = ps.flatMap Piece.bytes := by
  have hrun : axisAndLiteral.expression (some 0) { quotes := true } =
      .ok (utf8 "x a/'b\"c'".toList) := by rfl
  obtain ⟨ps, hps, hlast, htext⟩ :=
    expression_pieces isExpression_axisAndLiteral { quotes := true }
  exact ⟨ps, hps, hlast, Except.ok.inj (hrun.symm.trans htext)⟩

end Store

end XPathAssembly
