import XPathAssembly.Proofs.Text.Lines

/-!
# Cutting a text line by line

Any text is its first line and what comes after it; the first line of what comes after may not begin
with a line feed that belongs to the end of the one before.  A margin moves lines to the right and
leaves them lines, and a line feed keeps what stands before it apart from what comes after.

    (∀ l rest, l.Leads rest → P rest → P (l.whole ++ rest)) → P t           (lines_induction)
    lines (indent m t) = (lines t).map (Line.moved m)                       (lines_indent)
    lines (t ++ '\n' :: u) = ls ++ lines u                       (exists_lines_append_newline)
-/

namespace XPathAssembly

/-- The line is the first one of a text that goes on with `rest`. -/
structure Line.Leads (l : Line) (rest : Text) : Prop where
  body : OneLine l.body
  stop : (l.stop = [] ∧ l.body ≠ [] ∧ rest = []) ∨ l.stop = ['\r', '\n'] ∨
    ∃ c, l.stop = [c] ∧ endsLine c = true ∧ (c = '\r' → rest.head? ≠ some '\n')

/-- A line with the margin before it, unless it is blank. -/
def Line.moved (m : Text) (l : Line) : Line :=
  if isBlankText l.whole then l else ⟨m ++ l.body, l.stop⟩

variable {c : Char} {m s t : Text} {l : Line} {ls : List Line}

/-! ## First lines -/

theorem lines_cons_of_endsLine (hc : endsLine c = true) (hr : c = '\r' → t.head? ≠ some '\n') :
    lines (c :: t) = ⟨[], [c]⟩ :: lines t := by
  rw [lines, if_pos hc]
  rintro rest rfl rfl
  exact hr rfl rfl

namespace Line.Leads

theorem whole_ne_nil (h : l.Leads t) : l.whole ≠ [] := by
  rcases h.stop with ⟨-, hbody, -⟩ | hstop | ⟨c, hstop, -⟩
  · exact List.append_ne_nil_of_left_ne_nil hbody _
  · exact List.append_ne_nil_of_right_ne_nil _ (hstop ▸ List.cons_ne_nil _ _)
  · exact List.append_ne_nil_of_right_ne_nil _ (hstop ▸ List.cons_ne_nil _ _)

theorem lines_eq (h : l.Leads t) : lines (l.whole ++ t) = l :: lines t := by
  obtain ⟨body, stop⟩ := l
  unfold Line.whole
  rcases h.stop with ⟨rfl, hne, rfl⟩ | rfl | ⟨c, rfl, hc, hr⟩
  · rw [List.append_nil, List.append_nil]
    exact lines_eq_singleton h.body hne
  · rw [List.append_assoc]
    exact lines_oneLine_append h.body (by rw [List.cons_append, List.singleton_append, lines])
  · rw [List.append_assoc]
    exact lines_oneLine_append h.body (lines_cons_of_endsLine hc hr)

/-- More characters in front. -/
theorem append_body (h : l.Leads t) (hs : OneLine s) : Line.Leads ⟨s ++ l.body, l.stop⟩ t where
  body := hs.append h.body
  stop := h.stop.imp_left fun ⟨hstop, hbody, ht⟩ =>
    ⟨hstop, List.append_ne_nil_of_right_ne_nil s hbody, ht⟩

end Line.Leads

theorem exists_leads (hne : t ≠ []) : ∃ l rest, t = Line.whole l ++ rest ∧ l.Leads rest := by
  fun_induction lines t with
  | case1 => exact absurd rfl hne
  | case2 rest => exact ⟨⟨[], ['\r', '\n']⟩, rest, rfl, .nil, .inr (.inl rfl)⟩
  | case3 c rest hpair hc =>
    refine ⟨⟨[], [c]⟩, rest, rfl, .nil, .inr (.inr ⟨c, rfl, hc, fun hr hn => ?_⟩)⟩
    obtain ⟨tail, rfl⟩ := List.head?_eq_some_iff.1 hn
    exact hpair tail hr rfl
  | case4 c rest _ hc ih =>
    rw [Bool.not_eq_true] at hc
    by_cases hnil : rest = []
    · subst hnil
      exact ⟨⟨[c], []⟩, [], rfl, .cons hc .nil, .inl ⟨rfl, List.cons_ne_nil _ _, rfl⟩⟩
    · obtain ⟨l, u, rfl, hl⟩ := ih hnil
      exact ⟨⟨[c] ++ l.body, l.stop⟩, u, rfl, hl.append_body (.cons hc .nil)⟩

/-- Texts are built from lines, from the last one on. -/
@[elab_as_elim]
theorem lines_induction {P : Text → Prop} (nil : P [])
    (line : ∀ (l : Line) rest, l.Leads rest → P rest → P (l.whole ++ rest)) (t : Text) : P t := by
  induction hn : t.length using Nat.strongRecOn generalizing t with
  | ind n ih =>
    by_cases hne : t = []
    · rwa [hne]
    · obtain ⟨l, rest, rfl, hl⟩ := exists_leads hne
      have hpos : 0 < l.whole.length := List.length_pos_iff.2 hl.whole_ne_nil
      rw [List.length_append] at hn
      exact line l rest hl (ih rest.length (by omega) rest rfl)

/-! ## Margins -/

theorem Line.whole_moved (m : Text) (l : Line) : (l.moved m).whole = l.indent m := by
  unfold Line.moved Line.indent
  split
  · rfl
  · exact List.append_assoc m l.body l.stop

theorem indent_append (h : l.Leads t) : indent m (l.whole ++ t) = l.indent m ++ indent m t := by
  unfold indent
  rw [h.lines_eq, List.flatMap_cons]

/-- A margin puts no line feed at the front of a text. -/
theorem head?_indent_ne (hm : OneLine m) (ht : t.head? ≠ some '\n') :
    (indent m t).head? ≠ some '\n' := by
  by_cases hne : t = []
  · rwa [hne] at ht ⊢
  · obtain ⟨l, rest, rfl, hl⟩ := exists_leads hne
    obtain ⟨c, w, hw⟩ := List.exists_cons_of_ne_nil hl.whole_ne_nil
    rw [indent_append hl]
    unfold Line.indent
    rw [hw] at ht ⊢
    split
    · exact ht
    · cases m with
      | nil => exact ht
      | cons d m =>
        rintro ⟨⟩
        exact hm.not_mem_newline List.mem_cons_self

theorem leads_indent (h : l.Leads t) (hm : OneLine m) : l.Leads (indent m t) where
  body := h.body
  stop := by
    refine h.stop.imp (fun ⟨hstop, hbody, ht⟩ => ⟨hstop, hbody, ?_⟩)
      (.imp_right fun ⟨c, hstop, hc, hr⟩ => ⟨c, hstop, hc, fun hreturn => ?_⟩)
    · rw [ht]
      rfl
    · exact head?_indent_ne hm (hr hreturn)

theorem moved_leads (h : l.Leads t) (hm : OneLine m) : (l.moved m).Leads t := by
  unfold Line.moved
  split
  · exact h
  · exact h.append_body hm

/-- The lines of an indented text are its lines, indented. -/
theorem lines_indent (hm : OneLine m) (t : Text) :
    lines (indent m t) = (lines t).map (Line.moved m) := by
  induction t using lines_induction with
  | nil => rfl
  | line l rest hl ih =>
    rw [indent_append hl, ← Line.whole_moved, (leads_indent (moved_leads hl hm) hm).lines_eq,
      hl.lines_eq, ih, List.map_cons]

/-! ## Line feeds -/

/-- A line feed after a text comes after its first line, or it belongs to the end of it. -/
theorem Line.Leads.newline (h : l.Leads t) :
    (∀ u, l.Leads (t ++ '\n' :: u)) ∨
      t = [] ∧ ∃ stop, ∀ u, lines (l.whole ++ '\n' :: u) = ⟨l.body, stop⟩ :: lines u := by
  obtain ⟨body, stop⟩ := l
  have hbody : OneLine body := h.body
  rcases h.stop with ⟨rfl, -, ht⟩ | hpair | ⟨c, rfl, hc, hr⟩
  · refine .inr ⟨ht, ['\n'], fun u => ?_⟩
    unfold Line.whole
    rw [List.append_nil]
    exact lines_append_newline hbody u
  · exact .inl fun u => ⟨hbody, .inr (.inl hpair)⟩
  · by_cases habsorbed : c = '\r' ∧ t = []
    · obtain ⟨rfl, ht⟩ := habsorbed
      refine .inr ⟨ht, ['\r', '\n'], fun u => ?_⟩
      unfold Line.whole
      rw [List.append_assoc]
      exact lines_oneLine_append hbody (by rw [List.singleton_append, lines])
    · refine .inl fun u => ⟨hbody, .inr (.inr ⟨c, rfl, hc, fun hreturn => ?_⟩)⟩
      obtain ⟨d, w, rfl⟩ := List.exists_cons_of_ne_nil fun ht => habsorbed ⟨hreturn, ht⟩
      exact hr hreturn

/-- A text with a line feed after it is cut apart from what follows.  It has the lines of the text
without the line feed, but where that stopped with an end of a line, there is an empty one more. -/
theorem exists_lines_append_newline (t : Text) :
    ∃ ls : List Line, (∀ u, lines (t ++ '\n' :: u) = ls ++ lines u) ∧
      (ls.map Line.body = lineBodies t ∨ ls.map Line.body = lineBodies t ++ [[]]) := by
  induction t using lines_induction with
  | nil => exact ⟨[⟨[], ['\n']⟩], fun u => lines_newline u, .inr rfl⟩
  | line l rest hl ih =>
    have hcut : lineBodies (l.whole ++ rest) = l.body :: lineBodies rest := by
      unfold lineBodies
      rw [hl.lines_eq, List.map_cons]
    rw [hcut]
    rcases hl.newline with hleads | ⟨rfl, stop, hstop⟩
    · obtain ⟨ls, hls, hbodies⟩ := ih
      refine ⟨l :: ls, fun u => ?_, ?_⟩
      · rw [List.append_assoc, (hleads u).lines_eq, hls, List.cons_append]
      · rw [List.map_cons, List.cons_append, List.cons_inj_right, List.cons_inj_right]
        exact hbodies
    · refine ⟨[⟨l.body, stop⟩], fun u => ?_, .inl rfl⟩
      rw [List.append_nil, hstop, List.singleton_append]

end XPathAssembly
