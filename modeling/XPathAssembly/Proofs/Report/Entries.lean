import Mathlib.Data.List.SplitBy
import XPathAssembly.Proofs.Text.Cutting
import XPathAssembly.Report.Bullets

/-!
# The errors of a report

What a report has below its headline tells its errors.  Only the lines with a bullet begin an error,
for every other line of an error is blank or has been moved to the right; and the margins can be
taken away again, for no line that is not blank goes without.  The first line of an error has to be
one of those: the bullet takes the place of its margin.

    entries (errors.flatMap bullet) = errors                        (entries_flatMap_bullet)
-/

namespace XPathAssembly

namespace Report

/-! ## Reading a report -/

/-- Whether a line begins with a bullet. -/
def opensEntry (l : Line) : Bool := ['*', ' '].isPrefixOf l.body

/-- The pieces of a text that is cut before each line with a bullet. -/
def pieces (t : Text) : List Text :=
  ((lines t).splitBy fun _ l => !opensEntry l).map (List.flatMap Line.whole)

/-- A line without its first two characters, unless it is blank. -/
def outdented (l : Line) : Text := if isBlankText l.whole then l.whole else l.whole.drop 2

/-- The error of a piece, which has a line feed more than it says. -/
def entryOf (piece : Text) : Text :=
  match lines piece.dropLast with
  | [] => []
  | first :: others => first.whole.drop 2 ++ others.flatMap outdented

/-- The errors of what stands below the headline. -/
def entries (t : Text) : List Text := (pieces t).map entryOf

/-- An error that can be put after a bullet and has something on its first line. -/
structure IsReadable (error : Text) : Prop where
  isEntry : isEntry error = true
  first : ∀ t ∈ (lineBodies error).head?, isBlankText t = false

instance (error : Text) : Decidable (IsReadable error) :=
  decidable_of_iff (isEntry error = true ∧ ∀ t ∈ (lineBodies error).head?, isBlankText t = false)
    ⟨fun h => ⟨h.1, h.2⟩, fun h => ⟨h.isEntry, h.first⟩⟩

/-! ## One error -/

variable {l : Line} {error rest t message : Text} {errors errors' : List Text}

theorem not_opensEntry_of_blank (hb : isBlankText l.body = true) : opensEntry l = false := by
  obtain ⟨body, stop⟩ := l
  cases body with
  | nil => rfl
  | cons c body =>
    have hc : isBlank c = true := (Bool.and_eq_true_iff.1 hb).1
    have hne : '*' ≠ c := by
      rintro rfl
      exact absurd hc (by decide)
    exact Bool.and_eq_false_imp.2 fun h => absurd (beq_iff_eq.1 h) hne

theorem not_opensEntry_moved (l : Line) : opensEntry (l.moved margin) = false := by
  unfold Line.moved
  split
  · next hblank =>
    unfold Line.whole at hblank
    rw [isBlankText_append, Bool.and_eq_true] at hblank
    exact not_opensEntry_of_blank hblank.1
  · rfl

theorem outdented_moved (l : Line) : outdented (l.moved margin) = l.whole := by
  unfold outdented
  rw [Line.whole_moved]
  unfold Line.indent
  by_cases hblank : isBlankText l.whole = true
  · rw [if_pos hblank, if_pos hblank]
  · have hmoved : ¬ isBlankText (margin ++ l.whole) = true := by
      rw [isBlankText_append, Bool.and_eq_true]
      exact fun h => hblank h.2
    rw [if_neg hblank, if_neg hmoved]
    rfl

/-- The line after a bullet. -/
def marked (l : Line) : Line := ⟨['*', ' '] ++ l.body, l.stop⟩

theorem oneLine_margin : OneLine margin := by decide

theorem marked_leads (hl : l.Leads rest) : (marked l).Leads (indent margin rest) :=
  leads_indent (hl.append_body (by decide)) oneLine_margin

theorem bullet_eq (hl : l.Leads rest) (hb : isBlankText l.body = false) :
    bullet (l.whole ++ rest) = (marked l).whole ++ indent margin rest ++ ['\n'] := by
  have hwhole : isBlankText l.whole ≠ true := by
    unfold Line.whole
    rw [isBlankText_append, hb, Bool.false_and]
    exact Bool.false_ne_true
  unfold bullet
  rw [indent_append hl, Line.indent, if_neg hwhole]
  rfl

theorem IsReadable.exists_leads (he : IsReadable error) :
    ∃ l rest, error = Line.whole l ++ rest ∧ l.Leads rest ∧ isBlankText l.body = false := by
  have hne : error ≠ [] := by
    rintro rfl
    cases he.isEntry
  obtain ⟨l, rest, rfl, hl⟩ := XPathAssembly.exists_leads hne
  refine ⟨l, rest, rfl, hl, he.first _ ?_⟩
  unfold lineBodies
  rw [hl.lines_eq, List.map_cons, List.head?_cons]
  exact Option.mem_some_self l.body

/-- The margins are taken away again. -/
theorem entryOf_bullet (he : IsReadable error) : entryOf (bullet error) = error := by
  obtain ⟨l, rest, rfl, hl, hb⟩ := he.exists_leads
  have hrest : (lines (indent margin rest)).flatMap outdented = rest := by
    rw [lines_indent oneLine_margin, List.flatMap_map]
    simp only [outdented_moved]
    exact flatMap_whole_lines rest
  unfold entryOf
  rw [bullet_eq hl hb, List.dropLast_concat, (marked_leads hl).lines_eq]
  simp only [hrest]
  rfl

/-- The lines of an error: the first has a bullet and no other one has. -/
def IsPiece (ls : List Line) : Prop :=
  ∃ first others, ls = first :: others ∧ opensEntry first = true ∧
    ∀ l ∈ others, opensEntry l = false

/-- An error is cut apart from what follows it, and only its first line has a bullet. -/
theorem exists_lines_bullet (he : IsReadable error) :
    ∃ ls, (∀ t, lines (bullet error ++ t) = ls ++ lines t) ∧ IsPiece ls := by
  obtain ⟨l, rest, rfl, hl, hb⟩ := he.exists_leads
  obtain ⟨ls, hls, hbodies⟩ := exists_lines_append_newline ((marked l).whole ++ indent margin rest)
  have hothers : ∀ t ∈ lineBodies (indent margin rest), ['*', ' '].isPrefixOf t = false := by
    unfold lineBodies
    rw [lines_indent oneLine_margin, List.map_map, List.forall_mem_map]
    exact fun l _ => not_opensEntry_moved l
  have hcut : ∃ ts, ls.map Line.body = (marked l).body :: ts ∧
      ∀ t ∈ ts, ['*', ' '].isPrefixOf t = false := by
    rw [lineBodies, (marked_leads hl).lines_eq, List.map_cons, ← lineBodies] at hbodies
    rcases hbodies with hbodies | hbodies
    · exact ⟨_, hbodies, hothers⟩
    · exact ⟨_, hbodies, List.forall_mem_append.2 ⟨hothers, by simp⟩⟩
  obtain ⟨ts, hts, hall⟩ := hcut
  obtain ⟨first, others, rfl, hfirst, rfl⟩ := List.map_eq_cons_iff.1 hts
  refine ⟨first :: others, fun t => ?_, first, others, rfl, ?_, fun l hl => ?_⟩
  · rw [bullet_eq hl hb, List.append_assoc, List.singleton_append, hls]
  · unfold opensEntry
    rw [hfirst]
    rfl
  · exact hall _ (List.mem_map_of_mem hl)

/-! ## All errors -/

theorem IsPiece.isChain {ls : List Line} (h : IsPiece ls) :
    ls.IsChain fun _ l => (!opensEntry l) = true := by
  obtain ⟨first, others, rfl, -, hothers⟩ := h
  induction others generalizing first with
  | nil => exact .singleton first
  | cons l others ih =>
    obtain ⟨hl, hothers⟩ := List.forall_mem_cons.1 hothers
    exact List.isChain_cons_cons.2 ⟨by rw [hl]; rfl, ih l hothers⟩

/-- Lines are cut where the pieces begin. -/
theorem splitBy_flatten_pieces {lss : List (List Line)} (h : ∀ ls ∈ lss, IsPiece ls) :
    lss.flatten.splitBy (fun _ l => !opensEntry l) = lss := by
  induction lss with
  | nil => rfl
  | cons ls lss ih =>
    obtain ⟨hls, hlss⟩ := List.forall_mem_cons.1 h
    have hne : ls ≠ [] := by
      obtain ⟨first, others, rfl, -⟩ := hls
      exact List.cons_ne_nil _ _
    have hnext : ∀ l ∈ lss.flatten.head?, opensEntry l = true := by
      cases lss with
      | nil => exact nofun
      | cons ls' lss =>
        obtain ⟨first, others, rfl, hfirst, -⟩ := hlss _ List.mem_cons_self
        rintro l ⟨⟩
        exact hfirst
    rw [List.flatten_cons, List.splitBy_append fun _ _ l hl => by rw [hnext l hl]; rfl,
      List.splitBy_of_isChain hne hls.isChain, ih hlss, List.singleton_append]

/-- The report is cut where its errors begin. -/
theorem pieces_flatMap_bullet (he : ∀ e ∈ errors, IsReadable e) :
    pieces (errors.flatMap bullet) = errors.map bullet := by
  have hlines : lines (errors.flatMap bullet) = (errors.map fun e => lines (bullet e)).flatten ∧
      ∀ ls ∈ errors.map fun e => lines (bullet e), IsPiece ls := by
    induction errors with
    | nil => exact ⟨rfl, nofun⟩
    | cons e errors ih =>
      obtain ⟨he, herrors⟩ := List.forall_mem_cons.1 he
      obtain ⟨ls, hls, hpiece⟩ := exists_lines_bullet he
      have halone : lines (bullet e) = ls := by
        have hend := hls []
        rwa [List.append_nil, lines, List.append_nil] at hend
      obtain ⟨hrest, hpieces⟩ := ih herrors
      rw [List.flatMap_cons, hls, hrest, List.map_cons, List.flatten_cons, halone]
      exact ⟨rfl, List.forall_mem_cons.2 ⟨hpiece, hpieces⟩⟩
  unfold pieces
  rw [hlines.1, splitBy_flatten_pieces hlines.2, List.map_map]
  exact List.map_congr_left fun e _ => flatMap_whole_lines (bullet e)

/-- Below the headline stand the errors, and nothing that could be mistaken for another one. -/
theorem entries_flatMap_bullet (he : ∀ e ∈ errors, IsReadable e) :
    entries (errors.flatMap bullet) = errors := by
  unfold entries
  rw [pieces_flatMap_bullet he, List.map_map]
  exact (List.map_congr_left fun e hmem => entryOf_bullet (he e hmem)).trans (List.map_id _)

theorem write_of_isReadable (hm : isHeadline message = true) (he : ∀ e ∈ errors, IsReadable e) :
    write message errors = .ok (headline message ++ errors.flatMap bullet) := by
  have hentries : errors.all isEntry = true := List.all_eq_true.2 fun e hmem => (he e hmem).isEntry
  unfold write
  rw [hm, hentries]
  rfl

/-- **Reports read back.**  What is written below the headline gives the errors, whatever lines they
have; so errors that are not the same are not reported in the same way. -/
theorem entries_of_write (hm : isHeadline message = true) :
    (∀ errors, (∀ e ∈ errors, IsReadable e) →
      ∃ t, write message errors = .ok (headline message ++ t) ∧ entries t = errors) ∧
    ∀ errors errors', (∀ e ∈ errors, IsReadable e) → (∀ e ∈ errors', IsReadable e) →
      (write message errors = write message errors' ↔ errors = errors') := by
  refine ⟨fun errors he => ⟨_, write_of_isReadable hm he, entries_flatMap_bullet he⟩,
    fun errors errors' he he' => ⟨fun h => ?_, fun h => h ▸ rfl⟩⟩
  rw [write_of_isReadable hm he, write_of_isReadable hm he', Except.ok.injEq,
    List.append_cancel_left_eq] at h
  rw [← entries_flatMap_bullet he, h, entries_flatMap_bullet he']

/-- An error with an empty line, a line that looks like another error, and a carriage return at the
end, and an error that begins with a space. -/
def twoErrors : List Text := ["a\n\n* b\x0b c\r".toList, " d\u2028e".toList]

def twoErrorsBelow : Text := "* a\n\n  * b\x0b   c\r\n*  d\u2028  e\n".toList

theorem entries_twoErrors :
    write "Failed".toList twoErrors = .ok ("Failed:\n".toList ++ twoErrorsBelow) ∧
      entries twoErrorsBelow = twoErrors ∧
      write "Failed".toList twoErrors ≠ write "Failed".toList [twoErrors.flatten] := by
  have hm : isHeadline "Failed".toList = true := by decide
  have he : ∀ e ∈ twoErrors, IsReadable e := by decide
  have he' : ∀ e ∈ [twoErrors.flatten], IsReadable e := by decide
  have hwritten : write "Failed".toList twoErrors =
      .ok (headline "Failed".toList ++ twoErrorsBelow) := by decide +kernel
  obtain ⟨t, ht, hentries⟩ := (entries_of_write hm).1 twoErrors he
  rw [hwritten, Except.ok.injEq, List.append_cancel_left_eq] at ht
  refine ⟨hwritten, ht ▸ hentries, fun h => ?_⟩
  exact absurd (((entries_of_write hm).2 twoErrors [twoErrors.flatten] he he').1 h) (by decide)

end Report

end XPathAssembly
