import XPathAssembly.Proofs.Text.Lines
import XPathAssembly.Report.Issue

/-!
# The outline of an issue

The text of an issue shows a tree of headlines.  Each issue moves the texts of those beneath it to
the right, line by line; what comes of it is what one pass over the tree writes, with each headline
as far to the right as it stands deep.  And the text tells the tree: how far a headline stands to
the right is its depth, and depths in the order of such a pass fit one tree only.

    i.text = i.outline.listing                                               (text_eq_listing)
    o.rows d ++ r = o'.rows d ++ r' → o = o' ∧ r = r'                          (rows_append_inj)
-/

namespace XPathAssembly

/-- A tree of headlines. -/
inductive Outline where
  | node (headline : Text) (below : List Outline)

namespace Outline

mutual

/-- The headlines of a tree that stands at a depth, from the top on, each with its own depth. -/
def rows (depth : Nat) : Outline → List (Nat × Text)
  | node headline below => (depth, headline) :: rowsAll (depth + 1) below

def rowsAll (depth : Nat) : List Outline → List (Nat × Text)
  | [] => []
  | o :: rest => rows depth o ++ rowsAll depth rest

end

def headlines (o : Outline) : List Text := (o.rows 0).map Prod.snd

/-- A headline with two spaces before it for each level. -/
def line (r : Nat × Text) : Text := List.replicate (2 * r.1) ' ' ++ r.2

/-- What one pass over the tree writes: each headline on a line of its own. -/
def listing (o : Outline) : Text := ['\n'].intercalate ((o.rows 0).map line)

/-- Every headline is on one line and is not blank. -/
def IsPlain (o : Outline) : Prop := ∀ h ∈ o.headlines, OneLine h ∧ isBlankText h = false

/-- No headline begins with a space. -/
def IsFlush (o : Outline) : Prop := ∀ h ∈ o.headlines, h.head? ≠ some ' '

end Outline

namespace Issue

mutual

/-- The headlines of an issue and of those beneath it.  That there are none beneath it can be said
in two ways, which are one here. -/
def outline : Issue → Outline
  | ⟨location, message, none⟩ => .node (headlineOf location message) []
  | ⟨location, message, some causes⟩ => .node (headlineOf location message) (outlineAll causes)

def outlineAll : List Issue → List Outline
  | [] => []
  | i :: rest => outline i :: outlineAll rest

end

end Issue

namespace Outline

variable {d : Nat} {r : Nat × Text} {o : Outline} {os : List Outline} {h : Text}

/-! ## Depths -/

theorem rowsAll_eq (d : Nat) (os : List Outline) : rowsAll d os = os.flatMap (rows d) := by
  induction os with
  | nil => rfl
  | cons o os ih => rw [rowsAll, List.flatMap_cons, ih]

mutual

theorem rows_succ (d : Nat) (o : Outline) :
    o.rows (d + 1) = (o.rows d).map fun r => (r.1 + 1, r.2) := by
  match o with
  | node headline below => rw [rows, rows, List.map_cons, rowsAll_succ]

theorem rowsAll_succ (d : Nat) (os : List Outline) :
    rowsAll (d + 1) os = (rowsAll d os).map fun r => (r.1 + 1, r.2) := by
  match os with
  | [] => rfl
  | o :: rest => rw [rowsAll, rowsAll, List.map_append, rows_succ, rowsAll_succ]

end

theorem rows_ne_nil (d : Nat) (o : Outline) : o.rows d ≠ [] := by
  cases o
  exact List.cons_ne_nil _ _

/-- The depth at which a tree stands makes no difference to its headlines. -/
theorem map_snd_rows (d : Nat) (o : Outline) : (o.rows d).map Prod.snd = o.headlines := by
  induction d with
  | zero => rfl
  | succ d ih =>
    rw [rows_succ, List.map_map]
    exact ih

theorem headlines_node (h : Text) (os : List Outline) :
    (node h os).headlines = h :: os.flatMap headlines := by
  rw [headlines, rows, List.map_cons, rowsAll_eq, List.map_flatMap]
  simp only [map_snd_rows]

theorem isPlain_node_iff : (node h os).IsPlain ↔
    (OneLine h ∧ isBlankText h = false) ∧ ∀ o ∈ os, o.IsPlain := by
  unfold IsPlain
  rw [headlines_node, List.forall_mem_cons]
  refine and_congr_right fun _ => ⟨fun hall o ho h hh => ?_, fun hall h hh => ?_⟩
  · exact hall h (List.mem_flatMap.2 ⟨o, ho, hh⟩)
  · obtain ⟨o, ho, hh⟩ := List.mem_flatMap.1 hh
    exact hall o ho h hh

/-! ## Lines -/

theorem line_zero (h : Text) : line (0, h) = h := rfl

/-- One level deeper, every line has one margin more. -/
theorem map_line_rows_succ (d : Nat) (o : Outline) :
    (o.rows (d + 1)).map line = ((o.rows d).map line).map (margin ++ ·) := by
  rw [rows_succ, List.map_map, List.map_map]
  rfl

theorem oneLine_line (hr : OneLine r.2) : OneLine (line r) :=
  (OneLine.replicate _ rfl).append hr

theorem line_not_blank (hr : isBlankText r.2 = false) : isBlankText (line r) = false := by
  rw [line, isBlankText_append, hr, Bool.and_false]

theorem IsPlain.lines (hp : o.IsPlain) :
    ∀ t ∈ (o.rows d).map line, OneLine t ∧ isBlankText t = false := by
  rw [List.forall_mem_map]
  intro r hr
  have hmem : r.2 ∈ o.headlines := by
    rw [← map_snd_rows d]
    exact List.mem_map_of_mem hr
  obtain ⟨hline, hblank⟩ := hp r.2 hmem
  exact ⟨oneLine_line hline, line_not_blank hblank⟩

/-- A listing that is moved to the right is that of a tree one level deeper. -/
theorem IsPlain.indent_listing (hp : o.IsPlain) :
    indent margin o.listing = ['\n'].intercalate ((o.rows 1).map line) := by
  rw [listing, indent_intercalate hp.lines, map_line_rows_succ]

theorem listing_leaf (h : Text) : (node h []).listing = h := by
  rw [listing, rows, rowsAll, List.map_singleton, List.intercalate_singleton, line_zero]

theorem listing_node (h : Text) (hne : os ≠ []) : (node h os).listing =
    h ++ ['\n'] ++
      ['\n'].intercalate (os.map fun o => ['\n'].intercalate ((o.rows 1).map line)) := by
  have hrows : rowsAll 1 os ≠ [] := by
    cases os with
    | nil => exact absurd rfl hne
    | cons o os =>
      rw [rowsAll]
      exact List.append_ne_nil_of_left_ne_nil (rows_ne_nil 1 o) _
  have hparts : ∀ ts ∈ os.map fun o => (o.rows 1).map line, ts ≠ [] := by
    rw [List.forall_mem_map]
    exact fun o _ he => rows_ne_nil 1 o (List.map_eq_nil_iff.1 he)
  have hjoined : ['\n'].intercalate (os.map fun o => ['\n'].intercalate ((o.rows 1).map line)) =
      ['\n'].intercalate ((rowsAll 1 os).map line) := by
    rw [rowsAll_eq, List.map_flatMap, List.flatMap_def, ← intercalate_map_intercalate hparts,
      List.map_map]
    rfl
  rw [hjoined, listing, rows, List.map_cons, line_zero,
    List.intercalate_cons_of_ne_nil fun he => hrows (List.map_eq_nil_iff.1 he)]

end Outline

/-! ## The tree from its depths -/

namespace Outline

/-- What comes after trees at a depth begins less deep. -/
def Above (d : Nat) (rs : List (Nat × Text)) : Prop := ∀ r, rs.head? = some r → r.1 < d

variable {d : Nat} {r : Nat × Text} {rs rs' : List (Nat × Text)} {o o' : Outline}

theorem above_nil (d : Nat) : Above d [] := nofun

theorem head?_rows_append (d : Nat) (o : Outline) (rs : List (Nat × Text)) :
    ∃ h, (o.rows d ++ rs).head? = some (d, h) := by
  cases o with
  | node h below => exact ⟨h, by rw [rows, List.cons_append, List.head?_cons]⟩

/-- Trees at a depth are not as deep as what stands beneath them. -/
theorem Above.rowsAll_append (hr : Above d rs) (os : List Outline) :
    Above (d + 1) (rowsAll d os ++ rs) := by
  intro r he
  cases os with
  | nil => exact Nat.lt_succ_of_lt (hr r he)
  | cons o os =>
    obtain ⟨h, hhead⟩ := head?_rows_append d o (rowsAll d os ++ rs)
    rw [rowsAll, List.append_assoc, hhead] at he
    cases he
    exact Nat.lt_succ_self d

/-- No tree stands at a depth where only less deep ones may. -/
theorem Above.ne_rows_append (hr : Above d rs) (o : Outline) : rs ≠ o.rows d ++ rs' := by
  rintro rfl
  obtain ⟨h, hhead⟩ := head?_rows_append d o rs'
  exact Nat.lt_irrefl d (hr _ hhead)

mutual

/-- The rows of a tree tell where it ends and what it is. -/
theorem rows_append_inj {d : Nat} {rs rs' : List (Nat × Text)} (hr : Above (d + 1) rs)
    (hr' : Above (d + 1) rs') (o o' : Outline)
    (he : o.rows d ++ rs = o'.rows d ++ rs') : o = o' ∧ rs = rs' := by
  match o, o' with
  | node h below, node h' below' =>
    rw [rows, rows, List.cons_append, List.cons_append, List.cons.injEq, Prod.mk.injEq] at he
    obtain ⟨⟨-, rfl⟩, he⟩ := he
    obtain ⟨rfl, rfl⟩ := rowsAll_append_inj hr hr' below below' he
    exact ⟨rfl, rfl⟩

theorem rowsAll_append_inj {d : Nat} {rs rs' : List (Nat × Text)} (hr : Above d rs)
    (hr' : Above d rs') (os os' : List Outline)
    (he : rowsAll d os ++ rs = rowsAll d os' ++ rs') : os = os' ∧ rs = rs' := by
  match os, os' with
  | [], [] => exact ⟨rfl, he⟩
  | [], o' :: os' =>
    rw [rowsAll, rowsAll, List.append_assoc] at he
    exact absurd he (hr.ne_rows_append o')
  | o :: os, [] =>
    rw [rowsAll, rowsAll, List.append_assoc] at he
    exact absurd he.symm (hr'.ne_rows_append o)
  | o :: os, o' :: os' =>
    rw [rowsAll, rowsAll, List.append_assoc, List.append_assoc] at he
    obtain ⟨rfl, hrest⟩ := rows_append_inj (hr.rowsAll_append os) (hr'.rowsAll_append os') o o' he
    obtain ⟨rfl, rfl⟩ := rowsAll_append_inj hr hr' os os' hrest
    exact ⟨rfl, rfl⟩

end

/-! ## The depths from the lines -/

/-- The headline of a line, with its depth. -/
def readLine (t : Text) : Nat × Text :=
  ((t.takeWhile (· = ' ')).length / 2, t.dropWhile (· = ' '))

theorem readLine_line (hr : r.2.head? ≠ some ' ') : readLine (line r) = r := by
  have hspaces : ∀ c ∈ List.replicate (2 * r.1) ' ', decide (c = ' ') = true := by
    intro c hc
    rw [List.eq_of_mem_replicate hc]
    rfl
  have htake : r.2.takeWhile (· = ' ') = [] := by
    cases h : r.2 with
    | nil => rfl
    | cons c t => exact List.takeWhile_cons_of_neg (by simpa [h] using hr)
  have hdrop : r.2.dropWhile (· = ' ') = r.2 := by
    have hsplit := List.takeWhile_append_dropWhile (p := (· = ' ')) (l := r.2)
    rwa [htake] at hsplit
  unfold readLine line
  rw [List.takeWhile_append_of_pos hspaces, List.dropWhile_append_of_pos hspaces, htake, hdrop,
    List.append_nil, List.length_replicate, Nat.mul_div_cancel_left r.1 (by decide)]

/-- The rows are read from the lines of the listing. -/
theorem map_readLine_listing (hp : o.IsPlain) (hf : o.IsFlush) :
    (o.listing.splitOn '\n').map readLine = o.rows 0 := by
  have hlines : ∀ t ∈ (o.rows 0).map line, '\n' ∉ t := fun t ht =>
    (hp.lines t ht).1.not_mem_newline
  have hne : (o.rows 0).map line ≠ [] := fun he => rows_ne_nil 0 o (List.map_eq_nil_iff.1 he)
  rw [listing, List.splitOn_intercalate '\n' hlines hne, List.map_map]
  refine (List.map_congr_left fun r hr => ?_).trans (List.map_id _)
  exact readLine_line (hf r.2 (List.mem_map_of_mem hr))

/-- Two trees with the same listing are the same. -/
theorem listing_inj (hp : o.IsPlain) (hf : o.IsFlush) (hp' : o'.IsPlain) (hf' : o'.IsFlush)
    (he : o.listing = o'.listing) : o = o' := by
  have hrows : o.rows 0 ++ [] = o'.rows 0 ++ [] := by
    rw [← map_readLine_listing hp hf, ← map_readLine_listing hp' hf', he]
  exact (rows_append_inj (above_nil 1) (above_nil 1) o o' hrows).1

end Outline

/-! ## The text as one pass -/

namespace Issue

open Outline

theorem text_of_causes (location : Option Text) (message : Text) {causes : List Issue}
    (hne : causes ≠ []) : text ⟨location, message, some causes⟩ =
      headlineOf location message ++ ['\n'] ++ ['\n'].intercalate (indentedTexts causes) := by
  cases causes with
  | nil => exact absurd rfl hne
  | cons i rest => simp [text]

mutual

theorem text_eq_listing (i : Issue) (hp : i.outline.IsPlain) : i.text = i.outline.listing := by
  match i with
  | ⟨location, message, none⟩ => rw [text, outline, listing_leaf]
  | ⟨location, message, some []⟩ => rw [text, outline, outlineAll, listing_leaf]
  | ⟨location, message, some (i :: rest)⟩ =>
    obtain ⟨-, hbelow⟩ := isPlain_node_iff.1 hp
    rw [text_of_causes location message (List.cons_ne_nil i rest),
      indentedTexts_eq (i :: rest) hbelow]
    exact (listing_node _ (List.cons_ne_nil _ _)).symm

theorem indentedTexts_eq (is : List Issue) (hp : ∀ o ∈ outlineAll is, o.IsPlain) :
    indentedTexts is =
      (outlineAll is).map fun o => ['\n'].intercalate ((o.rows 1).map line) := by
  match is with
  | [] => rfl
  | i :: rest =>
    obtain ⟨hi, hrest⟩ := List.forall_mem_cons.1 hp
    rw [indentedTexts, outlineAll, List.map_cons, text_eq_listing i hi, hi.indent_listing,
      indentedTexts_eq rest hrest]

end

/-- **The text of an issue is its outline**, written in one pass; and the outline is all that it
shows, and shows it fully, unless a headline begins with a space. -/
theorem text_outline :
    (∀ i : Issue, i.outline.IsPlain → i.text = i.outline.listing) ∧
      ∀ i j : Issue, i.outline.IsPlain → j.outline.IsPlain → i.outline.IsFlush →
        j.outline.IsFlush → (i.text = j.text ↔ i.outline = j.outline) := by
  refine ⟨text_eq_listing, fun i j hi hj hfi hfj => ?_⟩
  rw [text_eq_listing i hi, text_eq_listing j hj]
  exact ⟨listing_inj hi hfi hj hfj, fun he => congrArg listing he⟩

/-- Issues on three levels. -/
def threeLevels : Issue where
  location := some "a[0]".toList
  message := ['x']
  causes := some [{ message := ['y'], causes := some [{ message := ['z'], causes := some [] }] },
    { message := ['w'] }]

/-- The same headlines from other locations and messages. -/
def threeLevels' : Issue where
  message := "At a[0]: x".toList
  causes := some [{ message := ['y'], causes := some [{ message := ['z'] }] }, { message := ['w'] }]

theorem outline_threeLevels : threeLevels.outline =
    .node "At a[0]: x".toList [.node ['y'] [.node ['z'] []], .node ['w'] []] := by
  simp [threeLevels, outline, outlineAll, headlineOf]

theorem outline_threeLevels' : threeLevels'.outline = threeLevels.outline := by
  rw [outline_threeLevels]
  simp [threeLevels', outline, outlineAll, headlineOf]

theorem text_threeLevels : threeLevels.text = "At a[0]: x\n  y\n    z\n  w".toList ∧
    threeLevels'.text = threeLevels.text := by
  have hheadlines : threeLevels.outline.headlines =
      ["At a[0]: x".toList, ['y'], ['z'], ['w']] := by
    rw [outline_threeLevels]
    simp [headlines_node]
  have hplain : threeLevels.outline.IsPlain := by
    unfold Outline.IsPlain
    rw [hheadlines]
    decide
  have hflush : threeLevels.outline.IsFlush := by
    unfold Outline.IsFlush
    rw [hheadlines]
    decide
  have hlisting : threeLevels.outline.listing = "At a[0]: x\n  y\n    z\n  w".toList := by
    rw [outline_threeLevels]
    simp [listing, rows, rowsAll, line, List.intercalate]
  have hsame := outline_threeLevels'
  refine ⟨(text_outline.1 _ hplain).trans hlisting, ?_⟩
  refine (text_outline.2 _ _ ?_ hplain ?_ hflush).2 hsame
  · rwa [hsame]
  · rwa [hsame]

end Issue

end XPathAssembly
