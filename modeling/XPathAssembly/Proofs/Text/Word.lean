import XPathAssembly.Text.Word

/-!
# Command words read back

A shell cuts a line into words at its spaces.  Between single quotes every character stands for
itself, between double quotes some do not, and outside of quotes only the safe ones do.  The line of
a command is read as the words of the command, and no character in it is one that a shell acts on.

    read (line ws) = some ws                                                  (read_line)
-/

namespace XPathAssembly

namespace Word

/-! ## Reading a line -/

/-- Where a shell stands in a line: outside of quotes, in a word or before one, or inside. -/
inductive Context where
  | outside (inWord : Bool)
  | single
  | double

/-- A character at the front of the word that is read first. -/
def putFirst (c : Char) : List Text → List Text
  | [] => [[c]]
  | w :: ws => (c :: w) :: ws

/-- The characters that a shell acts on between double quotes. -/
def isActive (c : Char) : Bool := c ∈ "$`\\!".toList

/-- The words of what is left of a line, the first of them being the one that is read; none if a
shell would act on the line or a quote is not closed. -/
def readFrom : Context → Text → Option (List Text)
  | .outside inWord, [] => some (if inWord then [[]] else [])
  | .outside inWord, c :: t =>
    if c = ' ' then (readFrom (.outside false) t).map fun ws => if inWord then [] :: ws else ws
    else if c = '\'' then readFrom .single t
    else if c = '"' then readFrom .double t
    else if isSafe c then (readFrom (.outside true) t).map (putFirst c)
    else none
  | .single, [] => none
  | .single, c :: t =>
    if c = '\'' then readFrom (.outside true) t else (readFrom .single t).map (putFirst c)
  | .double, [] => none
  | .double, c :: t =>
    if c = '"' then readFrom (.outside true) t
    else if isActive c then none
    else (readFrom .double t).map (putFirst c)

def read (t : Text) : Option (List Text) := readFrom (.outside false) t

/-! ## One word -/

variable {c : Char} {w : Text}

theorem ne_of_isSafe (hc : isSafe c) : c ≠ ' ' ∧ c ≠ '\'' ∧ c ≠ '"' := by
  refine ⟨?_, ?_, ?_⟩ <;> (rintro rfl; exact absurd hc (by decide))

theorem readFrom_safe (inWord : Bool) (hc : isSafe c) (t : Text) :
    readFrom (.outside inWord) (c :: t) = (readFrom (.outside true) t).map (putFirst c) := by
  obtain ⟨hspace, hsingle, hdouble⟩ := ne_of_isSafe hc
  simp [readFrom, hspace, hsingle, hdouble, hc]

theorem readFrom_safe_append (hw : ∀ c ∈ w, isSafe c) (t : Text) :
    readFrom (.outside true) (w ++ t) =
      (readFrom (.outside true) t).map (w.foldr putFirst) := by
  induction w with
  | nil => simp
  | cons c w ih =>
    have hc := hw c (by simp)
    have hrest := ih fun d hd => hw d (by simp [hd])
    rw [List.cons_append, readFrom_safe true hc, hrest, Option.map_map]
    rfl

/-- A single quote leaves the quotes, is read between double ones, and enters them again. -/
theorem readFrom_quoteChar (c : Char) (t : Text) :
    readFrom .single (quoteChar c ++ t) = (readFrom .single t).map (putFirst c) := by
  unfold quoteChar
  by_cases hc : c = '\''
  · subst hc
    have hactive : isActive '\'' = false := by decide
    simp [readFrom, hactive]
  · simp [readFrom, hc]

theorem readFrom_flatMap_quoteChar (w t : Text) :
    readFrom .single (w.flatMap quoteChar ++ '\'' :: t) =
      (readFrom (.outside true) t).map (w.foldr putFirst) := by
  induction w with
  | nil => simp [readFrom]
  | cons c w ih =>
    rw [List.flatMap_cons, List.append_assoc, readFrom_quoteChar, ih, Option.map_map]
    rfl

theorem readFrom_quote (w t : Text) :
    readFrom (.outside false) (quote w ++ t) =
      (readFrom (.outside true) t).map (w.foldr putFirst) := by
  unfold quote
  by_cases hw : (!w.isEmpty && w.all isSafe) = true
  · rw [if_pos hw]
    simp only [Bool.and_eq_true, List.all_eq_true] at hw
    obtain ⟨hne, hsafe⟩ := hw
    cases w with
    | nil => cases hne
    | cons c w =>
      have hrest := readFrom_safe_append (fun d hd => hsafe d (by simp [hd])) (w := w) t
      rw [List.cons_append, readFrom_safe false (hsafe c (by simp)), hrest, Option.map_map]
      rfl
  · rw [if_neg hw]
    show readFrom (.outside false) ('\'' :: (w.flatMap quoteChar ++ ['\'']) ++ t) = _
    simp only [List.cons_append, List.append_assoc, List.nil_append]
    rw [← readFrom_flatMap_quoteChar w t]
    simp [readFrom]

/-! ## All words -/

theorem foldr_putFirst_cons (w v : Text) (ws : List Text) :
    w.foldr putFirst (v :: ws) = (w ++ v) :: ws := by
  induction w with
  | nil => rfl
  | cons c w ih => simp [ih, putFirst]

theorem line_cons_cons (w v : Text) (ws : List Text) :
    line (w :: v :: ws) = quote w ++ ' ' :: line (v :: ws) := by
  simp [line]

/-- **The line of a command tells its words.**  A shell reads it as they are, whatever characters
they have, and acts on none of them. -/
theorem read_line (ws : List Text) : read (line ws) = some ws := by
  unfold read
  induction ws with
  | nil => rfl
  | cons w ws ih =>
    cases ws with
    | nil =>
      have hline : line [w] = quote w ++ [] := by simp [line]
      rw [hline, readFrom_quote]
      simp [readFrom, foldr_putFirst_cons]
    | cons v ws =>
      have hspace : readFrom (.outside true) (' ' :: line (v :: ws)) = some ([] :: v :: ws) := by
        simp [readFrom, ih]
      rw [line_cons_cons, readFrom_quote, hspace, Option.map_some, foldr_putFirst_cons,
        List.append_nil]

/-- No two commands are shown alike. -/
theorem line_injective {ws vs : List Text} (h : line ws = line vs) : ws = vs := by
  have hread := congrArg read h
  rwa [read_line, read_line, Option.some.injEq] at hread

example : line ["it's".toList, [], "a b; $c".toList] =
    "'it'\"'\"'s' '' 'a b; $c'".toList := by decide

end Word

end XPathAssembly
