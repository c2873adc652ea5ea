import XPathAssembly.Text.Indent

/-!
# Texts made of lines

A text is one line if no character of it ends a line.  Texts that are put together of such lines
with line feeds are cut into them again, and a margin is put before each line that is not blank.

    OneLine t → lines (t ++ '\n' :: u) = ⟨t, ['\n']⟩ :: lines u             (lines_append_newline)
    indent m (['\n'].intercalate ts) = ['\n'].intercalate (ts.map (m ++ ·))     (indent_intercalate)
-/

namespace XPathAssembly

/-- No character of the text ends a line. -/
def OneLine (t : Text) : Prop := ∀ c ∈ t, endsLine c = false

instance (t : Text) : Decidable (OneLine t) := List.decidableBAll (endsLine · = false) t

/-! ## One line -/

namespace OneLine

variable {c : Char} {s t : Text} {ts : List Text}

theorem nil : OneLine [] := nofun

theorem cons (hc : endsLine c = false) (ht : OneLine t) : OneLine (c :: t) :=
  List.forall_mem_cons.2 ⟨hc, ht⟩

theorem append (hs : OneLine s) (ht : OneLine t) : OneLine (s ++ t) :=
  List.forall_mem_append.2 ⟨hs, ht⟩

theorem of_subset (ht : OneLine t) (hs : s ⊆ t) : OneLine s := fun c hc => ht c (hs hc)

theorem replicate (n : Nat) (hc : endsLine c = false) : OneLine (List.replicate n c) := by
  intro d hd
  rwa [List.eq_of_mem_replicate hd]

theorem flatten (h : ∀ t ∈ ts, OneLine t) : OneLine ts.flatten := by
  intro c hc
  obtain ⟨t, ht, hc⟩ := List.mem_flatten.1 hc
  exact h t ht c hc

theorem intercalate (hs : OneLine s) (h : ∀ t ∈ ts, OneLine t) : OneLine (s.intercalate ts) := by
  induction ts with
  | nil => exact nil
  | cons t ts ih =>
    obtain ⟨ht, hts⟩ := List.forall_mem_cons.1 h
    cases ts with
    | nil => rwa [List.intercalate_singleton]
    | cons u us =>
      rw [List.intercalate_cons_cons]
      exact (ht.append hs).append (ih hts)

/-- A string is decided by its characters, which need not be decoded for it. -/
theorem ofList (ht : OneLine t) : OneLine (String.ofList t).toList := by
  rwa [String.toList_ofList]

theorem not_mem_newline (ht : OneLine t) : '\n' ∉ t := fun hm => nomatch ht _ hm

end OneLine

/-! ## Cutting into lines -/

section
variable {c : Char} {m s t : Text} {ts us : List Text}

theorem lines_cons (hc : endsLine c = false) (t : Text) :
    lines (c :: t) = putOnFirst c (lines t) := by
  have hreturn : c ≠ '\r' := by
    rintro rfl
    cases hc
  rw [lines, hc, if_neg Bool.false_ne_true]
  exact fun rest he => absurd he hreturn

theorem lines_newline (t : Text) : lines ('\n' :: t) = ⟨[], ['\n']⟩ :: lines t := by
  have hends : endsLine '\n' = true := rfl
  rw [lines, if_pos hends]
  exact nofun

theorem lines_eq_singleton (ht : OneLine t) (hne : t ≠ []) : lines t = [⟨t, []⟩] := by
  induction t with
  | nil => exact absurd rfl hne
  | cons c t ih =>
    obtain ⟨hc, ht⟩ := List.forall_mem_cons.1 ht
    rw [lines_cons hc]
    by_cases hnil : t = []
    · rw [hnil]
      rfl
    · rw [ih ht hnil]
      rfl

theorem lines_oneLine_append (hs : OneLine s) {ls : List Line} (ht : lines t = ⟨[], m⟩ :: ls) :
    lines (s ++ t) = ⟨s, m⟩ :: ls := by
  induction s with
  | nil => exact ht
  | cons c s ih =>
    obtain ⟨hc, hs⟩ := List.forall_mem_cons.1 hs
    rw [List.cons_append, lines_cons hc, ih hs]
    rfl

theorem lines_append_newline (ht : OneLine t) (u : Text) :
    lines (t ++ '\n' :: u) = ⟨t, ['\n']⟩ :: lines u :=
  lines_oneLine_append ht (lines_newline u)

/-- Lines with a line feed behind each are the lines of the whole. -/
theorem lineBodies_flatMap (h : ∀ t ∈ ts, OneLine t) :
    lineBodies (ts.flatMap (· ++ ['\n'])) = ts := by
  induction ts with
  | nil => rfl
  | cons t ts ih =>
    obtain ⟨ht, hts⟩ := List.forall_mem_cons.1 h
    rw [List.flatMap_cons, List.append_assoc, List.singleton_append]
    unfold lineBodies at ih ⊢
    rw [lines_append_newline ht, List.map_cons, ih hts]

/-! ## Margins -/

theorem isBlankText_append (s t : Text) :
    isBlankText (s ++ t) = (isBlankText s && isBlankText t) :=
  List.all_append

theorem ne_nil_of_not_blank (hb : isBlankText t = false) : t ≠ [] := by
  rintro rfl
  cases hb

theorem indent_of_oneLine (ht : OneLine t) (hb : isBlankText t = false) : indent m t = m ++ t := by
  unfold indent
  rw [lines_eq_singleton ht (ne_nil_of_not_blank hb), List.flatMap_singleton, Line.indent]
  simp [Line.whole, hb]

theorem indent_append_newline (ht : OneLine t) (hb : isBlankText t = false) (u : Text) :
    indent m (t ++ '\n' :: u) = m ++ t ++ '\n' :: indent m u := by
  have hwhole : isBlankText (t ++ ['\n']) = false := by
    rw [isBlankText_append, hb, Bool.false_and]
  unfold indent
  rw [lines_append_newline ht, List.flatMap_cons, Line.indent]
  simp [Line.whole, hwhole]

/-- A text of lines is indented line by line. -/
theorem indent_intercalate (h : ∀ t ∈ ts, OneLine t ∧ isBlankText t = false) :
    indent m (['\n'].intercalate ts) = ['\n'].intercalate (ts.map (m ++ ·)) := by
  induction ts with
  | nil => rfl
  | cons t ts ih =>
    obtain ⟨⟨ht, hb⟩, hts⟩ := List.forall_mem_cons.1 h
    cases ts with
    | nil =>
      rw [List.map_singleton, List.intercalate_singleton, List.intercalate_singleton,
        indent_of_oneLine ht hb]
    | cons u us =>
      rw [List.map_cons, List.map_cons, List.intercalate_cons_cons, List.intercalate_cons_cons,
        List.append_assoc, List.singleton_append, indent_append_newline ht hb, ih hts,
        List.map_cons, List.append_assoc _ ['\n'], List.singleton_append]

/-! ## Lines of lines -/

theorem intercalate_append (hts : ts ≠ []) (hus : us ≠ []) :
    s.intercalate (ts ++ us) = s.intercalate ts ++ s ++ s.intercalate us := by
  induction ts with
  | nil => exact absurd rfl hts
  | cons t ts ih =>
    by_cases hnil : ts = []
    · subst hnil
      rw [List.singleton_append, List.intercalate_singleton, List.intercalate_cons_of_ne_nil hus]
    · rw [List.cons_append, List.intercalate_cons_of_ne_nil hnil,
        List.intercalate_cons_of_ne_nil (List.append_ne_nil_of_left_ne_nil hnil us), ih hnil]
      simp only [List.append_assoc]

/-- Texts that are put together of parts are put together of all parts. -/
theorem intercalate_map_intercalate {tss : List (List Text)} (h : ∀ ts ∈ tss, ts ≠ []) :
    s.intercalate (tss.map s.intercalate) = s.intercalate tss.flatten := by
  induction tss with
  | nil => rfl
  | cons ts tss ih =>
    obtain ⟨hts, htss⟩ := List.forall_mem_cons.1 h
    cases tss with
    | nil => rw [List.map_singleton, List.intercalate_singleton, List.flatten_singleton]
    | cons us tss =>
      have hne : (us :: tss).flatten ≠ [] := by
        rw [List.flatten_cons]
        exact List.append_ne_nil_of_left_ne_nil (htss us List.mem_cons_self) _
      rw [List.flatten_cons, intercalate_append hts hne, ← ih htss, List.map_cons,
        List.intercalate_cons_of_ne_nil (by simp)]

end

end XPathAssembly
