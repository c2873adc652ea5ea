import XPathAssembly.Proofs.Text.Lines

/-!
# Blocks of lines

A block is one line or more, none of them blank, with a line feed between any two.  Both ways to
move a text to the right do the same to the later lines of a block: they put the margin behind each
line feed.  This can be said part by part, and the lines need not be cut for it.

    IsBlock t → indent m t = m ++ shifted m t                              (IsBlock.indent_eq)
    IsBlock t → hang m t = shifted m t                                       (IsBlock.hang_eq)
    shifted m (s ++ t) = shifted m s ++ shifted m t                           (shifted_append)
-/

namespace XPathAssembly

/-- Lines that are not blank, with a line feed between any two. -/
inductive IsBlock : Text → Prop where
  | line {t : Text} (ht : OneLine t) (hb : isBlankText t = false) : IsBlock t
  | lines {t u : Text} (ht : OneLine t) (hb : isBlankText t = false) (hu : IsBlock u) :
    IsBlock (t ++ '\n' :: u)

/-- The text with the margin behind each line feed. -/
def shifted (m t : Text) : Text := t.flatMap fun c => if c = '\n' then '\n' :: m else [c]

variable {m s t u : Text}

/-! ## Margins behind line feeds -/

theorem shifted_append (m s t : Text) : shifted m (s ++ t) = shifted m s ++ shifted m t :=
  List.flatMap_append

theorem shifted_newline (m t : Text) : shifted m ('\n' :: t) = '\n' :: (m ++ shifted m t) := by
  simp [shifted]

theorem shifted_of_oneLine (ht : OneLine t) : shifted m t = t := by
  induction t with
  | nil => rfl
  | cons c t ih =>
    obtain ⟨hc, ht⟩ := List.forall_mem_cons.1 ht
    have hne : c ≠ '\n' := by
      rintro rfl
      cases hc
    have hrest : shifted m (c :: t) = [c] ++ shifted m t := by simp [shifted, hne]
    rw [hrest, ih ht, List.singleton_append]

/-! ## Blocks -/

namespace IsBlock

theorem prepend (h : IsBlock t) (hs : OneLine s) : IsBlock (s ++ t) := by
  cases h with
  | line ht hb => exact .line (hs.append ht) (by rw [isBlankText_append, hb, Bool.and_false])
  | lines ht hb hu =>
    rw [← List.append_assoc]
    exact .lines (hs.append ht) (by rw [isBlankText_append, hb, Bool.and_false]) hu

theorem append_oneLine (h : IsBlock t) (hs : OneLine s) : IsBlock (t ++ s) := by
  induction h with
  | line ht hb => exact .line (ht.append hs) (by rw [isBlankText_append, hb, Bool.false_and])
  | lines ht hb hu ih =>
    rw [List.append_assoc, List.cons_append]
    exact .lines ht hb ih

theorem append_newline (h : IsBlock t) (hu : IsBlock u) : IsBlock (t ++ '\n' :: u) := by
  induction h with
  | line ht hb => exact .lines ht hb hu
  | lines ht hb _ ih =>
    rw [List.append_assoc, List.cons_append]
    exact .lines ht hb ih

theorem lineBodies_ne_nil (h : IsBlock t) : lineBodies t ≠ [] := by
  unfold lineBodies
  cases h with
  | line ht hb =>
    rw [lines_eq_singleton ht (ne_nil_of_not_blank hb)]
    exact List.cons_ne_nil _ _
  | lines ht hb hu =>
    rw [lines_append_newline ht]
    exact List.cons_ne_nil _ _

theorem ne_nil (h : IsBlock t) : t ≠ [] := by
  rintro rfl
  exact h.lineBodies_ne_nil rfl

/-! ## Margins before lines -/

theorem indent_eq (h : IsBlock t) : indent m t = m ++ shifted m t := by
  induction h with
  | line ht hb => rw [indent_of_oneLine ht hb, shifted_of_oneLine ht]
  | lines ht hb _ ih =>
    rw [indent_append_newline ht hb, ih, shifted_append, shifted_of_oneLine ht, shifted_newline,
      List.append_assoc]

theorem intercalate_shift (h : IsBlock t) :
    ['\n'].intercalate ((lineBodies t).map (shift m)) = m ++ shifted m t := by
  have hshift {t : Text} (hb : isBlankText t = false) : shift m t = m ++ t := by
    obtain ⟨c, t, rfl⟩ := List.exists_cons_of_ne_nil (ne_nil_of_not_blank hb)
    rfl
  induction h with
  | line ht hb =>
    rw [lineBodies, lines_eq_singleton ht (ne_nil_of_not_blank hb), List.map_singleton,
      List.map_singleton, List.intercalate_singleton, hshift hb, shifted_of_oneLine ht]
  | lines ht hb hu ih =>
    have hne : (lineBodies _).map (shift m) ≠ [] := fun he =>
      hu.lineBodies_ne_nil (List.map_eq_nil_iff.1 he)
    rw [lineBodies, lines_append_newline ht, List.map_cons, ← lineBodies, List.map_cons,
      List.intercalate_cons_of_ne_nil hne, ih, hshift hb, shifted_append, shifted_of_oneLine ht,
      shifted_newline]
    simp only [List.append_assoc, List.singleton_append]

theorem hang_eq (h : IsBlock t) : hang m t = shifted m t := by
  unfold hang
  cases h with
  | line ht hb =>
    rw [lineBodies, lines_eq_singleton ht (ne_nil_of_not_blank hb), shifted_of_oneLine ht]
    exact List.intercalate_singleton
  | lines ht hb hu =>
    have hne : (lineBodies _).map (shift m) ≠ [] := fun he =>
      hu.lineBodies_ne_nil (List.map_eq_nil_iff.1 he)
    rw [lineBodies, lines_append_newline ht, List.map_cons, ← lineBodies]
    simp only
    rw [List.intercalate_cons_of_ne_nil hne, hu.intercalate_shift, shifted_append,
      shifted_of_oneLine ht, shifted_newline, List.append_assoc, List.singleton_append]

end IsBlock

end XPathAssembly
