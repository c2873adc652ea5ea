import XPathAssembly.Proofs.Layout.Laid

/-!
# Spaces that are taken back

Only a space at the end of the text is ever taken back, and never the only byte there is.  What
decides about it is the text before it and the first byte of the segment that follows.

    closesBefore acc g ↔ ∃ left, left ≠ [] ∧ acc = left ++ [space] ∧
      (gapAfter left g).closes                                       (closesBefore_iff)

Every rule asks for punctuation on one side of the space, or for a lone minus before it.
-/

namespace XPathAssembly

/-! ## Rules -/

/-- The bytes beside which a space may be taken back. -/
def isPunctuation (b : UInt8) : Bool := b ∈ "@/()[],.".toList.map byteOf

theorem isPunctuation_of_isTight {b : UInt8} (hb : isTight b) : isPunctuation b := by
  simp only [isTight, isPunctuation, decide_eq_true_eq] at hb ⊢
  exact List.map_subset byteOf (by decide : "@/()[]".toList ⊆ "@/()[],.".toList) hb

namespace Gap

variable {g : Gap}

theorem previousIs_iff {p : UInt8 → Bool} :
    g.previousIs p ↔ ∃ b, g.previous = some b ∧ p b := by
  simp [previousIs, Option.any_eq_true]

theorem followingIs_iff {p : UInt8 → Bool} :
    g.followingIs p ↔ ∃ b, g.following = some b ∧ p b := by
  simp [followingIs, Option.any_eq_true]

/-- All that makes a rule take a space back. -/
theorem beside_of_closes (hc : g.closes) :
    g.previousIs isPunctuation ∨ g.followingIs isPunctuation ∨ g.afterMinus := by
  have hprevious {p : UInt8 → Bool} (hp : ∀ b, p b → isPunctuation b) (h : g.previousIs p) :
      g.previousIs isPunctuation := by
    obtain ⟨b, hb, hpb⟩ := previousIs_iff.mp h
    exact previousIs_iff.mpr ⟨b, hb, hp b hpb⟩
  have hfollowing {p : UInt8 → Bool} (hp : ∀ b, p b → isPunctuation b) (h : g.followingIs p) :
      g.followingIs isPunctuation := by
    obtain ⟨b, hb, hpb⟩ := followingIs_iff.mp h
    exact followingIs_iff.mpr ⟨b, hb, hp b hpb⟩
  have hone {c : UInt8} (h : isPunctuation c) (b : UInt8) (hb : b == c) : isPunctuation b := by
    rwa [eq_of_beq hb]
  unfold closes at hc
  split at hc
  · cases hc
  · unfold isGlued at hc
    split at hc
    · cases hc
    · split at hc
      · next ht =>
        rcases Bool.or_eq_true _ _ ▸ ht with ht | ht
        · exact .inl (hprevious (fun _ => isPunctuation_of_isTight) ht)
        · exact .inr (.inl (hfollowing (fun _ => isPunctuation_of_isTight) ht))
      · split at hc
        · next hcomma => exact .inr (.inl (hfollowing (hone (by decide)) hcomma))
        · split at hc
          · next hpoint =>
            simp only [Bool.and_eq_true] at hpoint
            exact .inr (.inl (hfollowing (hone (by decide)) hpoint.1.2))
          · split at hc
            · next hpoint =>
              simp only [Bool.and_eq_true] at hpoint
              exact .inl (hprevious (hone (by decide)) hpoint.1.1)
            · exact .inr (.inr hc)

end Gap

namespace Layout

variable {acc left : Bytes} {g : Segment}

/-! ## The text before a space -/

/-- The gap between a text that a space follows and the next segment. -/
def gapAfter (left : Bytes) (g : Segment) : Gap where
  previous := left.getLast?
  beforePrevious := left.dropLast.getLast?
  following := g.text.head?
  kind := g.kind
  afterMinus := left == [byteOf '-']

theorem back?_append_space (left : Bytes) {k : Nat} (hk : 0 < k) :
    back? (left ++ [space]) (k + 1) = back? left k := by
  unfold back?
  rw [List.length_append, List.length_singleton]
  by_cases hle : k ≤ left.length
  · rw [if_pos (by omega), if_pos hle, List.getElem?_append_left (by omega)]
    congr 1
    omega
  · rw [if_neg (by omega), if_neg hle]

theorem back?_one (left : Bytes) : back? left 1 = left.getLast? := by
  unfold back?
  rw [List.getLast?_eq_getElem?]
  cases left with
  | nil => rfl
  | cons b rest => rw [if_pos (by simp)]

theorem back?_two_eq (left : Bytes) : back? left 2 = left.dropLast.getLast? := by
  rcases List.eq_nil_or_concat left with rfl | ⟨rest, b, rfl⟩
  · rfl
  · rw [List.concat_eq_append, List.dropLast_concat, ← back?_one]
    unfold back?
    rw [List.length_append, List.length_singleton]
    by_cases hle : 1 ≤ rest.length
    · rw [if_pos (by omega), if_pos hle, List.getElem?_append_left (by omega)]
      congr 1
    · rw [if_neg (by omega), if_neg hle]

theorem gap_append_space (left : Bytes) (g : Segment) :
    gap (left ++ [space]) g = gapAfter left g := by
  have hminus : (decide ((left ++ [space]).length = 2) &&
      (left ++ [space]).head? == some (byteOf '-')) = (left == [byteOf '-']) := by
    match left with
    | [] => decide
    | [b] => simp
    | b :: c :: rest => simp
  unfold gap gapAfter
  rw [hminus, back?_append_space left Nat.one_pos, back?_append_space left Nat.two_pos, back?_one,
    back?_two_eq]

theorem closesBefore_iff : closesBefore acc g ↔
    ∃ left, left ≠ [] ∧ acc = left ++ [space] ∧ (gapAfter left g).closes := by
  constructor
  · intro hc
    have hacc := getLast_eq_space_of_closesBefore hc
    simp only [closesBefore, Bool.and_eq_true, decide_eq_true_eq] at hc
    obtain ⟨⟨hlen, -⟩, hcloses⟩ := hc
    refine ⟨acc.dropLast, ?_, hacc, ?_⟩
    · rw [← List.length_pos_iff, List.length_dropLast]
      omega
    · rwa [hacc, gap_append_space] at hcloses
  · rintro ⟨left, hne, rfl, hcloses⟩
    have hlen := List.length_pos_iff.mpr hne
    simp only [closesBefore, Bool.and_eq_true, decide_eq_true_eq, beq_iff_eq, gap_append_space,
      back?_one, List.getLast?_concat, List.length_append, List.length_singleton]
    exact ⟨⟨by omega, trivial⟩, hcloses⟩

end Layout

end XPathAssembly
