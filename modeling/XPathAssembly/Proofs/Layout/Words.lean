import XPathAssembly.Proofs.Layout.Pieces
import XPathAssembly.Proofs.Layout.Reading
import Mathlib.Data.List.Induction

/-!
# Words of an expression

Words are the longest runs of letters, digits, underscores and bytes outside ASCII.  Laying out puts
no two words together and takes none apart: if no segment glues what follows to it, the words of the
text are those of its segments, in order.

    s.IsExpression head gs → … →
      words (text of head) = gs.flatMap fun g => words (g.spelled style)      (expression_words)

A space is taken back only beside punctuation or after a lone minus, and punctuation ends a word on
either side of it.  The rules look at the first byte of a segment as it is, which is also the first
one that is written unless the segment is put between marks; and a mark is no part of a word.
-/

namespace XPathAssembly

/-! ## Words -/

/-- The bytes that words are made of. -/
def isWordByte (b : UInt8) : Bool :=
  byteOf 'A' ≤ b && b ≤ byteOf 'Z' || byteOf 'a' ≤ b && b ≤ byteOf 'z' || isDigit b ||
    b == byteOf '_' || 0x80 ≤ b

/-- The longest runs of word bytes, in order. -/
def words (bs : Bytes) : List Bytes := (bs.splitOnP fun b => !isWordByte b).filter (· ≠ [])

section
variable {as bs : Bytes} {b : UInt8}

@[simp] theorem words_nil : words [] = [] := rfl

/-- A byte that is in no word separates what stands before it from what follows. -/
theorem words_append_cons (as bs : Bytes) (hb : isWordByte b = false) :
    words (as ++ b :: bs) = words as ++ words bs := by
  unfold words
  rw [List.splitOnP_append_cons as bs (by rw [hb]; rfl), List.filter_append]

theorem words_concat (as : Bytes) (hb : isWordByte b = false) : words (as ++ [b]) = words as := by
  rw [words_append_cons as [] hb, words_nil, List.append_nil]

/-- Two texts keep their words if one of them has no word where they meet. -/
theorem words_append (h : (∀ b, as.getLast? = some b → isWordByte b = false) ∨
    ∀ b, bs.head? = some b → isWordByte b = false) : words (as ++ bs) = words as ++ words bs := by
  rcases h with h | h
  · rcases List.eq_nil_or_concat as with rfl | ⟨as, b, rfl⟩
    · rfl
    · rw [List.concat_eq_append] at h ⊢
      have hb := h b List.getLast?_concat
      rw [List.append_assoc, List.singleton_append, words_append_cons as bs hb, words_concat as hb]
  · cases bs with
    | nil => rw [words_nil, List.append_nil, List.append_nil]
    | cons b bs =>
      have hb := h b rfl
      have hcons : words (b :: bs) = words bs := words_append_cons [] bs hb
      rw [words_append_cons as bs hb, hcons]

theorem isWordByte_of_isPunctuation (hb : isPunctuation b) : isWordByte b = false := by
  have hall : ("@/()[],.".toList.map byteOf).all (fun c => !isWordByte c) = true := by decide
  simp only [isPunctuation, decide_eq_true_eq] at hb
  have hone := List.all_eq_true.mp hall b hb
  rwa [Bool.not_eq_true'] at hone

theorem isWordByte_of_isMark (hb : Template.isMark b) : isWordByte b = false := by
  simp only [Template.isMark, Bool.or_eq_true, decide_eq_true_eq] at hb
  rcases hb with rfl | rfl <;> decide

end

/-! ## Segments -/

/-- A segment begins as its text does, or with a mark. -/
theorem Segment.head?_spelled {g : Segment} {style : Style} {b : UInt8}
    (hb : (g.spelled style).head? = some b) : Template.isMark b ∨ g.text.head? = some b := by
  unfold spelled writes at hb
  split at hb
  · -- between marks
    obtain ⟨q, body, hmark, -, hwrites⟩ := g.quotedWrites_eq
    rw [hwrites] at hb
    cases hb
    exact .inl hmark
  · right
    split at hb
    · -- a brace is doubled where it stands
      rw [List.flatten_singleton] at hb
      cases ht : g.text with
      | nil => rw [ht] at hb; cases hb
      | cons c rest =>
        rw [ht, doubleBraces, List.flatMap_cons] at hb
        split at hb <;> exact hb
    · rwa [List.flatten_singleton] at hb

namespace Layout

variable {style : Style} {acc left : Bytes} {g : Segment} {gs done rest : List Segment}

/-! ## One segment more -/

/-- Where a space is taken back, no word ends before it or punctuation comes after it. -/
theorem apart_of_closesBefore (hc : closesBefore acc g) : ∃ left, acc = left ++ [space] ∧
    ((∀ b, left.getLast? = some b → isWordByte b = false) ∨
      ∃ b, g.text.head? = some b ∧ isPunctuation b) := by
  obtain ⟨left, -, hacc, hcloses⟩ := closesBefore_iff.mp hc
  refine ⟨left, hacc, ?_⟩
  rcases Gap.beside_of_closes hcloses with h | h | h
  · left
    obtain ⟨c, hlast, hpunctuation⟩ := Gap.previousIs_iff.mp h
    intro b hb
    obtain rfl : c = b := Option.some.inj (hlast.symm.trans hb)
    exact isWordByte_of_isPunctuation hpunctuation
  · exact .inr (Gap.followingIs_iff.mp h)
  · left
    intro b hb
    rw [eq_of_beq h, List.getLast?_singleton] at hb
    cases hb
    decide

/-- A text with a space at its end, if there is any text. -/
def IsOpen (acc : Bytes) : Prop := acc = [] ∨ ∃ left, acc = left ++ [space]

theorem words_kept (ho : IsOpen acc) (g : Segment) (style : Style) :
    words (kept acc g ++ g.spelled style) = words acc ++ words (g.spelled style) := by
  unfold kept
  split
  · next hc =>
    obtain ⟨left, rfl, hapart⟩ := apart_of_closesBefore hc
    rw [List.dropLast_concat, words_concat left (by decide)]
    refine words_append (hapart.imp_right fun ⟨c, hhead, hpunctuation⟩ b hb => ?_)
    rcases Segment.head?_spelled hb with hmark | htext
    · exact isWordByte_of_isMark hmark
    · obtain rfl : c = b := Option.some.inj (hhead.symm.trans htext)
      exact isWordByte_of_isPunctuation hpunctuation
  · refine words_append (.inl fun b hb => ?_)
    rcases ho with rfl | ⟨left, rfl⟩
    · cases hb
    · rw [List.getLast?_concat] at hb
      cases hb
      decide

/-- No word ends where a segment begins with a minus. -/
theorem not_isWordByte_of_minus (ho : IsOpen acc)
    (hm : (g.spelled style).head? = some (byteOf '-')) :
    ∀ b, (kept acc g).getLast? = some b → isWordByte b = false := by
  unfold kept
  split
  · next hc =>
    obtain ⟨left, rfl, hapart⟩ := apart_of_closesBefore hc
    rw [List.dropLast_concat]
    rcases hapart with hapart | ⟨c, hhead, hpunctuation⟩
    · exact hapart
    · -- a minus is neither a mark nor punctuation
      rcases Segment.head?_spelled hm with hmark | htext
      · exact absurd hmark (by decide)
      · obtain rfl := Option.some.inj (hhead.symm.trans htext)
        exact absurd hpunctuation (by decide)
  · intro b hb
    rcases ho with rfl | ⟨left, rfl⟩
    · cases hb
    · rw [List.getLast?_concat] at hb
      cases hb
      decide

/-! ## All segments -/

/-- The text after the segments, with the space that follows the last of them. -/
def placed (style : Style) (gs : List Segment) : Bytes := gs.foldl (add style) []

/-- What stands before `g` in the text if the segments `done` come before it. -/
def upTo (style : Style) (done : List Segment) (g : Segment) : Bytes := kept (placed style done) g

theorem add_of_not_isGlued (hg : g.kind.isGlued = false) :
    add style acc g = kept acc g ++ g.spelled style ++ [space] := by
  rw [add_eq, hg]
  rfl

theorem placed_concat (style : Style) (gs : List Segment) (g : Segment) :
    placed style (gs ++ [g]) = add style (placed style gs) g := by
  unfold placed
  rw [List.foldl_append, List.foldl_cons, List.foldl_nil]

theorem isOpen_placed (hg : ∀ g ∈ gs, g.kind.isGlued = false) : IsOpen (placed style gs) := by
  rcases List.eq_nil_or_concat gs with rfl | ⟨gs, g, rfl⟩
  · exact .inl rfl
  · rw [List.concat_eq_append] at hg ⊢
    rw [placed_concat, add_of_not_isGlued (hg g (by simp))]
    exact .inr ⟨_, rfl⟩

theorem words_placed (hg : ∀ g ∈ gs, g.kind.isGlued = false) :
    words (placed style gs) = gs.flatMap fun g => words (g.spelled style) := by
  induction gs using List.reverseRecOn with
  | nil => rfl
  | append_singleton gs g ih =>
    obtain ⟨hgs, hlast⟩ := List.forall_mem_append.mp hg
    rw [placed_concat, add_of_not_isGlued (hlast g List.mem_cons_self), words_concat _ (by decide),
      words_kept (isOpen_placed hgs), ih hgs, List.flatMap_append]
    simp

theorem words_laid (hg : ∀ g ∈ gs, g.kind.isGlued = false) :
    words (laid style gs) = gs.flatMap fun g => words (g.spelled style) := by
  rcases List.eq_nil_or_concat gs with rfl | ⟨gs, g, rfl⟩
  · rfl
  · rw [List.concat_eq_append] at hg ⊢
    have hgs := (List.forall_mem_append.mp hg).1
    unfold laid
    rw [laidFrom_concat]
    show words (kept (placed style gs) g ++ g.spelled style) = _
    rw [words_kept (isOpen_placed hgs), words_placed hgs, List.flatMap_append]
    simp

/-- What stands before the space at the end is not touched any more. -/
theorem exists_laidFrom_append (style : Style) (hg : ∀ g ∈ rest, g.kind.isGlued = false)
    (left more : Bytes) :
    ∃ after, laidFrom style true (left ++ more ++ [space]) rest = left ++ after := by
  induction rest generalizing more with
  | nil => exact ⟨more, by simp [laidFrom]⟩
  | cons g rest ih =>
    obtain ⟨hfirst, hrest⟩ := List.forall_mem_cons.mp hg
    have hadd : ∃ more', add style (left ++ more ++ [space]) g = left ++ more' ++ [space] := by
      rw [add_of_not_isGlued hfirst]
      unfold kept
      split
      · exact ⟨more ++ g.spelled style, by simp⟩
      · exact ⟨more ++ [space] ++ g.spelled style, by simp⟩
    obtain ⟨more', hmore⟩ := hadd
    unfold laidFrom
    rw [hfirst, hmore]
    exact ih hrest more'

theorem laidFrom_append (separated : Bool) (acc : Bytes) (done : List Segment) (g : Segment)
    (rest : List Segment) : laidFrom style separated acc (done ++ g :: rest) =
      laidFrom style (!g.kind.isGlued) (add style (done.foldl (add style) acc) g) rest := by
  induction done generalizing separated acc with
  | nil => rfl
  | cons k done ih => exact ih _ _

/-- Each segment stands in the text directly after what was there when its turn came. -/
theorem laid_eq_upTo (hg : ∀ k ∈ g :: rest, k.kind.isGlued = false) :
    ∃ after, laid style (done ++ g :: rest) = upTo style done g ++ g.spelled style ++ after := by
  obtain ⟨hfirst, hrest⟩ := List.forall_mem_cons.mp hg
  obtain ⟨after, hafter⟩ :=
    exists_laidFrom_append style hrest (upTo style done g ++ g.spelled style) []
  refine ⟨after, ?_⟩
  unfold laid
  rw [laidFrom_append, hfirst]
  show laidFrom style true (add style (placed style done) g) rest = _
  rw [add_of_not_isGlued hfirst, ← hafter, List.append_nil]
  rfl

end Layout

/-! ## Expressions -/

namespace Store

open Layout

variable {s : Store} {head : Option Handle} {gs : List Segment}

/-- **Words stay apart.**  The words of the text of an expression without axis names and double
colons are those of its segments as they are written, in order; and a segment that is written with
a minus in front stands directly after no word. -/
theorem expression_words (he : s.IsExpression head gs) (hg : ∀ g ∈ gs, g.kind.isGlued = false)
    (style : Style) :
    ∃ bs, s.expression head style = .ok bs ∧
      words bs = gs.flatMap (fun g => words (g.spelled style)) ∧
      ∀ done g rest, gs = done ++ g :: rest →
        (∃ after, bs = upTo style done g ++ g.spelled style ++ after) ∧
        ((g.spelled style).head? = some (byteOf '-') →
          ∀ b, (upTo style done g).getLast? = some b → isWordByte b = false) := by
  refine ⟨_, expression_eq he, words_laid hg, fun done g rest hgs => ?_⟩
  subst hgs
  obtain ⟨hdone, hrest⟩ := List.forall_mem_append.mp hg
  exact ⟨laid_eq_upTo hrest, not_isWordByte_of_minus (isOpen_placed hdone)⟩

/-- A negative decimal without a fraction, a name, and another name with a minus in front. -/
def minusNames : Store where
  cells := #[⟨some (.ofText ['-'] .minus), some 1, none⟩,
    ⟨some (.ofText ['1'] .number), some 2, none⟩, ⟨some (.ofText ['.'] .dot), some 3, none⟩,
    ⟨some (.ofText ['x'] .bare), some 4, none⟩,
    ⟨some (.ofText ['-', 'y'] .bare), none, none⟩]

theorem words_minusNames :
    minusNames.expression (some 0) {} = .ok (utf8 "-1. x -y".toList) ∧
      words (utf8 "-1. x -y".toList) = [utf8 ['1'], utf8 ['x'], utf8 ['y']] ∧
      ∀ b, (utf8 "-1. x ".toList).getLast? = some b → isWordByte b = false := by
  have he : minusNames.IsExpression (some 0) [.ofText ['-'] .minus, .ofText ['1'] .number,
      .ofText ['.'] .dot, .ofText ['x'] .bare, .ofText ['-', 'y'] .bare] :=
    ⟨[0, 1, 2, 3, 4], ⟨rfl, rfl, rfl, rfl, rfl, rfl, rfl, rfl, rfl, rfl, rfl⟩, rfl⟩
  have hrun : minusNames.expression (some 0) {} = .ok (utf8 "-1. x -y".toList) := rfl
  obtain ⟨bs, hbs, hwords, hminus⟩ := expression_words he (by decide) {}
  obtain rfl := Except.ok.inj (hrun.symm.trans hbs)
  exact ⟨hrun, hwords, (hminus [.ofText ['-'] .minus, .ofText ['1'] .number, .ofText ['.'] .dot,
    .ofText ['x'] .bare] (.ofText ['-', 'y'] .bare) [] rfl).2 rfl⟩

end Store

end XPathAssembly
