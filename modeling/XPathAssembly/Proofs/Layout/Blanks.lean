import XPathAssembly.Proofs.Layout.Gaps
import XPathAssembly.Proofs.Layout.Reading

/-!
# Layout around literals

Two expressions that differ in the texts of their literals only are laid out with the same spaces,
up to one thing: the rules look at the first byte of the segment that follows, and of a literal this
is the first byte of its text, although a mark is written there.

    closings style [] gs                 which spaces are taken back
    woven style f gs                     the layout of `gs` in which `f` writes the segments
    blanked style gs = blanked style gs' ↔ closings style [] gs = closings style [] gs'
    Forall₂ BeginAlike gs gs' → blanked style gs = blanked style gs'      (blanked_eq_iff)

Behind a literal nothing of its text is seen: of the bytes before a space the rules look at two, at
the second one only if the first is a point, and the last byte of a literal is a mark.  So the texts
of two such expressions stay alike for the rules as they grow (`Framed`).
-/

namespace XPathAssembly

/-! ## Expressions without the texts of their literals -/

/-- A literal blanked out, and any other segment as it is. -/
def Segment.blank (g : Segment) : Bytes :=
  if g.kind = .quoted then [doubleMark, doubleMark] else g.text

namespace Layout

/-- For each segment, whether the space before it is taken back. -/
def closings (style : Style) (acc : Bytes) : List Segment → List Bool
  | [] => []
  | g :: rest => closesBefore acc g :: closings style (add style acc g) rest

/-- The text after the next segment as `f` writes it; `closed` tells whether the space before it is
taken back. -/
def put (f : Segment → Bytes) (closed : Bool) (acc : Bytes) (g : Segment) : Bytes :=
  (if closed then acc.dropLast else acc) ++ f g ++ if g.kind.isGlued then [] else [space]

/-- The text after all segments as `f` writes them. -/
def weave (f : Segment → Bytes) (separated : Bool) (acc : Bytes) : List (Bool × Segment) → Bytes
  | [] => if separated then acc.dropLast else acc
  | (closed, g) :: rest => weave f (!g.kind.isGlued) (put f closed acc g) rest

/-- The layout of an expression, with the segments as `f` writes them and its spaces where they
stand in the text. -/
def woven (style : Style) (f : Segment → Bytes) (gs : List Segment) : Bytes :=
  weave f false [] ((closings style [] gs).zip gs)

/-- The text of an expression with its literals blanked out. -/
def blanked (style : Style) (gs : List Segment) : Bytes := woven style Segment.blank gs

/-- The segments are the same, up to the text of a literal. -/
structure SameFrame (g g' : Segment) : Prop where
  kind : g.kind = g'.kind
  text : g.kind ≠ .quoted → g.text = g'.text

/-- No rule tells the first bytes of the two texts apart. -/
def BeginAlike (g g' : Segment) : Prop :=
  ∀ p ∈ [(· == byteOf '_'), isTight, (· == byteOf ','), (· == byteOf '.'), isDigit, followsCloser],
    g.text.head?.any p = g'.text.head?.any p

/-- A text between two marks. -/
def IsMarked (bs : Bytes) : Prop :=
  ∃ p q body, Template.isMark p ∧ Template.isMark q ∧ bs = p :: (body ++ [q])

/-- The texts are the same, up to what stands between marks. -/
inductive Framed : Bytes → Bytes → Prop
  | nil : Framed [] []
  | byte {as bs : Bytes} (h : Framed as bs) (b : UInt8) : Framed (as ++ [b]) (bs ++ [b])
  | marked {as bs cs ds : Bytes} (h : Framed as bs) (hc : IsMarked cs) (hd : IsMarked ds) :
      Framed (as ++ cs) (bs ++ ds)

/-! ## Texts alike -/

section
variable {as bs cs : Bytes} {b : UInt8} {g g' : Segment} {style : Style}

theorem isMarked_blank (hk : g.kind = .quoted) : IsMarked g.blank := by
  refine ⟨doubleMark, doubleMark, [], by decide, by decide, ?_⟩
  unfold Segment.blank
  rw [if_pos hk]
  rfl

theorem isMarked_spelled (hk : g.kind = .quoted) (hq : style.quotes = true) :
    IsMarked (g.spelled style) := by
  obtain ⟨q, body, hmark, -, hwrites⟩ := g.quotedWrites_eq
  refine ⟨q, q, body, hmark, hmark, ?_⟩
  simp [Segment.spelled, Segment.writes, hk, hq, hwrites]

theorem IsMarked.exists_getLast? (hm : IsMarked cs) :
    ∃ q, Template.isMark q ∧ ∀ as : Bytes, (as ++ cs).getLast? = some q := by
  obtain ⟨p, q, body, -, hq, rfl⟩ := hm
  refine ⟨q, hq, fun as => ?_⟩
  rw [← List.cons_append, ← List.append_assoc, List.getLast?_concat]

theorem IsMarked.two_le_length (hm : IsMarked cs) : 2 ≤ cs.length := by
  obtain ⟨p, q, body, -, -, rfl⟩ := hm
  simp

theorem ne_space_of_isMark (hb : Template.isMark b) : b ≠ space := by
  rintro rfl
  exact absurd hb (by decide)

namespace Framed

theorem symm (h : Framed as bs) : Framed bs as := by
  induction h with
  | nil => exact .nil
  | byte _ b ih => exact ih.byte b
  | marked _ hc hd ih => exact ih.marked hd hc

theorem append (h : Framed as bs) (cs : Bytes) : Framed (as ++ cs) (bs ++ cs) := by
  induction cs generalizing as bs with
  | nil => rwa [List.append_nil, List.append_nil]
  | cons c cs ih =>
    rw [List.append_cons as, List.append_cons bs]
    exact ih (h.byte c)

/-- A space at the end is one of both texts. -/
theorem of_append_space (h : Framed (as ++ [space]) cs) :
    ∃ bs, cs = bs ++ [space] ∧ Framed as bs := by
  generalize he : as ++ [space] = left at h
  cases h with
  | nil => simp at he
  | @byte as' bs' h b =>
    obtain ⟨rfl, hb⟩ := List.append_inj' he rfl
    obtain rfl := (List.cons.inj hb).1
    exact ⟨bs', rfl, h⟩
  | @marked as' bs' cs' _ h hc _ =>
    obtain ⟨q, hq, hlast⟩ := hc.exists_getLast?
    have hspace := hlast as'
    rw [← he, List.getLast?_concat] at hspace
    exact absurd (Option.some.inj hspace).symm (ne_space_of_isMark hq)

theorem eq_nil (h : Framed [] bs) : bs = [] := by
  generalize he : ([] : Bytes) = left at h
  cases h with
  | nil => rfl
  | byte h b => simp at he
  | marked h hc _ =>
    have hlen := congrArg List.length he
    rw [List.length_append] at hlen
    have := hc.two_le_length
    simp only [List.length_nil] at hlen
    omega

theorem eq_singleton (h : Framed [b] bs) : bs = [b] := by
  generalize he : [b] = left at h
  cases h with
  | nil => cases he
  | @byte as' bs' h c =>
    obtain ⟨rfl, hc⟩ := List.append_inj' (show [] ++ [b] = as' ++ [c] from he) rfl
    rw [h.eq_nil, ← (List.cons.inj hc).1]
  | marked h hc _ =>
    have hlen := congrArg List.length he
    rw [List.length_append] at hlen
    have := hc.two_le_length
    simp only [List.length_singleton] at hlen
    omega

/-- Texts alike end in the same byte, or both in a mark. -/
theorem getLast? (h : Framed as bs) : as.getLast? = bs.getLast? ∨
    ∃ p q, Template.isMark p ∧ Template.isMark q ∧ as.getLast? = some p ∧ bs.getLast? = some q := by
  cases h with
  | nil => exact .inl rfl
  | byte h b => exact .inl (by rw [List.getLast?_concat, List.getLast?_concat])
  | marked h hc hd =>
    obtain ⟨p, hp, hlast⟩ := hc.exists_getLast?
    obtain ⟨q, hq, hlast'⟩ := hd.exists_getLast?
    exact .inr ⟨p, q, hp, hq, hlast _, hlast' _⟩

/-- Texts alike that end in a byte other than a mark are alike without it. -/
theorem dropLast (h : Framed as bs) (hlast : as.getLast? = some b)
    (hb : Template.isMark b = false) : Framed as.dropLast bs.dropLast := by
  cases h with
  | nil => cases hlast
  | byte h c => rwa [List.dropLast_concat, List.dropLast_concat]
  | marked h hc _ =>
    obtain ⟨p, hp, hmark⟩ := hc.exists_getLast?
    obtain rfl := Option.some.inj ((hmark _).symm.trans hlast)
    rw [hp] at hb
    cases hb

end Framed

end

/-! ## The rules on texts alike -/

section
variable {as bs : Bytes} {b : UInt8} {g g' : Segment} {style : Style}

theorem SameFrame.refl (g : Segment) : SameFrame g g := ⟨rfl, fun _ => rfl⟩

theorem SameFrame.symm (h : SameFrame g g') : SameFrame g' g where
  kind := h.kind.symm
  text hk := (h.text (h.kind ▸ hk)).symm

theorem BeginAlike.symm (h : BeginAlike g g') : BeginAlike g' g := fun p hp => (h p hp).symm

theorem SameFrame.beginAlike (h : SameFrame g g') (hk : g.kind ≠ .quoted) : BeginAlike g g' := by
  intro p _
  rw [h.text hk]

/-- A rule that passes over marks says the same of texts alike. -/
theorem Framed.any_getLast? (h : Framed as bs) {p : UInt8 → Bool}
    (hp : ∀ q, Template.isMark q → p q = false) : as.getLast?.any p = bs.getLast?.any p := by
  rcases h.getLast? with he | ⟨q, q', hq, hq', has, hbs⟩
  · rw [he]
  · rw [has, hbs, Option.any_some, Option.any_some, hp q hq, hp q' hq']

/-- The byte before a point is seen alike. -/
theorem Framed.beforePrevious (h : Framed as bs) (hlast : as.getLast?.any (· == byteOf '.')) :
    (as.dropLast.getLast? != some (byteOf '.')) = (bs.dropLast.getLast? != some (byteOf '.')) := by
  obtain ⟨b, hb, he⟩ := (Option.any_eq_true _ _).mp hlast
  obtain rfl := eq_of_beq he
  rcases (h.dropLast hb (by decide)).getLast? with he | ⟨q, q', hq, hq', has, hbs⟩
  · rw [he]
  · have hpoint : ∀ q, Template.isMark q → (some q != some (byteOf '.')) = true := by
      intro q hq
      rw [bne_iff_ne]
      rintro hsome
      rw [Option.some.inj hsome] at hq
      exact absurd hq (by decide)
    rw [has, hbs, hpoint q hq, hpoint q' hq']

theorem closes_gapAfter (h : Framed as bs) (hg : SameFrame g g') (ha : BeginAlike g g') :
    (gapAfter as g).closes = (gapAfter bs g').closes := by
  have hmark {p : UInt8 → Bool} (h1 : p singleMark = false) (h2 : p doubleMark = false) :
      ∀ q, Template.isMark q → p q = false := by
    intro q hq
    simp only [Template.isMark, Bool.or_eq_true, decide_eq_true_eq] at hq
    rcases hq with rfl | rfl <;> assumption
  have hprevious {p : UInt8 → Bool} (h1 : p singleMark = false) (h2 : p doubleMark = false) :
      (gapAfter as g).previousIs p = (gapAfter bs g').previousIs p :=
    h.any_getLast? (hmark h1 h2)
  have hfollowing {p : UInt8 → Bool} (hp : p ∈ [(· == byteOf '_'), isTight, (· == byteOf ','),
      (· == byteOf '.'), isDigit, followsCloser]) :
      (gapAfter as g).followingIs p = (gapAfter bs g').followingIs p := ha p hp
  have hminus : (gapAfter as g).afterMinus = (gapAfter bs g').afterMinus := by
    rw [Bool.eq_iff_iff]
    simp only [gapAfter, beq_iff_eq]
    constructor
    · rintro rfl; exact h.eq_singleton
    · rintro rfl; exact h.symm.eq_singleton
  have hpoint : ((gapAfter as g).previousIs (· == byteOf '.') &&
      (gapAfter as g).beforePrevious != some (byteOf '.')) =
        ((gapAfter bs g').previousIs (· == byteOf '.') &&
          (gapAfter bs g').beforePrevious != some (byteOf '.')) := by
    rw [← hprevious (p := (· == byteOf '.')) (by decide) (by decide)]
    cases hlast : (gapAfter as g).previousIs (· == byteOf '.') with
    | false => rfl
    | true => exact h.beforePrevious hlast
  have hkind : (gapAfter as g).kind = (gapAfter bs g').kind := hg.kind
  unfold Gap.closes Gap.isGlued
  rw [hpoint, hminus, hkind, hprevious (p := isCloser) (by decide) (by decide),
    hprevious (p := (· == byteOf '_')) (by decide) (by decide),
    hprevious (p := isTight) (by decide) (by decide),
    hprevious (p := isDigit) (by decide) (by decide), hfollowing (p := followsCloser) (by simp),
    hfollowing (p := (· == byteOf '_')) (by simp), hfollowing (p := isTight) (by simp),
    hfollowing (p := (· == byteOf ',')) (by simp), hfollowing (p := (· == byteOf '.')) (by simp),
    hfollowing (p := isDigit) (by simp)]

theorem closesBefore_of_framed (h : Framed as bs) (hg : SameFrame g g') (ha : BeginAlike g g')
    (hc : closesBefore as g) : closesBefore bs g' := by
  obtain ⟨left, hne, rfl, hcloses⟩ := closesBefore_iff.mp hc
  obtain ⟨left', rfl, hleft⟩ := h.of_append_space
  refine closesBefore_iff.mpr ⟨left', ?_, rfl, ?_⟩
  · rintro rfl
    exact hne hleft.symm.eq_nil
  · rwa [closes_gapAfter hleft hg ha] at hcloses

/-- Before segments that begin alike the same spaces are taken back. -/
theorem closesBefore_eq (h : Framed as bs) (hg : SameFrame g g') (ha : BeginAlike g g') :
    closesBefore as g = closesBefore bs g' :=
  Bool.eq_iff_iff.mpr
    ⟨closesBefore_of_framed h hg ha, closesBefore_of_framed h.symm hg.symm ha.symm⟩

end

/-! ## Growing texts -/

section
variable {style : Style} {acc acc' m : Bytes} {g g' : Segment} {gs gs' : List Segment}
  {f f' : Segment → Bytes} {closed separated : Bool}

/-- The segment is written alike by both: a literal between marks, and any other the same. -/
structure WritesAlike (f f' : Segment → Bytes) (g g' : Segment) : Prop where
  literal : g.kind = .quoted → IsMarked (f g) ∧ IsMarked (f' g')
  other : g.kind ≠ .quoted → f g = f' g'

theorem writesAlike_spelled (hg : SameFrame g g') (hq : style.quotes = true) :
    WritesAlike (Segment.spelled style) (Segment.spelled style) g g' where
  literal hk := ⟨isMarked_spelled hk hq, isMarked_spelled (hg.kind ▸ hk) hq⟩
  other hk := by
    rw [Segment.spelled_of_ne_quoted hk, Segment.spelled_of_ne_quoted (hg.kind ▸ hk), hg.text hk]

theorem writesAlike_blank (hg : SameFrame g g') (hq : style.quotes = true) :
    WritesAlike (Segment.spelled style) Segment.blank g g' where
  literal hk := ⟨isMarked_spelled hk hq, isMarked_blank (hg.kind ▸ hk)⟩
  other hk := by
    unfold Segment.blank
    rw [Segment.spelled_of_ne_quoted hk, if_neg (hg.kind ▸ hk), hg.text hk]

theorem blank_eq (hg : SameFrame g g') : g.blank = g'.blank := by
  unfold Segment.blank
  rw [← hg.kind]
  split
  · rfl
  · next hk => exact hg.text hk

theorem Framed.put (h : Framed acc m) (hc : closed → ∃ left, acc = left ++ [space])
    (hk : g.kind = g'.kind) (hw : WritesAlike f f' g g') :
    Framed (Layout.put f closed acc g) (Layout.put f' closed m g') := by
  have hkept : Framed (if closed then acc.dropLast else acc)
      (if closed then m.dropLast else m) := by
    cases closed with
    | false => exact h
    | true =>
      obtain ⟨left, rfl⟩ := hc rfl
      obtain ⟨left', rfl, hleft⟩ := h.of_append_space
      simpa using hleft
  have hwritten : Framed ((if closed then acc.dropLast else acc) ++ f g)
      ((if closed then m.dropLast else m) ++ f' g') := by
    by_cases hq : g.kind = .quoted
    · exact hkept.marked (hw.literal hq).1 (hw.literal hq).2
    · rw [← hw.other hq]
      exact hkept.append (f g)
  unfold Layout.put
  rw [← hk]
  exact hwritten.append _

theorem exists_of_closesBefore (hc : closesBefore acc g) : ∃ left, acc = left ++ [space] := by
  obtain ⟨left, -, hacc, -⟩ := closesBefore_iff.mp hc
  exact ⟨left, hacc⟩

theorem Framed.add (h : Framed acc m) (hg : SameFrame g g')
    (hw : WritesAlike (Segment.spelled style) f g g') :
    Framed (Layout.add style acc g) (Layout.put f (closesBefore acc g) m g') :=
  h.put exists_of_closesBefore hg.kind hw

theorem add_ends (hg : (!g.kind.isGlued) = true) : ∃ left, add style acc g = left ++ [space] := by
  rw [Bool.not_eq_true'] at hg
  unfold add
  rw [hg]
  exact ⟨_, rfl⟩

/-! ## All segments -/

/-- Laying out is weaving the segments as they are spelled. -/
theorem laidFrom_eq_weave (separated : Bool) (acc : Bytes) (gs : List Segment) :
    laidFrom style separated acc gs =
      weave (Segment.spelled style) separated acc ((closings style acc gs).zip gs) := by
  induction gs generalizing separated acc with
  | nil => rfl
  | cons g rest ih => exact ih _ _

theorem laid_eq_woven (style : Style) (gs : List Segment) :
    laid style gs = woven style (Segment.spelled style) gs :=
  laidFrom_eq_weave false [] gs

theorem closings_eq (hg : List.Forall₂ SameFrame gs gs') (ha : List.Forall₂ BeginAlike gs gs')
    (hq : style.quotes = true) (h : Framed acc acc') :
    closings style acc gs = closings style acc' gs' := by
  induction hg generalizing acc acc' with
  | nil => rfl
  | @cons g g' rest rest' hframe _ ih =>
    obtain ⟨halike, hrest⟩ := List.forall₂_cons.mp ha
    have hc := closesBefore_eq h hframe halike
    have hnext : Framed (add style acc g) (add style acc' g') := by
      have hadd := h.add hframe (writesAlike_spelled hframe hq)
      rwa [hc] at hadd
    unfold closings
    rw [hc, ih hrest hnext]

/-- With the same spaces taken back, the blanked texts are the same. -/
theorem weave_blank_eq (hg : List.Forall₂ SameFrame gs gs') (flags : List Bool)
    (separated : Bool) (m : Bytes) :
    weave Segment.blank separated m (flags.zip gs) =
      weave Segment.blank separated m (flags.zip gs') := by
  induction hg generalizing flags separated m with
  | nil => rfl
  | @cons g g' rest rest' hfirst _ ih =>
    cases flags with
    | nil => rfl
    | cons closed flags =>
      have hput : put Segment.blank closed m g = put Segment.blank closed m g' := by
        unfold put
        rw [blank_eq hfirst, hfirst.kind]
      show weave Segment.blank (!g.kind.isGlued) (put Segment.blank closed m g) _ =
        weave Segment.blank (!g'.kind.isGlued) (put Segment.blank closed m g') _
      rw [hput, hfirst.kind]
      exact ih flags _ _

/-- A part of the blanked text that does not end in a space stays. -/
theorem prefix_weave (gs : List Segment) (hq : style.quotes = true) (h : Framed acc m)
    (hs : separated = true → ∃ left, acc = left ++ [space]) {p : Bytes} (hp : p <+: m)
    (hlast : ∀ left, p ≠ left ++ [space]) :
    p <+: weave Segment.blank separated m ((closings style acc gs).zip gs) := by
  have hdrop {m : Bytes} (hp : p <+: m ++ [space]) : p <+: m :=
    (List.prefix_concat_iff.mp hp).resolve_left (hlast m)
  induction gs generalizing acc m separated with
  | nil =>
    cases separated with
    | false => exact hp
    | true =>
      obtain ⟨left, rfl⟩ := hs rfl
      obtain ⟨left', rfl, -⟩ := h.of_append_space
      show p <+: (left' ++ [space]).dropLast
      rw [List.dropLast_concat]
      exact hdrop hp
  | cons g rest ih =>
    refine ih (h.add (.refl g) (writesAlike_blank (.refl g) hq)) add_ends ?_
    unfold put
    rw [List.append_assoc]
    refine List.IsPrefix.trans ?_ (List.prefix_append _ _)
    split
    · next hc =>
      obtain ⟨left, rfl⟩ := exists_of_closesBefore hc
      obtain ⟨left', rfl, -⟩ := h.of_append_space
      rw [List.dropLast_concat]
      exact hdrop hp
    · exact hp

/-- A space before a blank that is taken back in one text only tells the blanked texts apart. -/
theorem weave_ne_of_closed {rest rest' : List Segment} (hq : style.quotes = true)
    (h : Framed acc m) (h' : Framed acc' m) (hg : SameFrame g g') (hk : g.kind = .quoted)
    (hc : closesBefore acc g) (hc' : closesBefore acc' g' = false) :
    weave Segment.blank false m ((closings style acc (g :: rest)).zip (g :: rest)) ≠
      weave Segment.blank false m ((closings style acc' (g' :: rest')).zip (g' :: rest')) := by
  obtain ⟨left, rfl⟩ := exists_of_closesBefore hc
  obtain ⟨m, rfl, hm⟩ := h.of_append_space
  have hblank : g.blank = [doubleMark, doubleMark] := if_pos hk
  have hblank' : g'.blank = [doubleMark, doubleMark] := if_pos (hg.kind ▸ hk)
  have hends (xs : Bytes) : ∀ ys, xs ++ [doubleMark, doubleMark] ≠ ys ++ [space] := by
    intro ys he
    rw [List.append_cons] at he
    exact absurd (List.append_inj' he rfl).2 (by decide)
  have hfirst := prefix_weave rest (p := m ++ [doubleMark, doubleMark]) hq
    (h.add (.refl g) (writesAlike_blank (.refl g) hq)) add_ends
    (by simp [put, hc, hblank]) (hends m)
  have hsecond := prefix_weave rest' (p := m ++ [space] ++ [doubleMark, doubleMark]) hq
    (h'.add (.refl g') (writesAlike_blank (.refl g') hq)) add_ends
    (by simp [put, hc', hblank']) (hends _)
  intro he
  have hboth := List.prefix_of_prefix_length_le hfirst (he ▸ hsecond) (by simp)
  rw [List.append_assoc, List.prefix_append_right_inj] at hboth
  exact absurd hboth (by decide)

/-- Blanked texts that are the same have the same spaces taken back. -/
theorem closings_eq_of_weave (hg : List.Forall₂ SameFrame gs gs') (hq : style.quotes = true)
    (h : Framed acc m) (h' : Framed acc' m)
    (he : weave Segment.blank separated m ((closings style acc gs).zip gs) =
      weave Segment.blank separated m ((closings style acc' gs').zip gs')) :
    closings style acc gs = closings style acc' gs' := by
  induction hg generalizing acc acc' m separated with
  | nil => rfl
  | @cons g g' rest rest' hfirst _ ih =>
    have hc : closesBefore acc g = closesBefore acc' g' := by
      by_cases hk : g.kind = .quoted
      · cases hc : closesBefore acc g <;> cases hc' : closesBefore acc' g'
        · rfl
        · exact absurd he.symm (weave_ne_of_closed hq h' h hfirst.symm (hfirst.kind ▸ hk) hc' hc)
        · exact absurd he (weave_ne_of_closed hq h h' hfirst hk hc hc')
        · rfl
      · have hleft := closesBefore_eq h hfirst (hfirst.beginAlike hk)
        have hright := closesBefore_eq h' (.refl g') fun _ _ => rfl
        rw [hleft, hright]
    have hput : put Segment.blank (closesBefore acc' g') m g' =
        put Segment.blank (closesBefore acc g) m g := by
      unfold put
      rw [← hc, ← blank_eq hfirst, ← hfirst.kind]
    have hnext := h.add (.refl g) (writesAlike_blank (.refl g) hq)
    have hnext' := h'.add (.refl g') (writesAlike_blank (.refl g') hq)
    rw [hput] at hnext'
    have hrest : weave Segment.blank (!g.kind.isGlued) (put Segment.blank (closesBefore acc g) m g)
        ((closings style (add style acc g) rest).zip rest) =
          weave Segment.blank (!g'.kind.isGlued)
            (put Segment.blank (closesBefore acc' g') m g')
            ((closings style (add style acc' g') rest').zip rest') := he
    rw [hput, ← hfirst.kind] at hrest
    unfold closings
    rw [hc, ih hnext hnext' hrest]

end

end Layout

/-! ## Expressions -/

namespace Store

open Layout

variable {s s' : Store} {head head' : Option Handle} {gs gs' : List Segment} {style : Style}

/-- **What a layout shows of its literals.**  Take two expressions that are the same up to the texts
of their literals, and blank the literals out in what is laid out for them under quotes.  That is
the same text if and only if the same spaces are taken back; and they are the same if corresponding
literals begin alike, whatever comes after their first bytes. -/
theorem blanked_eq_iff (he : s.IsExpression head gs) (he' : s'.IsExpression head' gs')
    (hg : List.Forall₂ SameFrame gs gs') (hq : style.quotes = true) :
    s.expression head style = .ok (woven style (Segment.spelled style) gs) ∧
      s'.expression head' style = .ok (woven style (Segment.spelled style) gs') ∧
      (blanked style gs = blanked style gs' ↔ closings style [] gs = closings style [] gs') ∧
      (List.Forall₂ BeginAlike gs gs' → blanked style gs = blanked style gs') := by
  have hiff : blanked style gs = blanked style gs' ↔
      closings style [] gs = closings style [] gs' := by
    constructor
    · exact closings_eq_of_weave hg hq .nil .nil
    · intro hc
      unfold blanked woven
      rw [hc]
      exact weave_blank_eq hg _ _ _
  refine ⟨?_, ?_, hiff, fun ha => hiff.mpr ?_⟩
  · rw [expression_eq he, laid_eq_woven]
  · rw [expression_eq he', laid_eq_woven]
  · exact closings_eq hg ha hq .nil

/-- A name with a literal after it. -/
def nameAndLiteral (t : Text) : Store where
  cells := #[⟨some (.ofText ['x'] .bare), some 1, none⟩, ⟨some (.ofText t .quoted), none, none⟩]

theorem isExpression_nameAndLiteral (t : Text) : (nameAndLiteral t).IsExpression (some 0)
    [.ofText ['x'] .bare, .ofText t .quoted] :=
  ⟨[0, 1], ⟨rfl, rfl, rfl, rfl, rfl⟩, rfl⟩

theorem sameFrame_nameAndLiteral (t u : Text) : List.Forall₂ SameFrame
    [.ofText ['x'] .bare, .ofText t .quoted] [.ofText ['x'] .bare, .ofText u .quoted] :=
  .cons (.refl _) (.cons ⟨rfl, fun hk => absurd rfl hk⟩ .nil)

/-- Literals that begin alike, between marks of both sorts. -/
theorem blanked_nameAndLiteral :
    (nameAndLiteral ['a']).expression (some 0) { quotes := true } = .ok (utf8 "x \"a\"".toList) ∧
      (nameAndLiteral ['b', '"']).expression (some 0) { quotes := true } =
        .ok (utf8 "x 'b\"'".toList) ∧
      blanked { quotes := true } [.ofText ['x'] .bare, .ofText ['a'] .quoted] =
        blanked { quotes := true } [.ofText ['x'] .bare, .ofText ['b', '"'] .quoted] := by
  obtain ⟨hfirst, hsecond, -, halike⟩ := blanked_eq_iff (isExpression_nameAndLiteral ['a'])
    (isExpression_nameAndLiteral ['b', '"']) (sameFrame_nameAndLiteral _ _)
    (rfl : ({ quotes := true } : Style).quotes = true)
  refine ⟨hfirst, hsecond, halike (.cons (fun _ _ => rfl) (.cons ?_ .nil))⟩
  intro p hp
  simp only [List.mem_cons, List.not_mem_nil, or_false] at hp
  rcases hp with rfl | rfl | rfl | rfl | rfl | rfl <;> rfl

/-- A literal that begins with a slash stands directly after the name, and one that begins with a
letter does not. -/
theorem layout_shows_literal :
    ∃ (s s' : Store) (gs gs' : List Segment), s.IsExpression (some 0) gs ∧
      s'.IsExpression (some 0) gs' ∧ List.Forall₂ SameFrame gs gs' ∧
      (∀ g ∈ gs ++ gs', g.IsMade) ∧
      s.expression (some 0) { quotes := true } = .ok (utf8 "x \"a\"".toList) ∧
      s'.expression (some 0) { quotes := true } = .ok (utf8 "x\"/\"".toList) ∧
      blanked { quotes := true } gs = utf8 "x \"\"".toList ∧
      blanked { quotes := true } gs' = utf8 "x\"\"".toList := by
  refine ⟨nameAndLiteral ['a'], nameAndLiteral ['/'], _, _, isExpression_nameAndLiteral _,
    isExpression_nameAndLiteral _, sameFrame_nameAndLiteral _ _, fun g hg => ?_, rfl, rfl, rfl, rfl⟩
  simp only [List.cons_append, List.nil_append, List.mem_cons, List.not_mem_nil, or_false] at hg
  rcases hg with rfl | rfl | rfl | rfl <;> rfl

end Store

end XPathAssembly
