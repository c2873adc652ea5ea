import XPathAssembly.Proofs.Layout.Reading
import XPathAssembly.Proofs.Session

/-!
# Marks of live segments

All calls that put a segment into the store make it of its text: of the decoded text of a token, of
a text as it stands, or of the text that an expression is collapsed to.  No call changes a segment,
so that the marks of every live one are those that occur in its text.

    Leads Action.Makes s t → s.AllMade → t.AllMade        (Leads.allMade)

Only a segment that is given as such, marks and all, can break this.
-/

namespace XPathAssembly

namespace Store

variable {s t : Store} {a : Action}

/-- Actions that put in no segment but one that is made of its text. -/
def Action.Makes : Action → Prop
  | insert g => g.IsMade
  | _ => True

theorem Action.allowsBuilding_makes : AllowsBuilding Makes :=
  ⟨fun _ _ _ => trivial, fun _ _ => trivial, fun _ _ => rfl⟩

theorem Action.allowsClearing_makes : AllowsClearing Makes :=
  ⟨fun _ _ => trivial, fun _ => trivial⟩

/-- Every live segment is as it is made of its text. -/
def AllMade (s : Store) : Prop := ∀ (h : Handle) (g : Segment), s.get? h = some g → g.IsMade

theorem allMade_empty : AllMade {} := by
  intro (h : Int) g hg
  have hlive := isLive_iff.2 ⟨g, hg⟩
  have h0 := nonneg_of_isLive hlive
  have hlt : h < (0 : Int) := lt_size_of_isLive hlive
  omega

theorem AllMade.accepts (hm : s.AllMade) (hs : s.Sound) (hp : a.Makes) (ha : Accepts s a t) :
    t.AllMade := by
  intro h g hg
  rcases ha.get?_or_insert hs hg with hg | rfl
  · exact hm h g hg
  · exact hp

theorem Leads.allMade (h : Leads Action.Makes s t) (hs : s.Sound) (hm : s.AllMade) :
    t.AllMade := by
  induction h with
  | refl => exact hm
  | tail hrun hstep ih =>
    obtain ⟨a, hp, ha⟩ := hstep
    exact ih.accepts (Leads.sound hrun hs) hp ha

end Store

namespace Session

theorem allMade_after {steps : List Step} (hi : ∀ g, .insert g ∈ steps → g.IsMade) :
    (after {} steps).store.AllMade :=
  (leads_after_of_allows Store.Action.allowsBuilding_makes Store.Action.allowsClearing_makes {}
    hi).allMade Store.sound_empty Store.allMade_empty

/-- **The marks of a segment are those of its text.**  After any steps of a session, accepted or
not, a live segment has the marks that occur in its text, if those that are put in as given have. -/
theorem marks_after {steps : List Step} (hi : ∀ g, .insert g ∈ steps → g.IsMade) {h : Handle}
    {g : Segment} (hg : (after {} steps).store.get? h = some g) :
    (g.marks.single ↔ singleMark ∈ g.text) ∧ (g.marks.double ↔ doubleMark ∈ g.text) ∧
      (g.marks.both ↔ singleMark ∈ g.text ∧ doubleMark ∈ g.text) := by
  have hmarks : g.marks = Marks.ofBytes g.text :=
    congrArg Segment.marks (allMade_after hi h g hg)
  rw [hmarks]
  exact ⟨Marks.single_ofBytes_iff, Marks.double_ofBytes_iff, Marks.both_ofBytes_iff⟩

/-- A segment given with its single mark. -/
def givenMark : Segment := ⟨utf8 ['\''], .bare, { single := true }⟩

/-- A literal with an escaped double mark and the given segment, collapsed into one. -/
def collapsedMarks : List Step :=
  [.insertToken "'\\x22'".toList ⟨0, 6⟩ .quoted, .insert givenMark, .connect .next 0 (some 1),
   .addSlot (some 0), .collapse 0 .bare]

theorem marks_after_collapsed : .insert givenMark ∈ collapsedMarks ∧ givenMark.IsMade ∧
    ∃ g : Segment, (after {} collapsedMarks).store.get? 2 = some g ∧
      g.text = utf8 "'\"' '".toList ∧
      (g.marks.both ↔ singleMark ∈ g.text ∧ doubleMark ∈ g.text) := by
  have hmade : givenMark.IsMade := by unfold Segment.IsMade; decide
  have hi : ∀ g, Step.insert g ∈ collapsedMarks → g.IsMade := by
    intro g hg
    obtain rfl : g = givenMark := by simpa [collapsedMarks] using hg
    exact hmade
  have hg : (after {} collapsedMarks).store.get? 2 = some (.ofText "'\"' '".toList .bare) := by
    decide
  exact ⟨by decide, hmade, _, hg, rfl, (marks_after hi hg).2.2⟩

end Session

end XPathAssembly
