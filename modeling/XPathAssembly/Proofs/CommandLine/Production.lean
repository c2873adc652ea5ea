import XPathAssembly.CommandLine.Program
import XPathAssembly.Proofs.Assembly.Outcome
import XPathAssembly.Proofs.Bench.Calls
import XPathAssembly.Proofs.Listing

/-!
# What the command leaves behind

A chain is written in two steps.  Its text is made first, and this step owns up to what is then
left: the chain, and the segment that it may have been collapsed into.  What is left covers the
store, whatever the mode is, and is discarded; so the command ends with an empty store.

    produce mode style head = do
      let p ← present mode style head; discardAll p.2; return p.1               (produce_eq)
    s.Covers [some head] → … → present mode style head s = .ok (t, left) mid ∧
      mid.Covers left                                                           (present_ok)
-/

namespace XPathAssembly

namespace Program

open Store

/-- The text of a chain in a mode, and the heads of what is then left to be discarded. -/
def present (mode : Mode) (style : Style) (head : Handle) :
    Call Store (Text × List (Option Handle)) :=
  match mode with
  | .xpath => do
    return (Utf8.decodeLossy (← look (·.expression (some head) style)), [some head])
  | .concat => do
    return (Utf8.decodeLossy (← look (·.concatCall (some head) style)), [some head])
  | .avt => do
    return (Utf8.decodeLossy (← look (·.template (some head) style)), [some head])
  | .fuse => do
    let c ← Store.collapse (some head) .bare
    let g ← look (·.segmentOf c.handle)
    return (Utf8.decodeLossy g.text, [c.left, some c.handle])
  | .dump => do
    return (← look (·.listing (some head)), [some head])

/-- A chain is presented, and what is left is discarded in turn. -/
theorem produce_eq (mode : Mode) (style : Style) (head : Handle) :
    produce mode style head = do
      let p ← present mode style head
      Assembly.discardAll p.2
      return p.1 := by
  cases mode <;>
    simp only [produce, present, finish, Assembly.discardAll, bind_assoc, pure_bind]

section
variable {s : Store} {head : Handle} {es : List (List Segment)} {style : Style}

theorem look_of_ok {α : Type} {f : Store → Except Fault α} {a : α} (h : f s = .ok a) :
    look f s = .ok a s := by
  unfold look
  rw [Call.bind_apply, Call.get_apply]
  simp only [h]
  rfl

/-- A look at the store leaves the chain to be discarded. -/
theorem present_of_look {α : Type} {f : Store → Except Fault α} {a : α} (g : α → Text)
    (h : f s = .ok a) :
    (do return (g (← look f), [some head]) : Call Store (Text × List (Option Handle))) s =
      .ok (g a, [some head]) s := by
  rw [Call.bind_apply, look_of_ok h]
  rfl

/-- The text of a collapsed chain is that of its segment, which is left beside what was not handed
over. -/
theorem present_of_collapse {c : Collapsed} {mid : Store} {g : Segment}
    (hrun : collapse (some head) .bare s = .ok c mid) (hg : mid.get? c.handle = some g) :
    present .fuse style head s =
      .ok (Utf8.decodeLossy g.text, [c.left, some c.handle]) mid := by
  have hlook : look (·.segmentOf c.handle) mid = .ok g mid := by
    refine look_of_ok ?_
    unfold segmentOf
    rw [hg]
  unfold present
  simp only [Call.bind_apply, hrun, hlook, Call.pure_apply]

/-- Collapsing hands the chain over, or leaves it beside a new segment. -/
theorem present_fuse (hc : s.Covers [some head]) : ∃ t left mid,
    present .fuse style head s = .ok (t, left) mid ∧ s.Preserved mid ∧ mid.Covers left := by
  obtain ⟨_, hp, -⟩ := hc.pends
  obtain ⟨t, ht, -⟩ := pends_singleton_iff.1 hp
  rcases collapse_cases ht (nofun : Kind.bare ≠ .eos) with ⟨h, hh, -, hrun⟩ | ⟨g, hrun⟩
  · cases hh
    obtain ⟨g, hg⟩ := isLive_iff.1 (holds_some_iff.1 ht).1
    exact ⟨_, _, s, present_of_collapse hrun hg, .refl s, hc.sound, hc.pends⟩
  · obtain ⟨h, mid, hinsert, hi, hs⟩ := insert_spec hc.sound g
    exact ⟨_, _, mid, present_of_collapse (hrun h mid hinsert) hi.found, hi.preserved,
      hc.inserted hi hs⟩

/-- In each mode a text is made without a fault, and what is left covers the store. -/
theorem present_ok (hs : s.IsConcatenation (some head) es) (hc : s.Covers [some head])
    (mode : Mode) (style : Style) : ∃ t left mid,
      present mode style head s = .ok (t, left) mid ∧ s.Preserved mid ∧ mid.Covers left := by
  cases mode with
  | xpath =>
    obtain ⟨gs, hgs⟩ := hs.isExpression
    exact ⟨_, _, s, present_of_look Utf8.decodeLossy (expression_eq hgs), .refl s, hc⟩
  | concat =>
    obtain ⟨bs, hbs⟩ := concatCall_ok hs
    exact ⟨_, _, s, present_of_look Utf8.decodeLossy hbs, .refl s, hc⟩
  | avt =>
    obtain ⟨bs, hbs⟩ := template_ok hs
    exact ⟨_, _, s, present_of_look Utf8.decodeLossy hbs, .refl s, hc⟩
  | fuse => exact present_fuse hc
  | dump => exact ⟨_, _, s, present_of_look id (listing_eq hs), .refl s, hc⟩

/-- A chain is written without a fault, and nothing is left in the store. -/
theorem produce_ok (hs : s.IsConcatenation (some head) es) (hc : s.Covers [some head])
    (mode : Mode) (style : Style) : ∃ t left mid hs s',
      present mode style head s = .ok (t, left) mid ∧ s.Preserved mid ∧
        produce mode style head s = .ok t s' ∧ mid.Emptied hs s' := by
  obtain ⟨t, left, mid, hrun, hkept, hcovers⟩ := present_ok hs hc mode style
  obtain ⟨hs, s', hdiscard, hempty⟩ := discardAll_of_covers hcovers
  refine ⟨t, left, mid, hs, s', hrun, hkept, ?_, hempty⟩
  rw [produce_eq]
  simp only [Call.bind_apply, hrun, hdiscard, Call.pure_apply]

end

/-- **No segment is left behind.**  A value that has a chain is written in every mode and style
without a fault, and of what the store then held everything is removed once, be it the chain alone
or the chain and the segment that it was collapsed into.  If a value has none because one of its
expressions would be empty, what was built for the others is removed in the same way. -/
theorem nothing_left (x : Json) : ∃ answer s, Assembly.assemble x {} = .ok answer s ∧
    (∀ head, answer = .ok head → ∀ mode style, ∃ t left mid hs s',
      present mode style head s = .ok (t, left) mid ∧ s.Preserved mid ∧
        produce mode style head s = .ok t s' ∧ mid.Emptied hs s') ∧
    (∀ es, Assembly.readExpressions x = .ok es → (∃ e ∈ es, ∀ t ∈ e, t.kind = .eos) →
      ∃ issues heads mid hs, answer = .error issues ∧
        Assembly.buildExpressions es {} = .ok heads mid ∧ mid.Emptied hs s) := by
  cases hr : Assembly.readExpressions x with
  | error issues =>
    rw [Assembly.assemble_of_error hr]
    refine ⟨.error issues, {}, rfl, fun head he => ?_, fun es he => ?_⟩
    · cases he
    · cases he
  | ok es =>
    obtain ⟨hes, -, ht⟩ := Assembly.readExpressions_eq_ok_iff.1 hr
    rw [Assembly.assemble_of_ok hr]
    rcases Assembly.build_spec hes ht with ⟨issues, s, hrun, -, -, heads, mid, hs, hbuilt, hempty⟩ |
      ⟨head, s, hrun, ⟨hlack, hcovers⟩, hmirrors⟩
    · refine ⟨_, s, hrun, fun head he => ?_, fun es' he _ => ?_⟩
      · cases he
      · cases he
        exact ⟨issues, heads, mid, hs, rfl, hbuilt, hempty⟩
    · refine ⟨_, s, hrun, fun head' he mode style => ?_, fun es' he hbare => ?_⟩
      · cases he
        exact produce_ok hmirrors.concatenation hcovers mode style
      · cases he
        exact absurd rfl (hlack.exists_iff.1 (Assembly.exists_lacksToken_iff.2 hbare))

end Program

end XPathAssembly
