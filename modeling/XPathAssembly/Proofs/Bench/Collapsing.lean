import XPathAssembly.Proofs.Bench.Calls
import XPathAssembly.Proofs.Layout.Reading
import XPathAssembly.Proofs.Store.Emptying

/-!
# Collapsed expressions

A lone segment that needs no quotes is handed over as it is; of any other expression the text goes
into a new segment, and a new segment has no links.

    isPlain gs       → collapse head kind s = .ok ⟨h, none⟩ s
    ¬ isPlain gs     → collapse head kind s = .ok ⟨h, head⟩ s'     with the text of `gs` in `h`

A segment without links stands alone: it is discarded alone, and nothing is written with it.  Only
the next link decides whether a segment is handed over, so one with a sibling goes with all that
hangs on it.

    (Bench.collapse i kind b answers h) →
      (StandsAlone … h g ↔ (isPlain gs → the slot holds no siblings))     (collapse_standsAlone_iff)

Either way the segment has the text that the expression has between quotes, and that is written for
it in every style unless it is a literal.                                      (collapse_expression)
-/

namespace XPathAssembly

namespace Layout

/-- The kind of the segment of an expression that has only one. -/
def loneKind? : List Segment → Option Kind
  | [g] => some g.kind
  | _ => none

/-- Whether an expression is one segment that needs no quotes. -/
def isPlain (gs : List Segment) : Bool := (loneKind? gs).any (· ≠ .quoted)

section
variable {gs : List Segment} {kind : Kind}

theorem loneKind?_eq_some_iff : loneKind? gs = some kind ↔ ∃ g, gs = [g] ∧ g.kind = kind := by
  match gs with
  | [] => simp [loneKind?]
  | [g] => simp [loneKind?]
  | g :: g' :: rest => simp [loneKind?]

theorem isPlain_iff : isPlain gs ↔ ∃ g, gs = [g] ∧ g.kind ≠ .quoted := by
  unfold isPlain
  simp only [Option.any_eq_true, loneKind?_eq_some_iff, decide_eq_true_eq]
  constructor
  · rintro ⟨_, ⟨g, hg, rfl⟩, hne⟩
    exact ⟨g, hg, hne⟩
  · rintro ⟨g, hg, hne⟩
    exact ⟨g.kind, ⟨g, hg, rfl⟩, hne⟩

end

/-- The segment that the text of an expression is put into. -/
def collapsed (kind : Kind) (gs : List Segment) : Segment :=
  .ofBytes (laid { quotes := true } gs) (if isLiteral gs then .quoted else kind)

end Layout

namespace Store

open Layout

variable {s s' : Store} {head : Option Handle} {h k : Handle} {g : Segment} {gs : List Segment}
  {es : List (List Segment)} {kind : Kind}

/-! ## Collapsing -/

theorem isExpression_some_iff : s.IsExpression (some h) gs ↔
    ∃ g rest, gs = g :: rest ∧ s.get? h = some g ∧ s.IsExpression (s.link? .next h) rest := by
  constructor
  · rintro ⟨hs, hl, hg⟩
    cases hs with
    | nil => cases hl
    | cons k hs =>
      obtain ⟨hk, -, hl⟩ := hl
      obtain rfl := Option.some.inj hk
      cases gs with
      | nil => cases hg
      | cons g rest =>
        obtain ⟨hget, hg⟩ := List.cons.inj hg
        exact ⟨g, rest, rfl, hget, hs, hl, hg⟩
  · rintro ⟨g, rest, rfl, hget, hs, hl, hg⟩
    exact ⟨h :: hs, ⟨rfl, isLive_iff.mpr ⟨g, hget⟩, hl⟩, by rw [List.map_cons, hget, hg]; rfl⟩

theorem isExpression_none_iff : s.IsExpression none gs ↔ gs = [] := by
  constructor
  · rintro ⟨hs, hl, hg⟩
    cases hs with
    | nil => exact List.map_eq_nil_iff.mp hg.symm
    | cons k hs => cases hl.1
  · rintro rfl
    exact isExpression_none

/-- An expression is one segment if its head has no next link. -/
theorem isExpression_singleton_iff : s.IsExpression (some h) [g] ↔
    s.get? h = some g ∧ s.link? .next h = none := by
  rw [isExpression_some_iff]
  constructor
  · rintro ⟨g', rest, he, hget, hrest⟩
    cases he
    refine ⟨hget, ?_⟩
    cases hl : s.link? .next h with
    | none => rfl
    | some k =>
      rw [hl, isExpression_some_iff] at hrest
      obtain ⟨_, _, he, -⟩ := hrest
      cases he
  · rintro ⟨hget, hl⟩
    exact ⟨g, [], rfl, hget, hl ▸ isExpression_none⟩

/-- The kind of a lone segment is found, and no other. -/
theorem loneKind?_eq (he : s.IsExpression head gs) :
    s.loneKind? head = Layout.loneKind? gs := by
  cases head with
  | none =>
    rw [isExpression_none_iff.mp he]
    rfl
  | some h =>
    obtain ⟨g, rest, rfl, hget, hrest⟩ := isExpression_some_iff.mp he
    have hlone : s.loneKind? (some h) =
        if (s.link? .next h).isSome then none else some g.kind := by
      show ((s.get? h).bind fun g => _) = _
      rw [hget]
      rfl
    rw [hlone]
    cases hl : s.link? .next h with
    | none =>
      rw [hl, isExpression_none_iff] at hrest
      rw [hrest]
      rfl
    | some k =>
      rw [hl] at hrest
      obtain ⟨g', rest', rfl, -⟩ := isExpression_some_iff.mp hrest
      rfl

theorem collapse_of_isPlain (he : s.IsExpression (some h) gs) (hp : isPlain gs)
    (hk : kind ≠ .eos) : collapse (some h) kind s = .ok ⟨h, none⟩ s := by
  obtain ⟨g, rfl, hg⟩ := isPlain_iff.mp hp
  have hchain : (!s.isChain (some h)) = false := by rw [he.isChain]; rfl
  have hlone : s.loneKind? (some h) = some g.kind := loneKind?_eq he
  unfold collapse
  simp only [if_neg hk, Call.bind_apply, Call.get_apply, hchain, Bool.false_eq_true, if_false,
    hlone, if_neg hg]
  rfl

theorem collapse_of_not_isPlain (he : s.IsExpression head gs) (hp : isPlain gs = false)
    (hk : kind ≠ .eos) (hi : insert (collapsed kind gs) s = .ok h s') :
    collapse head kind s = .ok ⟨h, head⟩ s' := by
  have hmake {kind' : Kind} (hkind : kind' = if Layout.isLiteral gs then .quoted else kind) :
      collapse.make head s kind' s = .ok ⟨h, head⟩ s' := by
    unfold collapse.make
    rw [expression_eq he, hkind]
    show (do return ⟨← insert (collapsed kind gs), head⟩ : Call Store Collapsed) s = _
    rw [Call.bind_apply, hi]
    rfl
  have hchain : (!s.isChain head) = false := by rw [he.isChain]; rfl
  have hlone := loneKind?_eq he
  unfold collapse
  simp only [if_neg hk, Call.bind_apply, Call.get_apply, hchain, Bool.false_eq_true, if_false,
    hlone]
  cases hkind : Layout.loneKind? gs with
  | none =>
    have hnot : ¬ Layout.isLiteral gs := fun hlit => by
      obtain ⟨g, rfl, -⟩ := isLiteral_iff.mp hlit
      cases hkind
    have hresult := hmake (if_neg hnot).symm
    cases head <;> exact hresult
  | some lone =>
    obtain ⟨g, rfl, rfl⟩ := loneKind?_eq_some_iff.mp hkind
    have hq : g.kind = .quoted := by
      by_contra hne
      rw [isPlain_iff.mpr ⟨g, rfl, hne⟩] at hp
      cases hp
    have hresult := hmake (if_pos (isLiteral_iff.mpr ⟨g, rfl, hq⟩)).symm
    cases head with
    | none => exact absurd (isExpression_none_iff.mp he) (List.cons_ne_nil _ _)
    | some k => simpa only [if_pos hq] using hresult

/-! ## The text of a collapsed expression -/

/-- In no style more is written for a segment that is no literal than its text. -/
theorem expression_of_ne_quoted (hg : s.get? h = some g) (hl : s.link? .next h = none)
    (hk : g.kind ≠ .quoted) (style : Style) : s.expression (some h) style = .ok g.text := by
  have he : s.IsExpression (some h) [g] := isExpression_singleton_iff.mpr ⟨hg, hl⟩
  rw [expression_eq he, laid_singleton, Segment.spelled_of_ne_quoted hk]

/-! ## Segments that stand alone -/

/-- Nothing hangs on the segment: it is discarded alone, and nothing is written with it. -/
structure StandsAlone (s : Store) (h : Handle) (g : Segment) : Prop where
  found : s.get? h = some g
  unlinked : ∀ d, s.link? d h = none
  discarded : ∃ s', discard (some h) s = .ok () s' ∧ Removed s [h] s'
  expression : ∀ style, s.expression (some h) style = .ok (g.spelled style)
  concatCall : ∀ style, s.concatCall (some h) style = .ok (g.spelled style)
  template : ∀ style, s.template (some h) style = .ok (part { style with braces := true } [g])

theorem standsAlone_of_unlinked (hg : s.get? h = some g) (hl : ∀ d, s.link? d h = none) :
    s.StandsAlone h g := by
  have hlive : s.isLive h := isLive_iff.mpr ⟨g, hg⟩
  have he : s.IsExpression (some h) [g] := isExpression_singleton_iff.mpr ⟨hg, hl .next⟩
  have htext (style : Style) : s.expression (some h) style = .ok (g.spelled style) := by
    rw [expression_eq he, laid_singleton]
  refine ⟨hg, hl, ?_, htext, fun style => ?_, fun style => ?_⟩
  · have htree : s.Holds (some h) (.node h .empty .empty) := ⟨rfl, hlive, hl .sibling, hl .next⟩
    exact discard_of_tree htree (List.nodup_singleton h)
  · rw [concatCall_of_no_sibling he.isChain (hl .sibling), htext]
  · have hc : s.IsConcatenation (some h) [[g]] :=
      ⟨[h], ⟨rfl, hlive, hl .sibling⟩, .cons he .nil⟩
    rw [template_eq hc]
    simp

/-- With a segment that has a sibling at least two are discarded. -/
theorem size_of_discard_of_sibling (hs : s.Sound) (hl : s.isLive h)
    (hk : s.link? .sibling h = some k) (hd : discard (some h) s = .ok () s') :
    s'.size + 2 ≤ s.size := by
  obtain ⟨t, ht, -, hr⟩ := removed_of_discard hl hd
  have hsize := hr.size_add ((rounds_discard hl).sound hs s' hd)
  obtain ⟨-, siblings, rest, rfl, hsiblings, -⟩ := holds_some_iff.mp ht
  rw [hk] at hsiblings
  obtain ⟨-, siblings', rest', rfl, -⟩ := holds_some_iff.mp hsiblings
  simp only [Tree.handles, List.length_append, List.length_cons] at hsize
  omega

/-- A head with a sibling heads several expressions. -/
theorem IsConcatenation.two_le_length (hc : s.IsConcatenation (some h) es)
    (hk : s.link? .sibling h = some k) : 2 ≤ es.length := by
  obtain ⟨heads, hl, he⟩ := hc
  rw [← he.length_eq]
  by_contra hlen
  have hnone : s.link? .sibling h = none := hl.bind_link?_eq_none_iff.mpr (by omega)
  rw [hk] at hnone
  cases hnone

end Store

/-! ## Slots -/

namespace Bench

open Store Layout

variable {b : Bench} {i : Nat} {head : Option Handle} {gs : List Segment} {kind : Kind}

theorem collapse_of_ok {c : Collapsed} {s : Store} (hi : b.slots[i]? = some head)
    (hc : Store.collapse head kind b.store = .ok c s) :
    Bench.collapse i kind b =
      .ok c.handle { b with store := s, slots := b.slots.setIfInBounds i c.left } := by
  unfold Bench.collapse
  simp only [Call.bind_apply, slot_eq hi, onStore_of_ok hc]
  rfl

/-- **When a collapsed expression is a single segment.**  What a slot holds is collapsed into a
segment without a next link.  It stands alone unless it was handed over with siblings; and then
these are discarded and written with it. -/
theorem collapse_standsAlone_iff (hr : b.store.Reachable) (hi : b.slots[i]? = some head)
    (he : b.store.IsExpression head gs) (hk : kind ≠ .eos) :
    ∃ h b' g, Bench.collapse i kind b = .ok h b' ∧ b'.store.get? h = some g ∧
      b'.store.link? .next h = none ∧
      (b'.store.StandsAlone h g ↔ (isPlain gs → head.bind (b.store.link? .sibling) = none)) ∧
      ∀ k, isPlain gs → head.bind (b.store.link? .sibling) = some k →
        b'.store.link? .sibling h = some k ∧
        (∀ s, discard (some h) b'.store = .ok () s → s.size + 2 ≤ b'.store.size) ∧
        ∀ es, b'.store.IsConcatenation (some h) es → 2 ≤ es.length ∧
          ∀ style, b'.store.concatCall (some h) style =
            .ok (callText { style with quotes := true } es) := by
  cases hp : isPlain gs with
  | true =>
    obtain ⟨g, rfl, -⟩ := isPlain_iff.mp hp
    cases head with
    | none => cases isExpression_none_iff.mp he
    | some h =>
      obtain ⟨hg, hnext⟩ := isExpression_singleton_iff.mp he
      refine ⟨h, _, g, collapse_of_ok hi (collapse_of_isPlain he hp hk), hg, hnext, ?_, ?_⟩
      · refine ⟨fun ha _ => ha.unlinked .sibling, fun hsibling => ?_⟩
        refine standsAlone_of_unlinked hg fun d => ?_
        cases d with
        | next => exact hnext
        | sibling => exact hsibling rfl
      · intro k _ hsibling
        refine ⟨hsibling, fun s hd => ?_, fun es hc => ?_⟩
        · exact size_of_discard_of_sibling hr.sound (isLive_iff.mpr ⟨g, hg⟩) hsibling hd
        · exact ⟨hc.two_le_length hsibling, fun style => concatCall_of_sibling hc hsibling⟩
  | false =>
    obtain ⟨h, s, hinsert, hnew, -⟩ := insert_spec hr.sound (collapsed kind gs)
    refine ⟨h, _, _, collapse_of_ok hi (collapse_of_not_isPlain he hp hk hinsert), hnew.found,
      hnew.unlinked .next, ?_, fun k hplain => ?_⟩
    · have halone := standsAlone_of_unlinked hnew.found hnew.unlinked
      exact iff_of_true halone fun hplain => nomatch hplain
    · cases hplain

/-- Two segments in a row and a sibling of the first one are collapsed into a fourth one. -/
theorem collapse_standsAlone_forked : ∃ b' : Bench,
    Bench.collapse 0 .bare { store := forked, slots := #[some 0] } = .ok 3 b' ∧
      b'.store.StandsAlone 3 (.ofText ['a', ' ', 'c'] .bare) := by
  have he : forked.IsExpression (some 0) [.ofText ['a'] .bare, .ofText ['c'] .bare] :=
    ⟨[0, 2], ⟨rfl, rfl, rfl, rfl, rfl⟩, rfl⟩
  obtain ⟨h, b', g, hrun, hg, -, halone, -⟩ :=
    collapse_standsAlone_iff (b := { store := forked, slots := #[some 0] }) (i := 0)
      reachable_forked rfl he (nofun : Kind.bare ≠ .eos)
  cases hrun
  cases hg
  exact ⟨_, rfl, halone.mpr nofun⟩

/-- One segment came in, without links; the owners and all links are as before. -/
structure Gained (b : Bench) (g : Segment) (h : Handle) (b' : Bench) : Prop where
  slots : b'.slots = b.slots
  cursors : b'.cursors = b.cursors
  inserted : Inserted b.store g h b'.store
  links : ∀ (d : Direction) (k : Int), 0 ≤ k → b'.store.link? d k = b.store.link? d k
  size : b'.store.size = b.store.size + 1

theorem gained_of_insert {g : Segment} {h : Handle} {s : Store} (hs : b.store.Sound)
    (hi : b.slots[i]? = some head) (hrun : insert g b.store = .ok h s) :
    b.Gained g h { b with store := s, slots := b.slots.setIfInBounds i head } where
  slots := setIfInBounds_slots hi
  cursors := rfl
  inserted := (inserted_of_insert hs hrun).1
  links _ _ hk := (inserted_of_insert hs hrun).1.link?_eq hs hk
  size := size_of_insert hs hrun

/-- **Collapsing keeps the text.**  Handed over or made anew, the segment has the text that the
expression in the slot has between quotes, and the marks of this text.  The slot is emptied and
nothing else happens, or all links stay and one segment comes in.  Of what is no literal the text is
written alike in every style. -/
theorem collapse_expression (hr : b.store.Reachable) (hi : b.slots[i]? = some head)
    (he : b.store.IsExpression head gs) (hm : ∀ g ∈ gs, g.IsMade) (hk : kind ≠ .eos) :
    ∃ text h b' g, b.store.expression head { quotes := true } = .ok text ∧
      Bench.collapse i kind b = .ok h b' ∧ b'.store.get? h = some g ∧
      g.text = text ∧ g.marks = Marks.ofBytes text ∧
      (if isPlain gs then head = some h ∧ b' = b.without (.slot i) else b.Gained g h b') ∧
      (¬ isLiteral gs → kind ≠ .quoted →
        ∀ style, b'.store.expression (some h) style = .ok text) := by
  by_cases hp : isPlain gs
  · obtain ⟨g, rfl, hg⟩ := isPlain_iff.mp hp
    cases head with
    | none => cases isExpression_none_iff.mp he
    | some h =>
      obtain ⟨hget, hnext⟩ := isExpression_singleton_iff.mp he
      have htext := expression_of_ne_quoted hget hnext hg
      have hmarks : g.marks = Marks.ofBytes g.text :=
        congrArg Segment.marks (hm g List.mem_cons_self)
      refine ⟨g.text, h, _, g, htext _, collapse_of_ok hi (collapse_of_isPlain he hp hk), hget, rfl,
        hmarks, ?_, fun _ _ => htext⟩
      rw [if_pos hp]
      exact ⟨rfl, rfl⟩
  · obtain ⟨h, s, hinsert, hnew, -⟩ := insert_spec hr.sound (collapsed kind gs)
    have hcollapse := collapse_of_not_isPlain he (eq_false_of_ne_true hp) hk hinsert
    refine ⟨_, h, _, _, expression_eq he, collapse_of_ok hi hcollapse, hnew.found, rfl, rfl, ?_,
      fun hlit hquoted => ?_⟩
    · rw [if_neg hp]
      exact gained_of_insert hr.sound hi hinsert
    · have hkind : (collapsed kind gs).kind ≠ .quoted := by
        show (if isLiteral gs then .quoted else kind) ≠ Kind.quoted
        rwa [if_neg hlit]
      exact expression_of_ne_quoted hnew.found (hnew.unlinked .next) hkind

/-- Two names are written into a fourth segment, and it is written like the two. -/
theorem collapse_expression_forked : ∃ b' : Bench,
    Bench.collapse 0 .bare { store := forked, slots := #[some 0] } = .ok 3 b' ∧
      Gained { store := forked, slots := #[some 0] } (.ofText ['a', ' ', 'c'] .bare) 3 b' ∧
      ∀ style, b'.store.expression (some 3) style = .ok (utf8 ['a', ' ', 'c']) := by
  have he : forked.IsExpression (some 0) [.ofText ['a'] .bare, .ofText ['c'] .bare] :=
    ⟨[0, 2], ⟨rfl, rfl, rfl, rfl, rfl⟩, rfl⟩
  have hmade : ∀ g ∈ [Segment.ofText ['a'] .bare, .ofText ['c'] .bare], g.IsMade := by
    unfold Segment.IsMade
    decide
  obtain ⟨text, h, b', g, htext, hrun, hg, -, -, hgained, hstyles⟩ :=
    collapse_expression (b := { store := forked, slots := #[some 0] }) (i := 0)
      reachable_forked rfl he hmade (nofun : Kind.bare ≠ .eos)
  cases hrun
  cases hg
  cases htext
  exact ⟨_, rfl, hgained, hstyles nofun nofun⟩

/-- A name with a sibling. -/
def siblings : Store where
  cells := #[⟨some (.ofText ['a'] .bare), none, some 1⟩, ⟨some (.ofText ['b'] .bare), none, none⟩]

/-- A name that has a sibling is handed over with it: both are discarded as one, and written in one
call. -/
theorem collapse_keeps_sibling : ∃ b b' : Bench, b.store.Reachable ∧
    b.slots[0]? = some (some 0) ∧ b.store.IsExpression (some 0) [.ofText ['a'] .bare] ∧
    Bench.collapse 0 .bare b = .ok 0 b' ∧ b'.store.link? .sibling 0 = some 1 ∧
    b'.store.concatCall (some 0) {} = .ok (utf8 "concat(a, b)".toList) ∧
    ∃ s, discard (some 0) b'.store = .ok () s ∧ Removed b'.store [1, 0] s := by
  have hreach : siblings.Reachable :=
    .tail (.tail (.single ⟨.insert (.ofText ['a'] .bare), 0, rfl⟩)
      ⟨.insert (.ofText ['b'] .bare), 1, rfl⟩) ⟨.connect .sibling 0 (some 1), rfl⟩
  have htree : siblings.Holds (some 0) (.node 0 (.node 1 .empty .empty) .empty) :=
    ⟨rfl, rfl, ⟨rfl, rfl, rfl, rfl⟩, rfl⟩
  exact ⟨{ store := siblings, slots := #[some 0] }, { store := siblings, slots := #[none] }, hreach,
    rfl, ⟨[0], ⟨rfl, rfl, rfl⟩, rfl⟩, rfl, rfl, rfl, discard_of_tree htree (by decide)⟩

end Bench

end XPathAssembly
