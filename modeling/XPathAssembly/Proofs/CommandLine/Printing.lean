import XPathAssembly.Proofs.Assembly.Loading
import XPathAssembly.Proofs.Bench.Collapsing
import XPathAssembly.Proofs.CommandLine.Production
import XPathAssembly.Proofs.Layout.Encoding

/-!
# Printed text

What is rendered of well-formed segments is well-formed, in whatever form, and is read back as it is
when it is printed.

    s.IsConcatenation head es → (∀ g ∈ es.flatten, IsUtf8 g.text) →
      ∃ bs, s.template head style = .ok bs ∧ IsUtf8 bs                        (rendered_isUtf8)

So the command prints the text that was rendered, and each replacement character in it comes from a
segment that is shown: their numbers are equal.
-/

namespace XPathAssembly

namespace Store

open Layout

variable {s : Store} {head : Option Handle} {gs : List Segment} {kind : Kind}

/-- The segment of a collapsed expression has its text. -/
theorem encodes_collapse (hs : s.Sound) (he : s.IsExpression head gs)
    (hg : ∀ g ∈ gs, IsUtf8 g.text) (hk : kind ≠ .eos) :
    ∃ c s' g, collapse head kind s = .ok c s' ∧ s'.get? c.handle = some g ∧
      Encodes g.text (replacements gs) := by
  cases hp : isPlain gs with
  | true =>
    obtain ⟨g, rfl, -⟩ := isPlain_iff.mp hp
    cases head with
    | none => cases isExpression_none_iff.mp he
    | some h =>
      refine ⟨_, s, g, collapse_of_isPlain he hp hk, (isExpression_singleton_iff.mp he).1, ?_⟩
      exact Segment.encodes_text (hg g List.mem_cons_self)
  | false =>
    obtain ⟨h, s', hinsert, hnew, -⟩ := insert_spec hs (collapsed kind gs)
    exact ⟨_, s', _, collapse_of_not_isPlain he hp hk hinsert, hnew.found, encodes_laid hg _⟩

end Store

namespace Program

open Store Layout

/-- The bytes that a mode renders of the chain at `head`.  A listing is not rendered. -/
def Renders (mode : Mode) (style : Style) (s : Store) (head : Handle) (bs : Bytes) : Prop :=
  match mode with
  | .xpath => s.expression (some head) style = .ok bs
  | .concat => s.concatCall (some head) style = .ok bs
  | .avt => s.template (some head) style = .ok bs
  | .fuse => ∃ c s' g,
      collapse (some head) .bare s = .ok c s' ∧ s'.get? c.handle = some g ∧ g.text = bs
  | .dump => False

/-- The segments that a mode shows: those of the first expression, or of all. -/
def shown (mode : Mode) (es : List (List Segment)) : List Segment :=
  match mode with
  | .xpath | .fuse => es.headD []
  | .concat | .avt | .dump => es.flatten

variable {s : Store} {head : Handle} {es : List (List Segment)} {mode : Mode} {style : Style}
  {bs : Bytes}

/-- What is rendered is printed, each malformed stretch replaced. -/
theorem present_of_renders (hr : Renders mode style s head bs) :
    ∃ left mid, present mode style head s = .ok (Utf8.decodeLossy bs, left) mid := by
  cases mode with
  | xpath | concat | avt => exact ⟨_, s, present_of_look Utf8.decodeLossy hr⟩
  | fuse =>
    obtain ⟨c, mid, g, hrun, hg, rfl⟩ := hr
    exact ⟨_, mid, present_of_collapse hrun hg⟩
  | dump => exact hr.elim

/-- In each mode well-formed segments are rendered with their replacement characters. -/
theorem exists_renders (hs : s.Sound) (hc : s.IsConcatenation (some head) es)
    (hg : ∀ g ∈ shown mode es, IsUtf8 g.text) (hm : mode ≠ .dump) (style : Style) :
    ∃ bs, Renders mode style s head bs ∧ Encodes bs (replacements (shown mode es)) := by
  cases mode with
  | xpath => exact encodes_expression hc.isExpression_headD hg style
  | concat => exact encodes_concatCall hc hg style
  | avt => exact encodes_template hc hg style
  | fuse =>
    obtain ⟨c, s', g, hrun, hget, htext⟩ :=
      encodes_collapse hs hc.isExpression_headD hg (nofun : Kind.bare ≠ .eos)
    exact ⟨_, ⟨c, s', g, hrun, hget, rfl⟩, htext⟩
  | dump => exact absurd rfl hm

/-- The text of a loaded chain is the response. -/
theorem respond_of_load {r : Request} {content : Bytes} (hc : s.Covers [some head])
    (hload : Assembly.load content {} = .ok (.ok head) s) (hes : s.IsConcatenation (some head) es)
    (hr : Renders r.mode r.style s head bs) :
    respond r content = .ok { code := 0, out := Utf8.decodeLossy bs ++ ['\n'] } := by
  obtain ⟨t, left, mid, hs, s', hpresent, -, hproduce, -⟩ := produce_ok hes hc r.mode r.style
  obtain ⟨left', mid', hpresent'⟩ := present_of_renders hr
  rw [hpresent'] at hpresent
  cases hpresent
  unfold respond
  simp only [hload, hproduce]

/-- **What is rendered of well-formed segments is well-formed**: their expression, call and
template, and the segment that they are collapsed into.  Of a file the text is printed with as many
replacement characters as the segments have. -/
theorem rendered_isUtf8 :
    (∀ (s : Store) head gs, s.IsExpression head gs → (∀ g ∈ gs, IsUtf8 g.text) →
      (∀ style, ∃ bs, s.expression head style = .ok bs ∧ IsUtf8 bs) ∧
      (s.Reachable → ∀ kind, kind ≠ .eos → ∃ c s' g,
        collapse head kind s = .ok c s' ∧ s'.get? c.handle = some g ∧ IsUtf8 g.text)) ∧
    (∀ (s : Store) head es, s.IsConcatenation head es → (∀ g ∈ es.flatten, IsUtf8 g.text) →
      ∀ style, (∃ bs, s.concatCall head style = .ok bs ∧ IsUtf8 bs) ∧
        ∃ bs, s.template head style = .ok bs ∧ IsUtf8 bs) ∧
    ∀ content head s, Assembly.load content {} = .ok (.ok head) s →
      (∃ es, s.IsConcatenation (some head) es) ∧
      ∀ es, s.IsConcatenation (some head) es → ∀ r : Request, r.mode ≠ .dump →
        (∀ g ∈ shown r.mode es, IsUtf8 g.text) → ∃ bs t, Renders r.mode r.style s head bs ∧
          bs = utf8 t ∧ t.count Utf8.replacement = replacements (shown r.mode es) ∧
          respond r content = .ok { code := 0, out := t ++ ['\n'] } := by
  refine ⟨fun s head gs he hg => ⟨fun style => ?_, fun hr kind hk => ?_⟩,
    fun s head es hc hg style => ⟨?_, ?_⟩, fun content head s hload => ?_⟩
  · obtain ⟨bs, hbs, htext⟩ := encodes_expression he hg style
    exact ⟨bs, hbs, htext.isUtf8⟩
  · obtain ⟨c, s', g, hrun, hget, htext⟩ := encodes_collapse hr.sound he hg hk
    exact ⟨c, s', g, hrun, hget, htext.isUtf8⟩
  · obtain ⟨bs, hbs, htext⟩ := encodes_concatCall hc hg style
    exact ⟨bs, hbs, htext.isUtf8⟩
  · obtain ⟨bs, hbs, htext⟩ := encodes_template hc hg style
    exact ⟨bs, hbs, htext.isUtf8⟩
  · obtain ⟨hcovers, hes⟩ := Assembly.covers_of_load hload
    refine ⟨hes, fun es hes r hm hg => ?_⟩
    obtain ⟨bs, hr, t, rfl, hcount⟩ := exists_renders hcovers.sound hes hg hm r.style
    refine ⟨_, t, hr, rfl, hcount, ?_⟩
    rw [respond_of_load hcovers hload hes hr, Utf8.decodeLossy_utf8]

/-- An accented name, and a literal with a replacement character and a brace. -/
def accented : List (List Assembly.Token) :=
  [[⟨.bare, ['é']⟩], [⟨.quoted, ['\'', Utf8.replacement, '\x7b', '\'']⟩]]

def accentedFile : Text := "[[[\"bare\", \"é\"]], [[\"quoted\", \"'\ufffd\x7b'\"]]]".toList

def accentedBuilt : Store where
  cells := #[⟨some (.ofText ['é'] .bare), none, some 1⟩,
    ⟨some (.ofText [Utf8.replacement, '\x7b'] .quoted), none, none⟩]

theorem load_accentedFile :
    Assembly.load (utf8 accentedFile) {} = .ok (.ok 0) accentedBuilt := by
  have hread : Json.read accentedFile = .ok (.array
      [.array [.array [.string (Point.ofText "bare".toList), .string (Point.ofText ['é'])]],
        .array [.array [.string (Point.ofText "quoted".toList),
          .string (Point.ofText ['\'', Utf8.replacement, '\x7b', '\''])]]]) := by cbv
  have hfile : Assembly.readFile (utf8 accentedFile) = .ok (Assembly.inputOf accented) := by
    unfold Assembly.readFile
    rw [Utf8.decode_utf8]
    simp only [unifyLineEnds_of_not_mem (by decide : '\r' ∉ accentedFile), hread]
    rfl
  rw [Assembly.load_of_ok hfile]
  rfl

/-- The one replacement character that is printed was in the literal. -/
theorem rendered_accented :
    (∃ c s g, collapse (some 0) .bare accentedBuilt = .ok c s ∧ s.get? c.handle = some g ∧
      IsUtf8 g.text) ∧
    (∃ bs, accentedBuilt.concatCall (some 0) {} = .ok bs ∧ IsUtf8 bs) ∧
    ∃ t : Text, t = "\x7bé\x7d\ufffd\x7b\x7b".toList ∧ t.count Utf8.replacement = 1 ∧
      respond ⟨Path.ofText "tokens.json".toList, .avt, {}⟩ (utf8 accentedFile) =
        .ok { code := 0, out := t ++ ['\n'] } := by
  have hreach : accentedBuilt.Reachable :=
    .tail (.tail (.single ⟨.insert (.ofText ['é'] .bare), 0, rfl⟩)
      ⟨.insert (.ofText [Utf8.replacement, '\x7b'] .quoted), 1, rfl⟩)
      ⟨.connect .sibling 0 (some 1), rfl⟩
  have hname : accentedBuilt.IsExpression (some 0) [.ofText ['é'] .bare] :=
    ⟨[0], ⟨rfl, rfl, rfl⟩, rfl⟩
  have hchain : accentedBuilt.IsConcatenation (some 0)
      [[.ofText ['é'] .bare], [.ofText [Utf8.replacement, '\x7b'] .quoted]] :=
    ⟨[0, 1], ⟨rfl, rfl, rfl, rfl, rfl⟩, .cons hname (.cons ⟨[1], ⟨rfl, rfl, rfl⟩, rfl⟩ .nil)⟩
  have htexts : ∀ g ∈ [Segment.ofText ['é'] .bare, .ofText [Utf8.replacement, '\x7b'] .quoted],
      IsUtf8 g.text := by
    intro g hg
    rcases List.mem_pair.mp hg with rfl | rfl <;> exact ⟨_, rfl⟩
  obtain ⟨hexpression, hconcatenation, hload⟩ := rendered_isUtf8
  obtain ⟨-, hcollapse⟩ := hexpression _ _ _ hname fun g hg =>
    htexts g (List.mem_append_left [_] hg)
  refine ⟨hcollapse hreach .bare nofun, (hconcatenation _ _ _ hchain htexts {}).1, ?_⟩
  obtain ⟨bs, t, hbs, rfl, hcount, hrespond⟩ := (hload _ _ _ load_accentedFile).2 _ hchain
    ⟨Path.ofText "tokens.json".toList, .avt, {}⟩ nofun htexts
  refine ⟨t, ?_, hcount, hrespond⟩
  have hsame := congrArg Utf8.decodeLossy (Except.ok.inj hbs)
  rwa [Utf8.decodeLossy_utf8, eq_comm] at hsame

end Program

end XPathAssembly
