import XPathAssembly.Proofs.Layout.Parts

/-!
# Concatenations from their expressions

All expressions of a concatenation are written into one buffer, but each of them as if it were
alone in it.  So a call is put together from the texts that its arguments have as expressions, and a
template from its parts, each of them a literal as it is or an expression between braces.

    heads of several expressions →
      s.concatCall head style = .ok ("concat(" ++ ", ".intercalate texts ++ ")")   (concatCall_join)
    heads of one or more expressions →
      s.template head style = .ok parts.flatten                                     (template_join)
-/

namespace XPathAssembly

namespace Store

open Layout

variable {s : Store} {head : Option Handle} {heads : List Handle} {es : List (List Segment)}
  {style : Style}

/-- The text of each expression is laid out for its segments alone. -/
theorem forall₂_expression
    (he : List.Forall₂ (fun h gs => s.IsExpression (some h) gs) heads es) :
    List.Forall₂ (fun h text => s.expression (some h) style = .ok text) heads
      (es.map (laid style)) :=
  List.forall₂_map_right_iff.mpr (he.imp fun _ _ hgs => expression_eq hgs)

/-- **A call is the join of its arguments.**  Several expressions are written as one call, each with
the text that it has alone when literals are quoted; a single expression, or none, is written as it
is. -/
theorem concatCall_join (hl : s.Line .sibling head heads)
    (he : ∀ h ∈ heads, ∃ hs, s.Line .next (some h) hs) (style : Style) :
    (2 ≤ heads.length → ∃ texts,
      List.Forall₂ (fun h text => s.expression (some h) { style with quotes := true } = .ok text)
        heads texts ∧
      s.concatCall head style = .ok (utf8 "concat(".toList ++
        (utf8 ", ".toList).intercalate texts ++ utf8 ")".toList)) ∧
    (heads.length ≤ 1 → ∃ text, s.expression head style = .ok text ∧
      s.concatCall head style = .ok text) := by
  obtain ⟨es, hc⟩ := exists_isConcatenation hl he
  have hsibling := hl.bind_link?_eq_none_iff
  constructor
  · intro hlen
    obtain ⟨k, hk⟩ : ∃ k, head.bind (s.link? .sibling) = some k := by
      refine Option.ne_none_iff_exists'.mp fun hnone => ?_
      have := hsibling.mp hnone
      omega
    obtain ⟨heads', hl', hes⟩ := hc
    obtain rfl := hl.unique hl'
    refine ⟨es.map (laid { style with quotes := true }), forall₂_expression hes, ?_⟩
    rw [concatCall_of_sibling ⟨heads, hl, hes⟩ hk, List.append_assoc]
    rfl
  · intro hlen
    obtain ⟨gs, hgs⟩ := hc.isExpression
    refine ⟨laid style gs, expression_eq hgs, ?_⟩
    rw [concatCall_of_no_sibling hgs.isChain (hsibling.mpr hlen), expression_eq hgs]

/-- A call, an axis name and an expression without a text. -/
def threeArguments : Store where
  cells := #[⟨some (.ofText ['f'] .functionName), some 1, some 3⟩,
    ⟨some (.ofText ['('] .openParen), some 2, none⟩, ⟨some (.ofText [')'] .closeParen), none, none⟩,
    ⟨some (.ofText ['a'] .axisName), none, some 4⟩, ⟨some (.ofText [] .bare), none, none⟩]

theorem concatCall_threeArguments : ∃ texts,
    List.Forall₂ (fun h text => threeArguments.expression (some h) { quotes := true } = .ok text)
      [0, 3, 4] texts ∧
    utf8 "concat(f(), a, )".toList = utf8 "concat(".toList ++
      (utf8 ", ".toList).intercalate texts ++ utf8 ")".toList := by
  have hl : threeArguments.Line .sibling (some 0) [0, 3, 4] := ⟨rfl, rfl, rfl, rfl, rfl, rfl, rfl⟩
  have he : ∀ h ∈ [0, 3, 4], ∃ hs, threeArguments.Line .next (some h) hs := by
    intro h hh
    rcases List.mem_cons.mp hh with rfl | hh
    · exact ⟨[0, 1, 2], rfl, rfl, rfl, rfl, rfl, rfl, rfl⟩
    · rcases List.mem_pair.mp hh with rfl | rfl
      · exact ⟨[3], rfl, rfl, rfl⟩
      · exact ⟨[4], rfl, rfl, rfl⟩
  have hrun : threeArguments.concatCall (some 0) {} = .ok (utf8 "concat(f(), a, )".toList) := by
    decide +kernel
  obtain ⟨texts, htexts, htext⟩ := (concatCall_join hl he {}).1 (by decide)
  exact ⟨texts, htexts, Except.ok.inj (hrun.symm.trans htext)⟩

/-! ## Templates -/

/-- The expression at `h` is one quoted literal, whatever its siblings. -/
def IsLoneLiteral (s : Store) (h : Handle) : Prop :=
  s.link? .next h = none ∧ ∃ g, s.get? h = some g ∧ g.kind = .quoted

/-- What stands in a template for the expression at `h`: its own text if it is one literal, and
otherwise its text with the literals in it quoted, between braces. -/
inductive IsPart (s : Store) (style : Style) (h : Handle) : Bytes → Prop
  | literal {text : Bytes} (hlit : s.IsLoneLiteral h)
      (ht : s.expression (some h) { style with braces := true } = .ok text) : IsPart s style h text
  | braced {text : Bytes} (hnot : ¬ s.IsLoneLiteral h)
      (ht : s.expression (some h) { style with quotes := true, braces := true } = .ok text) :
      IsPart s style h (openBrace :: (text ++ [closeBrace]))

variable {h : Handle} {gs : List Segment}

theorem isLiteral_eq_ok_true_iff : s.isLiteral h = .ok true ↔ s.IsLoneLiteral h := by
  unfold isLiteral segmentOf IsLoneLiteral
  cases s.get? h with
  | none => exact ⟨nofun, fun ⟨_, _, hg, _⟩ => nomatch hg⟩
  | some g =>
    show Except.ok ((s.link? .next h).isNone && decide (g.kind = .quoted)) = _ ↔ _
    simp

theorem isPart_part (he : s.IsExpression (some h) gs) :
    s.IsPart style h (part { style with braces := true } gs) := by
  have hlone : s.IsLoneLiteral h ↔ Layout.isLiteral gs = true := by
    rw [← isLiteral_eq_ok_true_iff, isLiteral_eq he, Except.ok.injEq]
  unfold part
  split
  · next hlit => exact .literal (hlone.mpr hlit) (expression_eq he)
  · next hnot => exact .braced (mt hlone.mp hnot) (expression_eq he)

/-- **A template is its parts.**  One or more expressions are written as their parts one after the
other, each with the text that it has alone; and a value that is one literal is written as it would
be part by part. -/
theorem template_join (hl : s.Line .sibling (some h) heads)
    (he : ∀ h ∈ heads, ∃ hs, s.Line .next (some h) hs) (style : Style) :
    (∃ parts, List.Forall₂ (s.IsPart style) heads parts ∧
      s.template (some h) style = .ok parts.flatten) ∧
    s.template (some h) style = s.partByPart h style := by
  obtain ⟨es, hc⟩ := exists_isConcatenation hl he
  refine ⟨⟨es.map (part { style with braces := true }), ?_, ?_⟩, ?_⟩
  · obtain ⟨heads', hl', hes⟩ := hc
    obtain rfl := hl.unique hl'
    exact List.forall₂_map_right_iff.mpr (hes.imp fun _ _ hgs => isPart_part hgs)
  · rw [template_eq hc, List.flatMap_def]
  · rw [template_eq hc, partByPart_eq hc]

/-- A literal with a brace, a name beside a literal with a brace, and a literal with a mark. -/
def threeParts : Store where
  cells := #[⟨some (.ofText ['\x7b'] .quoted), none, some 1⟩,
    ⟨some (.ofText ['a'] .bare), some 2, some 3⟩, ⟨some (.ofText ['\x7d'] .quoted), none, none⟩,
    ⟨some (.ofText ['"'] .quoted), none, none⟩]

theorem template_threeParts :
    (∃ parts, List.Forall₂ (threeParts.IsPart {}) [0, 1, 3] parts ∧
      parts.flatten = utf8 "\x7b\x7b\x7ba \"\x7d\"\x7d\"".toList) ∧
    threeParts.partByPart 0 {} = .ok (utf8 "\x7b\x7b\x7ba \"\x7d\"\x7d\"".toList) := by
  have hl : threeParts.Line .sibling (some 0) [0, 1, 3] := ⟨rfl, rfl, rfl, rfl, rfl, rfl, rfl⟩
  have he : ∀ h ∈ [0, 1, 3], ∃ hs, threeParts.Line .next (some h) hs := by
    intro h hh
    rcases List.mem_cons.mp hh with rfl | hh
    · exact ⟨[0], rfl, rfl, rfl⟩
    · rcases List.mem_pair.mp hh with rfl | rfl
      · exact ⟨[1, 2], rfl, rfl, rfl, rfl, rfl⟩
      · exact ⟨[3], rfl, rfl, rfl⟩
  have hrun : threeParts.template (some 0) {} =
      .ok (utf8 "\x7b\x7b\x7ba \"\x7d\"\x7d\"".toList) := by
    decide +kernel
  obtain ⟨⟨parts, hparts, htext⟩, hsame⟩ := template_join hl he {}
  exact ⟨⟨parts, hparts, Except.ok.inj (htext.symm.trans hrun)⟩, hsame.symm.trans hrun⟩

end Store

end XPathAssembly
