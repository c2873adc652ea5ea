import XPathAssembly.Proofs.Layout.Parts
import XPathAssembly.Proofs.Marks

/-!
# Templates read back

A template is read from left to right.  Outside an expression a doubled brace is one brace and a
single opening brace begins an expression; inside, a mark begins a literal that ends at the next
same mark, and the first closing brace outside literals ends the expression.

    s.template (some h) style = .ok bs → Template.read bs = some (es.flatMap (items …))

The reader stays in step because outside literals the text of an expression has no brace.  That
state of affairs, `scan none text = some none`, is kept by everything that laying out does to the
text: another segment, a space more, a space less (`laid_induction`).
-/

namespace XPathAssembly

/-! ## Reading -/

namespace Template

/-- What a template consists of: bytes that stand for themselves, and expressions. -/
inductive Item where
  | byte (b : UInt8)
  | expression (bs : Bytes)
deriving DecidableEq, Repr

def isBrace (b : UInt8) : Bool := b = openBrace || b = closeBrace

def isMark (b : UInt8) : Bool := b = singleMark || b = doubleMark

/-- Splits what follows the brace that begins an expression at the brace that ends it; `literal` is
the mark of the literal that the text begins in, if it begins in one. -/
def splitExpression (literal : Option UInt8) : Bytes → Option (Bytes × Bytes)
  | [] => none
  | b :: rest =>
    match literal with
    | some q => (splitExpression (if b = q then none else some q) rest).map fun p => (b :: p.1, p.2)
    | none =>
      if b = closeBrace then some ([], rest)
      else (splitExpression (if isMark b then some b else none) rest).map fun p => (b :: p.1, p.2)

theorem length_lt_of_splitExpression {literal : Option UInt8} {bs body rest : Bytes}
    (h : splitExpression literal bs = some (body, rest)) : rest.length < bs.length := by
  induction bs generalizing literal body with
  | nil => cases h
  | cons b bs ih =>
    have hstep : ∀ {l : Option UInt8},
        (splitExpression l bs).map (fun p => (b :: p.1, p.2)) = some (body, rest) →
          rest.length < (b :: bs).length := by
      intro l hl
      obtain ⟨p, hp, he⟩ := Option.map_eq_some_iff.mp hl
      have hlt := ih (show splitExpression l bs = some (p.1, rest) by rw [hp, ← (Prod.mk.inj he).2])
      exact Nat.lt_succ_of_lt hlt
    cases literal with
    | some q => exact hstep h
    | none =>
      simp only [splitExpression] at h
      split at h
      · cases h
        exact Nat.lt_succ_self _
      · exact hstep h

/-- The items of a template; an expression without an end is refused. -/
def read : Bytes → Option (List Item)
  | [] => some []
  | b :: rest =>
    if isBrace b ∧ rest.head? = some b then (read rest.tail).map (.byte b :: ·)
    else if b = openBrace then
      match _h : splitExpression none rest with
      | none => none
      | some (body, rest') => (read rest').map (.expression body :: ·)
    else (read rest).map (.byte b :: ·)
termination_by bs => bs.length
decreasing_by
  · simp only [List.length_tail, List.length_cons]
    omega
  · have := length_lt_of_splitExpression _h
    simp only [List.length_cons]
    omega
  · simp only [List.length_cons]
    omega

end Template

/-! ## Text without braces outside literals -/

namespace Template

/-- Goes over a text that begins in the literal `literal`, or outside one; answers what it ends in,
unless there is a brace outside literals. -/
def scan (literal : Option UInt8) : Bytes → Option (Option UInt8)
  | [] => some literal
  | b :: rest =>
    match literal with
    | some q => scan (if b = q then none else some q) rest
    | none => if isBrace b then none else scan (if isMark b then some b else none) rest

theorem scan_append (literal : Option UInt8) (as bs : Bytes) :
    scan literal (as ++ bs) = (scan literal as).bind fun l => scan l bs := by
  induction as generalizing literal with
  | nil => rfl
  | cons a as ih =>
    rw [List.cons_append]
    cases literal with
    | some q => simp only [scan, ih]
    | none =>
      simp only [scan, ih]
      split <;> rfl

theorem isBrace_of_isMark {b : UInt8} (hb : isMark b) : isBrace b = false := by
  simp only [isMark, Bool.or_eq_true, decide_eq_true_eq] at hb
  rcases hb with rfl | rfl <;> decide

/-- A literal is left by its own mark only. -/
theorem isMark_of_scan {literal : Option UInt8} {bs : Bytes} {q : UInt8}
    (hl : ∀ p, literal = some p → isMark p) (hs : scan literal bs = some (some q)) : isMark q := by
  induction bs generalizing literal with
  | nil => exact hl q (Option.some.inj hs)
  | cons b bs ih =>
    cases literal with
    | some p =>
      refine ih (fun p' hp' => ?_) hs
      split at hp'
      · cases hp'
      · exact hl p' hp'
    | none =>
      simp only [scan] at hs
      split at hs
      · cases hs
      · refine ih (fun p' hp' => ?_) hs
        split at hp'
        · next hb => rwa [← Option.some.inj hp']
        · cases hp'

theorem scan_append_space {acc : Bytes} (hs : scan none acc = some none) :
    scan none (acc ++ [space]) = some none := by
  rw [scan_append, hs]
  decide

theorem scan_of_append_space {acc : Bytes} (hs : scan none (acc ++ [space]) = some none) :
    scan none acc = some none := by
  rw [scan_append] at hs
  cases hl : scan none acc with
  | none => rw [hl] at hs; cases hs
  | some l =>
    cases l with
    | none => rfl
    | some q =>
      -- a space ends no literal
      have hq := isMark_of_scan (fun _ hp => by cases hp) hl
      rw [hl] at hs
      simp only [Option.bind_some, scan] at hs
      split at hs
      · next he => rw [← he] at hq; exact absurd hq (by decide)
      · cases hs

theorem scan_plain {bs : Bytes} (hp : ∀ b ∈ bs, isMark b = false ∧ isBrace b = false) :
    scan none bs = some none := by
  induction bs with
  | nil => rfl
  | cons b bs ih =>
    obtain ⟨hm, hb⟩ := hp b List.mem_cons_self
    simp only [scan, hm, hb, Bool.false_eq_true, if_false]
    exact ih fun c hc => hp c (List.mem_cons_of_mem _ hc)

theorem scan_in_literal {q : UInt8} {bs : Bytes} (hq : q ∉ bs) :
    scan (some q) bs = some (some q) := by
  induction bs with
  | nil => rfl
  | cons b bs ih =>
    rw [List.mem_cons, not_or] at hq
    simp only [scan, if_neg (Ne.symm hq.1)]
    exact ih hq.2

theorem scan_quoted {q : UInt8} {bs : Bytes} (hm : isMark q) (hq : q ∉ bs) :
    scan none (q :: (bs ++ [q])) = some none := by
  simp only [scan, isBrace_of_isMark hm, hm, Bool.false_eq_true, if_false, if_true]
  rw [scan_append, scan_in_literal hq]
  simp [scan]

end Template

/-! ## Expressions that can be read -/

namespace Segment

/-- A segment as it is made of its text: the marks are those of the text. -/
def IsMade (g : Segment) : Prop := g = ofBytes g.text g.kind

/-- A quoted text has marks of one sort at most, and any other text has neither marks nor braces. -/
def IsReadable (g : Segment) : Prop :=
  if g.kind = .quoted then ¬ (singleMark ∈ g.text ∧ doubleMark ∈ g.text)
  else ∀ b ∈ g.text, Template.isMark b = false ∧ Template.isBrace b = false

/-- A literal is written between two marks of one sort, and its double marks are escaped or not. -/
theorem quotedWrites_eq (g : Segment) : ∃ q body, Template.isMark q ∧
    (body = g.text ∨ body = escapeMarks g.text) ∧ g.quotedWrites = [[q], body, [q]] := by
  unfold quotedWrites
  split
  · exact ⟨doubleMark, _, by decide, .inr rfl, rfl⟩
  · split
    · exact ⟨singleMark, _, by decide, .inl rfl, rfl⟩
    · exact ⟨doubleMark, _, by decide, .inl rfl, rfl⟩

/-- A literal without marks of one sort is written between marks of that sort. -/
theorem spelled_of_quoted {g : Segment} (hm : g.IsMade) (hk : g.kind = .quoted)
    (hr : ¬ (singleMark ∈ g.text ∧ doubleMark ∈ g.text)) {style : Style}
    (hq : style.quotes = true) :
    ∃ q, Template.isMark q ∧ q ∉ g.text ∧ g.spelled style = q :: (g.text ++ [q]) := by
  have hmarks : g.marks = Marks.ofBytes g.text := congrArg Segment.marks hm
  have hboth : g.marks.both = false := by
    rw [Bool.eq_false_iff, hmarks]
    exact fun hb => hr (Marks.both_ofBytes_iff.mp hb)
  have hspelled := spelled_eq style g
  rw [if_pos ⟨hk, hq⟩, hboth, if_neg Bool.false_ne_true] at hspelled
  cases hd : g.marks.double with
  | true =>
    refine ⟨singleMark, by decide, fun hs => ?_, by simpa [hd] using hspelled⟩
    rw [hmarks] at hd
    exact hr ⟨hs, Marks.double_ofBytes_iff.mp hd⟩
  | false =>
    refine ⟨doubleMark, by decide, fun hs => ?_, by simpa [hd] using hspelled⟩
    rw [hmarks, Marks.double_ofBytes_iff.mpr hs] at hd
    cases hd

theorem scan_spelled {g : Segment} (hm : g.IsMade) (hr : g.IsReadable) {style : Style}
    (hq : style.quotes = true) : Template.scan none (g.spelled style) = some none := by
  unfold IsReadable at hr
  by_cases hk : g.kind = .quoted
  · rw [if_pos hk] at hr
    obtain ⟨q, hmark, hnot, hspelled⟩ := spelled_of_quoted hm hk hr hq
    rw [hspelled]
    exact Template.scan_quoted hmark hnot
  · rw [if_neg hk] at hr
    rw [spelled_of_ne_quoted hk]
    exact Template.scan_plain hr

end Segment

namespace Layout

variable {style : Style} {gs : List Segment}

theorem scan_laid (hm : ∀ g ∈ gs, g.IsMade) (hr : ∀ g ∈ gs, g.IsReadable)
    (hq : style.quotes = true) : Template.scan none (laid style gs) = some none := by
  refine laid_induction (fun _ acc => Template.scan none acc = some none) rfl ?_ ?_ ?_
  · intro _ acc g hg hacc
    rw [Template.scan_append, hacc]
    exact Segment.scan_spelled (hm g hg) (hr g hg) hq
  · exact fun _ _ hacc => Template.scan_append_space hacc
  · exact fun _ _ hacc => Template.scan_of_append_space hacc

end Layout

/-! ## The reader in step -/

namespace Template

theorem splitExpression_of_scan {literal : Option UInt8} {body : Bytes}
    (hs : scan literal body = some none) (rest : Bytes) :
    splitExpression literal (body ++ closeBrace :: rest) = some (body, rest) := by
  induction body generalizing literal with
  | nil =>
    obtain rfl : literal = none := Option.some.inj hs
    simp [splitExpression]
  | cons b body ih =>
    cases literal with
    | some q =>
      simp only [scan] at hs
      simp only [List.cons_append, splitExpression, ih hs, Option.map_some]
    | none =>
      simp only [scan] at hs
      split at hs
      · cases hs
      · next hb =>
        have hne : b ≠ closeBrace := fun he => hb (by simp [isBrace, he])
        simp only [List.cons_append, splitExpression, if_neg hne, ih hs, Option.map_some]

/-- An expression between braces is read as one item. -/
theorem read_expression {body : Bytes} (hs : scan none body = some none) (rest : Bytes) :
    read (openBrace :: (body ++ closeBrace :: rest)) =
      (read rest).map (.expression body :: ·) := by
  have hhead : (body ++ closeBrace :: rest).head? ≠ some openBrace := by
    cases body with
    | nil => simp; decide
    | cons b body =>
      simp only [scan] at hs
      split at hs
      · cases hs
      · next hb =>
        intro he
        exact hb (by simp [isBrace, Option.some.inj he])
  rw [read, if_neg (fun hc => hhead hc.2), if_pos rfl]
  split
  · next hsplit => rw [splitExpression_of_scan hs] at hsplit; cases hsplit
  · next hsplit => rw [splitExpression_of_scan hs] at hsplit; cases hsplit; rfl

/-- Doubled braces are read as the text they were doubled in. -/
theorem read_doubleBraces (bs rest : Bytes) :
    read (doubleBraces bs ++ rest) = (read rest).map (bs.map .byte ++ ·) := by
  induction bs with
  | nil => simp [doubleBraces]
  | cons b bs ih =>
    have hcons : doubleBraces (b :: bs) =
        (if isBrace b then [b, b] else [b]) ++ doubleBraces bs := by
      simp [doubleBraces, isBrace]
    have hmap : (read rest).map ((b :: bs).map Item.byte ++ ·) =
        ((read rest).map (bs.map Item.byte ++ ·)).map (.byte b :: ·) := by
      rw [Option.map_map]
      rfl
    rw [hcons, hmap, ← ih]
    cases hb : isBrace b with
    | true =>
      rw [if_pos rfl]
      show read (b :: b :: (doubleBraces bs ++ rest)) = _
      rw [read, if_pos ⟨hb, rfl⟩]
      rfl
    | false =>
      have hne : b ≠ openBrace := by
        rintro rfl
        exact absurd hb (by decide)
      show read (b :: (doubleBraces bs ++ rest)) = _
      rw [read, if_neg (by simp [hb]), if_neg hne]

end Template

namespace Layout

variable {style : Style} {gs : List Segment}

theorem isLiteral_iff : isLiteral gs ↔ ∃ g, gs = [g] ∧ g.kind = .quoted := by
  unfold isLiteral
  split
  · simp
  · next hne =>
    refine ⟨fun h => absurd h Bool.false_ne_true, ?_⟩
    rintro ⟨g, rfl, -⟩
    exact absurd rfl (hne g)

theorem laid_singleton (g : Segment) : laid style [g] = g.spelled style := by
  simp only [laid, laidFrom, add, closesBefore, List.length_nil]
  cases g.kind.isGlued <;> simp

/-- What stands in braces does not depend on the style. -/
theorem laid_quotes (style : Style) (gs : List Segment) :
    laid { style with quotes := true } gs = laid { quotes := true } gs :=
  laid_congr fun g _ => by
    by_cases hk : g.kind = .quoted <;> simp [Segment.spelled, Segment.writes, hk]

/-- Without quotes, a part that is a literal is its text with the braces doubled. -/
theorem part_of_isLiteral {g : Segment} (hk : g.kind = .quoted) (hq : style.quotes = false)
    (hb : style.braces = true) : part style [g] = doubleBraces g.text := by
  have hlit : isLiteral [g] := isLiteral_iff.mpr ⟨g, rfl, hk⟩
  unfold part
  rw [if_pos hlit, laid_singleton]
  simp [Segment.spelled, Segment.writes, hk, hq, hb]

end Layout

/-! ## Reading back -/

namespace Store

open Layout Template

variable {s : Store} {h : Handle} {heads : List Handle} {style : Style}

/-- What the expression at `h` is in a template: its bytes if it is one literal, and otherwise an
expression with its text, literals between marks. -/
def templateItems (s : Store) (h : Handle) : Except Fault (List Item) := do
  if ← s.isLiteral h then return (← s.segmentOf h).text.map .byte
  else return [.expression (← s.expression (some h) { quotes := true })]

/-- The expression at `h` is finite and live, of segments as they are made, and if it is not one
literal its segments can be read. -/
def IsReadable (s : Store) (h : Handle) : Prop :=
  ∃ gs, s.IsExpression (some h) gs ∧ (∀ g ∈ gs, g.IsMade) ∧
    (Layout.isLiteral gs = false → ∀ g ∈ gs, g.IsReadable)

/-- A part of a template is read as its items. -/
theorem read_part (style : Style) (hr : s.IsReadable h) (hq : style.quotes = false)
    (hb : style.braces = true) :
    ∃ gs items, s.IsExpression (some h) gs ∧ s.templateItems h = .ok items ∧
      ∀ rest, read (part style gs ++ rest) = (read rest).map (items ++ ·) := by
  obtain ⟨gs, hgs, hmade, hread⟩ := hr
  cases hlit : Layout.isLiteral gs with
  | true =>
    obtain ⟨g, rfl, hk⟩ := isLiteral_iff.mp hlit
    refine ⟨[g], g.text.map .byte, hgs, ?_, fun rest => ?_⟩
    · have hseg : s.segmentOf h = .ok g := by
        obtain ⟨hs, hl, hg⟩ := hgs
        cases hs with
        | nil => cases hl
        | cons k rest =>
          obtain rfl : h = k := Option.some.inj hl.1
          unfold segmentOf
          rw [(List.cons.inj hg).1]
      unfold templateItems
      rw [isLiteral_eq hgs, hlit, hseg]
      rfl
    · rw [part_of_isLiteral hk hq hb]
      exact read_doubleBraces g.text rest
  | false =>
    have hscan := scan_laid hmade (hread hlit) (rfl : ({ quotes := true } : Style).quotes = true)
    refine ⟨gs, [.expression (laid { quotes := true } gs)], hgs, ?_, fun rest => ?_⟩
    · unfold templateItems
      rw [isLiteral_eq hgs, hlit, expression_eq hgs]
      rfl
    · unfold part
      rw [hlit, laid_quotes]
      show read (openBrace :: (laid { quotes := true } gs ++ [closeBrace] ++ rest)) = _
      rw [List.append_assoc]
      exact read_expression hscan rest

/-- Parts one after the other are read as the items of all of them. -/
theorem read_parts (style : Style) (hr : ∀ k ∈ heads, s.IsReadable k) (hq : style.quotes = false)
    (hb : style.braces = true) :
    ∃ es items, List.Forall₂ (fun k gs => s.IsExpression (some k) gs) heads es ∧
      heads.mapM s.templateItems = .ok items ∧
      read (es.flatMap (part style)) = some items.flatten := by
  induction heads with
  | nil => exact ⟨[], [], .nil, rfl, by simp [Template.read]⟩
  | cons k rest ih =>
    obtain ⟨es, items, hes, hitems, hread⟩ := ih fun k' hk' => hr k' (List.mem_cons_of_mem _ hk')
    obtain ⟨gs, first, hgs, hfirst, hpart⟩ := read_part style (hr k List.mem_cons_self) hq hb
    refine ⟨gs :: es, first :: items, .cons hgs hes, ?_, ?_⟩
    · rw [List.mapM_cons, hfirst, hitems]
      rfl
    · rw [List.flatMap_cons, hpart, hread, List.flatten_cons]
      rfl

/-- **Templates read back.**  A template whose expressions can be read is read as the items of its
expressions, in order. -/
theorem read_template (hl : s.Line .sibling (some h) heads) (hr : ∀ k ∈ heads, s.IsReadable k)
    (hq : style.quotes = false) :
    ∃ bs items, s.template (some h) style = .ok bs ∧ heads.mapM s.templateItems = .ok items ∧
      read bs = some items.flatten := by
  obtain ⟨es, items, hes, hitems, hread⟩ := read_parts { style with braces := true } hr hq rfl
  exact ⟨_, items, template_eq ⟨heads, hl, hes⟩, hitems, hread⟩

/-- A literal with braces, and a name beside it. -/
def literalBesideName : Store where
  cells := #[⟨some (.ofText ['\x7b', 'x', '\x7d'] .quoted), none, some 1⟩,
    ⟨some (.ofText ['a'] .bare), none, none⟩]

theorem isReadable_literalBesideName :
    ∀ k ∈ ([0, 1] : List Handle), literalBesideName.IsReadable k := by
  intro k hk
  have hmade : ∀ t kind, (Segment.ofText t kind).IsMade := fun _ _ => rfl
  rcases List.mem_cons.mp hk with rfl | hk
  · refine ⟨[.ofText ['\x7b', 'x', '\x7d'] .quoted], ⟨[0], ⟨rfl, rfl, rfl⟩, rfl⟩, ?_, nofun⟩
    intro g hg
    rw [List.mem_singleton.mp hg]
    exact hmade _ _
  · obtain rfl := List.mem_singleton.mp hk
    refine ⟨[.ofText ['a'] .bare], ⟨[1], ⟨rfl, rfl, rfl⟩, rfl⟩, ?_, fun _ => ?_⟩
    · intro g hg
      rw [List.mem_singleton.mp hg]
      exact hmade _ _
    · intro g hg
      rw [List.mem_singleton.mp hg]
      show ∀ b ∈ [byteOf 'a'], isMark b = false ∧ isBrace b = false
      intro b hb
      rw [List.mem_singleton.mp hb]
      exact ⟨rfl, rfl⟩

theorem read_literalBesideName :
    literalBesideName.template (some 0) {} = .ok (utf8 "\x7b\x7bx\x7d\x7d\x7ba\x7d".toList) ∧
      read (utf8 "\x7b\x7bx\x7d\x7d\x7ba\x7d".toList) =
        some [.byte openBrace, .byte (byteOf 'x'), .byte closeBrace, .expression [byteOf 'a']] := by
  have hline : literalBesideName.Line .sibling (some 0) [0, 1] := ⟨rfl, rfl, rfl, rfl, rfl⟩
  obtain ⟨bs, items, ht, hi, hr⟩ :=
    read_template hline isReadable_literalBesideName (rfl : ({} : Style).quotes = false)
  cases ht
  cases hi
  exact ⟨rfl, hr⟩

end Store

end XPathAssembly
