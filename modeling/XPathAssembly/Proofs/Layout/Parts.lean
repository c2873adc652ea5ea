import XPathAssembly.Layout.Concatenation
import XPathAssembly.Proofs.Layout.Laid
import Mathlib.Algebra.Order.BigOperators.Group.List
import Mathlib.Algebra.Order.Ring.Nat

/-!
# The text of a concatenation

A call is the texts of its arguments with separators between them, and a template the texts of its
parts one after the other.  In both cases the sum of what the expressions need is room enough.

    s.IsConcatenation (some h) es →
      s.template (some h) style = .ok (es.flatMap (part …))      (template_eq)
-/

namespace XPathAssembly

/-! ## Writes one after the other -/

namespace Buffer.Fills

variable {α β : Type} {n m : Nat} {a : α} {b : β} {as bs : Bytes}

theorem seq {x : Call Buffer Unit} {y : Call Buffer β} (hx : Fills n x () as)
    (hle : as.length ≤ n) (hy : Fills m y b bs) :
    Fills (n + m) (x >>= fun _ => y) b (as ++ bs) := by
  intro u hroom
  rw [Call.bind_apply, hx u (by omega)]
  show y (u.holding (u.toList ++ as)) = _
  rw [hy _ (by rw [size_holding, capacity_holding, List.length_append, length_toList]; omega)]
  simp

theorem mono {x : Call Buffer α} (hx : Fills n x a as) (hle : n ≤ m) : Fills m x a as :=
  fun u hroom => hx u (by omega)

theorem discard {x : Call Buffer α} (hx : Fills n x a as) : Fills n (Functor.discard x) () as := by
  intro u hroom
  exact Call.discard_of_ok _ _ _ (hx u hroom)

theorem pure (a : α) : Fills 0 (Pure.pure a) a [] := by
  intro u _
  simp [Call.pure_apply]

theorem write (data : Bytes) : Fills data.length (Buffer.write data) () data := by
  intro u hroom
  have hw := write_holding u u.toList data (by rw [length_toList]; exact hroom)
  rwa [holding_toList] at hw

end Buffer.Fills

/-! ## Parts -/

namespace Layout

/-- The text of a call with these arguments. -/
def callText (style : Style) (es : List (List Segment)) : Bytes :=
  Store.callOpening ++ (Store.callSeparator.intercalate (es.map (laid style)) ++ Store.callClosing)

/-- Whether an expression is one quoted literal. -/
def isLiteral : List Segment → Bool
  | [g] => g.kind = .quoted
  | _ => false

/-- The text of a part of a template. -/
def part (style : Style) (gs : List Segment) : Bytes :=
  if isLiteral gs then laid style gs
  else openBrace :: (laid { style with quotes := true } gs ++ [closeBrace])

/-- The bytes that a part of a template may take. -/
def partReserve (style : Style) (gs : List Segment) : Nat :=
  if isLiteral gs then reserve style gs else 2 + reserve { style with quotes := true } gs

theorem length_part_le (style : Style) (gs : List Segment) :
    (part style gs).length ≤ partReserve style gs := by
  unfold part partReserve
  split
  · exact length_laid_le style gs
  · have h := length_laid_le { style with quotes := true } gs
    simp only [List.length_cons, List.length_append, List.length_nil]
    omega

end Layout

namespace Store

open Buffer Layout

variable {s : Store} {h : Handle} {head : Option Handle} {heads : List Handle} {gs : List Segment}
  {es : List (List Segment)} {style : Style}

/-- The concatenation at `head` is finite and live, and `es` are the segments of its expressions. -/
def IsConcatenation (s : Store) (head : Option Handle) (es : List (List Segment)) : Prop :=
  ∃ heads, s.Line .sibling head heads ∧
    List.Forall₂ (fun h gs => s.IsExpression (some h) gs) heads es

/-! ## Calls -/

theorem intercalate_cons (style : Style) (gs gs' : List Segment) (es : List (List Segment)) :
    callSeparator.intercalate ((gs :: gs' :: es).map (laid style)) =
      laid style gs ++
        (callSeparator ++ callSeparator.intercalate ((gs' :: es).map (laid style))) := by
  simp [List.intercalate]

/-- What holds of each argument alone, and is kept by another one in front of others, holds of the
arguments with their separators. -/
theorem arguments_induction {es : List (List Segment)} (P : List (List Segment) → Bytes → Prop)
    (hnil : P [] []) (hone : ∀ gs ∈ es, P [gs] (laid style gs))
    (hcons : ∀ gs ∈ es, ∀ gs' rest acc, P (gs' :: rest) acc →
      P (gs :: gs' :: rest) (laid style gs ++ (callSeparator ++ acc))) :
    P es (callSeparator.intercalate (es.map (laid style))) := by
  induction es with
  | nil => exact hnil
  | cons gs es ih =>
    cases es with
    | nil => simpa [List.intercalate] using hone gs List.mem_cons_self
    | cons gs' es =>
      rw [intercalate_cons]
      exact hcons gs List.mem_cons_self _ _ _ (ih (fun k hk => hone k (List.mem_cons_of_mem _ hk))
        fun k hk => hcons k (List.mem_cons_of_mem _ hk))

theorem reserveSum_eq {need : Handle → Except Fault Nat} {size : List Segment → Nat}
    (he : List.Forall₂ (fun h gs => need h = .ok (size gs)) heads es) :
    reserveSum need heads = .ok (es.map size).sum := by
  induction he with
  | nil => rfl
  | cons hneed _ ih =>
    unfold reserveSum
    rw [hneed, ih]
    rfl

/-- The room for the arguments of a call. -/
def argumentsReserve (style : Style) (es : List (List Segment)) : Nat :=
  (es.map (reserve style)).sum + callSeparator.length * (es.length - 1)

theorem length_arguments_le (style : Style) (es : List (List Segment)) :
    (callSeparator.intercalate (es.map (laid style))).length ≤ argumentsReserve style es := by
  refine arguments_induction (fun es acc => acc.length ≤ argumentsReserve style es)
    (Nat.zero_le _) ?_ ?_
  · intro gs _
    simpa [argumentsReserve] using length_laid_le style gs
  · intro gs _ gs' rest acc hacc
    have hlen := length_laid_le style gs
    unfold argumentsReserve at hacc ⊢
    simp only [List.map_cons, List.sum_cons, List.length_cons, List.length_append,
      Nat.add_sub_cancel] at hacc ⊢
    rw [Nat.mul_add]
    omega

theorem fills_writeArguments
    (he : List.Forall₂ (fun h gs => s.IsExpression (some h) gs) heads es) :
    Fills (argumentsReserve style es) (s.writeArguments style heads) ()
      (callSeparator.intercalate (es.map (laid style))) := by
  unfold argumentsReserve
  induction he with
  | nil => exact (Fills.pure ()).mono (Nat.zero_le _)
  | @cons h gs heads es hgs hes ih =>
    have hfirst := (fills_layOut hgs style).discard
    have hlen := length_laid_le style gs
    cases hes with
    | nil =>
      refine Fills.mono ?_ (Nat.le_add_right _ _)
      simpa [writeArguments, List.intercalate] using hfirst
    | @cons h' gs' heads es hgs' hes =>
      rw [intercalate_cons]
      refine Fills.mono (hfirst.seq hlen ((Fills.write callSeparator).seq (Nat.le_refl _) ih)) ?_
      simp only [List.map_cons, List.sum_cons, List.length_cons, Nat.add_sub_cancel]
      rw [Nat.mul_add]
      omega

theorem concatCall_of_no_sibling (hc : s.isChain head)
    (hn : head.bind (s.link? .sibling) = none) :
    s.concatCall head style = s.expression head style := by
  have hchain : (!s.isChain head) = false := by rw [hc]; rfl
  unfold concatCall
  simp only [hchain, Bool.false_eq_true, if_false, hn]

/-- A concatenation of several expressions is written as a call. -/
theorem concatCall_of_sibling (hc : s.IsConcatenation head es) {k : Handle}
    (hk : head.bind (s.link? .sibling) = some k) :
    s.concatCall head style = .ok (callText { style with quotes := true } es) := by
  obtain ⟨heads, hl, he⟩ := hc
  have hchain : (!s.isChain head) = false := by rw [hl.isChain]; rfl
  have hneed : reserveSum (fun h => s.measure (some h) { style with quotes := true }) heads =
      .ok (es.map fun gs => reserve { style with quotes := true } gs + 1).sum :=
    reserveSum_eq (he.imp fun _ _ hgs => measure_eq hgs)
  have hlen : heads.length = es.length := he.length_eq
  unfold concatCall
  simp only [hchain, Bool.false_eq_true, if_false, hk, hl.walk_eq, hneed]
  have harguments : Fills _ (s.writeArguments { style with quotes := true } heads) () _ :=
    fills_writeArguments he
  have hcall := (Fills.write callOpening).seq (Nat.le_refl _)
    (harguments.seq (length_arguments_le _ es) (Fills.write callClosing))
  refine written_of_fills hcall ?_
  rw [hlen]
  have hsum : (es.map (reserve { style with quotes := true })).sum ≤
      (es.map fun gs => reserve { style with quotes := true } gs + 1).sum :=
    List.sum_le_sum fun gs _ => Nat.le_succ _
  unfold argumentsReserve
  omega

/-! ## Templates -/

theorem isLiteral_eq (he : s.IsExpression (some h) gs) :
    s.isLiteral h = .ok (Layout.isLiteral gs) := by
  obtain ⟨hs, hl, hg⟩ := he
  cases hs with
  | nil => cases hl
  | cons k rest =>
    obtain ⟨hk, -, hrest⟩ := hl
    obtain rfl : h = k := Option.some.inj hk
    cases gs with
    | nil => simp at hg
    | cons g gs =>
      obtain ⟨hget, hg⟩ := List.cons.inj hg
      unfold isLiteral segmentOf
      rw [hget]
      show Except.ok ((s.link? .next h).isNone && decide (g.kind = .quoted)) = _
      cases rest with
      | nil =>
        obtain rfl : gs = [] := List.map_eq_nil_iff.mp hg.symm
        rw [show s.link? .next h = none from hrest]
        rfl
      | cons k' rest =>
        cases gs with
        | nil => simp at hg
        | cons g' gs => rw [hrest.1]; rfl

theorem partNeed_eq (he : s.IsExpression (some h) gs) :
    s.partNeed style h = .ok (partReserve style gs + 1) := by
  unfold partNeed partReserve
  rw [isLiteral_eq he]
  cases Layout.isLiteral gs with
  | true =>
    show s.measure (some h) style = _
    rw [measure_eq he]
    rfl
  | false =>
    show (do return 2 + (← s.measure (some h) { style with quotes := true })) = _
    rw [measure_eq he]
    rfl

theorem fills_writePart (he : s.IsExpression (some h) gs) :
    Fills (partReserve style gs) (s.writePart style h) () (part style gs) := by
  unfold writePart partReserve part
  rw [isLiteral_eq he]
  cases Layout.isLiteral gs with
  | true => exact (fills_layOut he style).discard
  | false =>
    have hbody := (fills_layOut he { style with quotes := true }).discard
    have hall := (Fills.write [openBrace]).seq (Nat.le_refl _)
      (hbody.seq (length_laid_le _ gs) (Fills.write [closeBrace]))
    refine Fills.mono hall ?_
    simp only [Bool.false_eq_true, if_false, List.length_singleton]
    omega

theorem fills_writeParts
    (he : List.Forall₂ (fun h gs => s.IsExpression (some h) gs) heads es) :
    Fills (es.map (partReserve style)).sum (s.writeParts style heads) ()
      (es.flatMap (part style)) := by
  induction he with
  | nil => exact Fills.pure ()
  | @cons h gs heads es hgs _ ih =>
    exact (fills_writePart hgs).seq (length_part_le style gs) ih

theorem isLone_eq (he : s.IsExpression (some h) gs) : s.isLone h .quoted =
    .ok ((s.link? .sibling h).isNone && Layout.isLiteral gs) := by
  have hlit := isLiteral_eq he
  unfold isLone
  unfold isLiteral at hlit
  cases hg : s.segmentOf h with
  | error f => rw [hg] at hlit; cases hlit
  | ok g =>
    rw [hg] at hlit
    rw [← Except.ok.inj hlit]
    show Except.ok _ = Except.ok _
    cases (s.link? .next h).isNone <;> cases (s.link? .sibling h).isNone <;> rfl

/-- The template of the concatenation at `h` without the look at a value that is one literal: what
its parts need is reserved, and they are written one after the other. -/
def partByPart (s : Store) (h : Handle) (style : Style) : Except Fault Bytes := do
  let style := { style with braces := true }
  let heads := s.walk .sibling (some h)
  written (← reserveSum (s.partNeed style) heads) (s.writeParts style heads)

theorem partByPart_eq (hc : s.IsConcatenation (some h) es) :
    s.partByPart h style = .ok (es.flatMap (part { style with braces := true })) := by
  obtain ⟨heads, hl, he⟩ := hc
  have hneed : reserveSum (s.partNeed { style with braces := true }) heads =
      .ok (es.map fun gs => partReserve { style with braces := true } gs + 1).sum :=
    reserveSum_eq (he.imp fun _ _ hgs => partNeed_eq hgs)
  unfold partByPart
  simp only [hl.walk_eq, hneed]
  exact written_of_fills (fills_writeParts he) (List.sum_le_sum fun gs _ => Nat.le_succ _)

/-- A concatenation is written as a template part by part. -/
theorem template_eq (hc : s.IsConcatenation (some h) es) :
    s.template (some h) style = .ok (es.flatMap (part { style with braces := true })) := by
  have hparts : s.partByPart h style = .ok (es.flatMap (part { style with braces := true })) :=
    partByPart_eq hc
  obtain ⟨heads, hl, he⟩ := hc
  have hchain : (!s.isChain (some h)) = false := by rw [hl.isChain]; rfl
  cases he with
  | nil => cases hl
  | @cons k gs heads es hgs hes =>
    obtain ⟨hk, -, hrest⟩ := hl
    obtain rfl : h = k := Option.some.inj hk
    unfold template
    simp only [hchain, Bool.false_eq_true, if_false, isLone_eq hgs]
    cases hlone : (s.link? .sibling h).isNone && Layout.isLiteral gs with
    | true =>
      -- the only expression is a literal, which is its own part
      obtain ⟨hn, hlit⟩ := (Bool.and_eq_true _ _).mp hlone
      rw [Option.isNone_iff_eq_none.mp hn] at hrest
      cases hes with
      | nil =>
        show s.expression (some h) { style with braces := true } = _
        rw [expression_eq hgs]
        simp [part, hlit]
      | cons _ _ => cases hrest.1
    | false => exact hparts

/-! ## Room enough -/

theorem exists_isConcatenation (hl : s.Line .sibling head heads)
    (he : ∀ h ∈ heads, ∃ hs, s.Line .next (some h) hs) : ∃ es, s.IsConcatenation head es := by
  suffices ∃ es, List.Forall₂ (fun h gs => s.IsExpression (some h) gs) heads es by
    obtain ⟨es, hes⟩ := this
    exact ⟨es, heads, hl, hes⟩
  clear hl
  induction heads with
  | nil => exact ⟨[], .nil⟩
  | cons h rest ih =>
    obtain ⟨hs, hline⟩ := he h List.mem_cons_self
    obtain ⟨gs, hgs⟩ := hline.isExpression
    obtain ⟨es, hes⟩ := ih fun k hk => he k (List.mem_cons_of_mem _ hk)
    exact ⟨gs :: es, .cons hgs hes⟩

/-- The head of a concatenation is the head of its first expression. -/
theorem IsConcatenation.isExpression_headD (hc : s.IsConcatenation head es) :
    s.IsExpression head (es.headD []) := by
  obtain ⟨heads, hl, he⟩ := hc
  cases he with
  | nil =>
    obtain rfl : head = none := hl
    exact isExpression_none
  | cons hgs _ =>
    obtain ⟨rfl, -⟩ := hl
    exact hgs

theorem IsConcatenation.isExpression (hc : s.IsConcatenation head es) :
    ∃ gs, s.IsExpression head gs :=
  ⟨_, hc.isExpression_headD⟩

theorem concatCall_ok (hc : s.IsConcatenation head es) :
    ∃ bs, s.concatCall head style = .ok bs := by
  obtain ⟨gs, hgs⟩ := hc.isExpression
  cases hk : head.bind (s.link? .sibling) with
  | none => exact ⟨_, (concatCall_of_no_sibling hgs.isChain hk).trans (expression_eq hgs)⟩
  | some k => exact ⟨_, concatCall_of_sibling hc hk⟩

theorem template_ok (hc : s.IsConcatenation head es) : ∃ bs, s.template head style = .ok bs := by
  cases head with
  | none => exact ⟨_, expression_eq isExpression_none⟩
  | some h => exact ⟨_, template_eq hc⟩

/-- **What is measured is enough.**  Of a finite live expression the second pass fills at every
moment less than the first one has measured, the terminator apart, so that no write of it fails;
and with it no call or template of finite live expressions fails. -/
theorem layOut_within_measure (s : Store) (head : Option Handle) (style : Style) :
    (∀ hs, s.Line .next head hs → ∃ n, s.measure head style = .ok n ∧
      (∀ b : Buffer, b.size + (n - 1) ≤ b.capacity →
        ∃ k b', s.layOut head style b = .ok k b' ∧ k < n) ∧
      ∃ bs, s.expression head style = .ok bs ∧ bs.length < n) ∧
    (∀ heads, s.Line .sibling head heads → (∀ h ∈ heads, ∃ hs, s.Line .next (some h) hs) →
      (∃ bs, s.concatCall head style = .ok bs) ∧ ∃ bs, s.template head style = .ok bs) := by
  constructor
  · intro hs hl
    obtain ⟨gs, hgs⟩ := hl.isExpression
    have hlen := Nat.lt_succ_of_le (length_laid_le style gs)
    refine ⟨_, measure_eq hgs, fun b hroom => ?_, _, expression_eq hgs, hlen⟩
    exact ⟨_, _, fills_layOut hgs style b hroom, hlen⟩
  · intro heads hl he
    obtain ⟨es, hes⟩ := exists_isConcatenation hl he
    exact ⟨concatCall_ok hes, template_ok hes⟩

/-- A literal with a brace and a mark, and a name after it. -/
def literalAndName : Store where
  cells := #[⟨some (.ofText ['\x7b', '"'] .quoted), some 1, none⟩,
    ⟨some (.ofText ['a'] .bare), none, none⟩]

theorem layOut_literalAndName : literalAndName.measure (some 0) { quotes := true } = .ok 9 ∧
    ∀ b : Buffer, b.size + 8 ≤ b.capacity →
      ∃ k b', literalAndName.layOut (some 0) { quotes := true } b = .ok k b' ∧ k < 9 := by
  have hline : literalAndName.Line .next (some 0) [0, 1] := ⟨rfl, rfl, rfl, rfl, rfl⟩
  have hmeasure : literalAndName.measure (some 0) { quotes := true } = .ok 9 := rfl
  obtain ⟨n, hn, hfits, -⟩ :=
    (layOut_within_measure literalAndName (some 0) { quotes := true }).1 _ hline
  obtain rfl : 9 = n := Except.ok.inj (hmeasure.symm.trans hn)
  exact ⟨hmeasure, hfits⟩

end Store

end XPathAssembly
