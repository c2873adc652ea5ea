import XPathAssembly.Layout.Expression
import XPathAssembly.Proofs.Store.Line
import Mathlib.Algebra.GroupWithZero.Nat

/-!
# The text of an expression

What is laid out for a list of segments depends on the segments and the style alone: `laid` is the
text, and a buffer with enough room receives exactly this text, whatever it holds already.

    Line .next head hs → layOut s head style appends laid style (s.segments hs)      (fills_layOut)

The room that `measure` reserves is enough at every moment, since each segment adds at most its
reserve to what stands in the buffer when it is placed.
-/

namespace XPathAssembly

/-! ## Buffers -/

namespace Buffer

/-- A buffer of the same capacity that holds `bs`. -/
def holding (b : Buffer) (bs : Bytes) : Buffer := { b with bytes := bs.toArray }

section
variable (b : Buffer) (bs data : Bytes)

@[simp] theorem capacity_holding : (b.holding bs).capacity = b.capacity := rfl

@[simp] theorem toList_holding : (b.holding bs).toList = bs := by
  simp [toList, holding]

@[simp] theorem size_holding : (b.holding bs).size = bs.length := by
  simp [size, holding]

@[simp] theorem holding_holding : (b.holding bs).holding data = b.holding data := rfl

@[simp] theorem holding_toList : b.holding b.toList = b := by
  simp [toList, holding]

theorem length_toList : b.toList.length = b.size := by
  simp [toList, size]

theorem write_holding (hf : bs.length + data.length ≤ b.capacity) :
    write data (b.holding bs) = .ok () (b.holding (bs ++ data)) := by
  unfold write
  rw [size_holding, capacity_holding, if_pos hf]
  simp [holding]

theorem dropLast_holding (hne : bs ≠ []) :
    dropLast (b.holding bs) = .ok () (b.holding bs.dropLast) := by
  unfold dropLast
  rw [size_holding, if_neg (by rwa [List.length_eq_zero_iff])]
  simp [holding]

theorem writeAll_holding (datas : List Bytes)
    (hf : bs.length + datas.flatten.length ≤ b.capacity) :
    writeAll datas (b.holding bs) = .ok () (b.holding (bs ++ datas.flatten)) := by
  induction datas generalizing bs with
  | nil => simp [writeAll, Call.pure_apply]
  | cons data rest ih =>
    rw [List.flatten_cons, List.length_append] at hf
    unfold writeAll
    rw [Call.bind_apply, write_holding b bs data (by omega)]
    show writeAll rest (b.holding (bs ++ data)) = _
    rw [ih _ (by rw [List.length_append]; omega), List.flatten_cons, List.append_assoc]

end

theorem writeAll_append (datas more : List Bytes) :
    writeAll (datas ++ more) = (writeAll datas >>= fun _ => writeAll more) := by
  induction datas with
  | nil => exact (pure_bind () fun _ => writeAll more).symm
  | cons data rest ih =>
    show (write data >>= fun _ => writeAll (rest ++ more)) = (write data >>= fun _ => _) >>= _
    rw [ih, bind_assoc]

theorem writeAll_singleton (data : Bytes) : writeAll [data] = write data := bind_pure_unit

/-- With `room` bytes left, the call appends exactly `bs` and answers `a`. -/
def Fills {α : Type} (room : Nat) (call : Call Buffer α) (a : α) (bs : Bytes) : Prop :=
  ∀ b : Buffer, b.size + room ≤ b.capacity → call b = .ok a (b.holding (b.toList ++ bs))

end Buffer

/-! ## Texts -/

namespace Layout

/-- The `k`-th byte from the end. -/
def back? (acc : Bytes) (k : Nat) : Option UInt8 :=
  if k ≤ acc.length then acc[acc.length - k]? else none

/-- The gap between the text of an expression so far and the next segment. -/
def gap (acc : Bytes) (g : Segment) : Gap where
  previous := back? acc 2
  beforePrevious := back? acc 3
  following := g.text.head?
  kind := g.kind
  afterMinus := acc.length = 2 && acc.head? == some (byteOf '-')

def closesBefore (acc : Bytes) (g : Segment) : Bool :=
  1 < acc.length && back? acc 1 == some space && (gap acc g).closes

/-- The text after the next segment, with the space that follows it. -/
def add (style : Style) (acc : Bytes) (g : Segment) : Bytes :=
  (if closesBefore acc g then acc.dropLast else acc) ++ g.spelled style ++
    if g.kind.isGlued then [] else [space]

/-- What is kept of the text when the next segment is placed. -/
def kept (acc : Bytes) (g : Segment) : Bytes := if closesBefore acc g then acc.dropLast else acc

/-- The text after all segments; `separated` tells whether a space stands at the end of `acc`. -/
def laidFrom (style : Style) (separated : Bool) (acc : Bytes) : List Segment → Bytes
  | [] => if separated then acc.dropLast else acc
  | g :: rest => laidFrom style (!g.kind.isGlued) (add style acc g) rest

/-- The text of an expression. -/
def laid (style : Style) (gs : List Segment) : Bytes := laidFrom style false [] gs

/-- The most bytes that stand in the buffer at a time while segments are placed after `acc`. -/
def peak (style : Style) (acc : Bytes) : List Segment → Nat
  | [] => 0
  | g :: rest => max (add style acc g).length (peak style (add style acc g) rest)

/-- The bytes to reserve for the segments of an expression. -/
def reserve (style : Style) (gs : List Segment) : Nat := (gs.map (Segment.reserve style)).sum

end Layout

theorem Segment.spelled_of_ne_quoted {g : Segment} (hk : g.kind ≠ .quoted) (style : Style) :
    g.spelled style = g.text := by
  rw [spelled_eq, if_neg fun h => hk h.1, if_neg fun h => hk h.1]

/-! ## Placing segments -/

namespace Layout

open Buffer

variable {style : Style} {pre acc : Bytes} {g : Segment} {gs : List Segment}

theorem add_eq (style : Style) (acc : Bytes) (g : Segment) :
    add style acc g = kept acc g ++ g.spelled style ++ if g.kind.isGlued then [] else [space] := rfl

theorem back?_holding (b : Buffer) (pre acc : Bytes) (k : Nat) :
    (b.holding (pre ++ acc)).back? pre.length k = back? acc k := by
  unfold Buffer.back? back?
  rw [size_holding, List.length_append]
  by_cases hk : k ≤ acc.length
  · rw [if_pos (by omega), if_pos hk]
    simp only [holding, List.getElem?_toArray]
    rw [List.getElem?_append_right (by omega)]
    congr 1
    omega
  · rw [if_neg (by omega), if_neg hk]

/-- Only what was written for the expression decides about its gaps. -/
theorem closesBefore_holding (b : Buffer) (pre acc : Bytes) (g : Segment) :
    (b.holding (pre ++ acc)).closesBefore pre.length g = closesBefore acc g := by
  have hfirst : (b.holding (pre ++ acc)).bytes[pre.length]? = acc.head? := by
    simp only [holding, List.getElem?_toArray]
    rw [List.getElem?_append_right (Nat.le_refl _), Nat.sub_self, List.head?_eq_getElem?]
  have hgap : (b.holding (pre ++ acc)).gap pre.length g = gap acc g := by
    unfold Buffer.gap gap
    rw [back?_holding, back?_holding, hfirst, size_holding, List.length_append]
    simp only [Nat.add_right_inj]
  unfold Buffer.closesBefore closesBefore
  rw [back?_holding, hgap, size_holding, List.length_append]
  simp only [Nat.add_lt_add_iff_left]

/-- The writes of a segment, the space after it included. -/
def spacedWrites (style : Style) (g : Segment) : List Bytes :=
  g.writes style ++ if g.kind.isGlued then [] else [[space]]

theorem flatten_spacedWrites (style : Style) (g : Segment) :
    (spacedWrites style g).flatten = g.spelled style ++ if g.kind.isGlued then [] else [space] := by
  unfold spacedWrites
  rw [List.flatten_append]
  cases g.kind.isGlued <;> rfl

/-- A segment is placed by writes alone, once the space before it has been taken back. -/
theorem place_eq (b : Buffer) (pre acc : Bytes) (g : Segment) :
    place style pre.length g (b.holding (pre ++ acc)) =
      writeAll (spacedWrites style g) (b.holding (pre ++ kept acc g)) := by
  have hrest : (do
      writeAll (g.writes style)
      if !g.kind.isGlued then write [space] : Call Buffer Unit) =
        writeAll (spacedWrites style g) := by
    unfold spacedWrites
    rw [writeAll_append]
    cases g.kind.isGlued with
    | true => rfl
    | false =>
      exact congrArg (writeAll (g.writes style) >>= fun _ => ·) (writeAll_singleton _).symm
  unfold place
  rw [Call.bind_apply, Call.get_apply, hrest]
  show (if (b.holding (pre ++ acc)).closesBefore pre.length g = true
    then dropLast >>= fun _ => writeAll (spacedWrites style g)
    else writeAll (spacedWrites style g)) _ = _
  rw [closesBefore_holding, kept]
  cases hc : closesBefore acc g with
  | false => rfl
  | true =>
    have hne : acc ≠ [] := by
      rintro rfl
      simp [closesBefore] at hc
    show (dropLast >>= fun _ => writeAll (spacedWrites style g)) _ = _
    rw [Call.bind_apply, dropLast_holding _ _ (by simp [hne]), List.dropLast_append_of_ne_nil hne]
    rfl

theorem append_flatten_spacedWrites (pre acc : Bytes) (g : Segment) :
    (pre ++ kept acc g) ++ (spacedWrites style g).flatten = pre ++ add style acc g := by
  rw [flatten_spacedWrites, add_eq, List.append_assoc, List.append_assoc]

/-- A segment is placed if the text after it fits: the space is dropped first, and then the text
only grows. -/
theorem place_holding (b : Buffer) (hf : pre.length + (add style acc g).length ≤ b.capacity) :
    place style pre.length g (b.holding (pre ++ acc)) =
      .ok () (b.holding (pre ++ add style acc g)) := by
  rw [place_eq, writeAll_holding, append_flatten_spacedWrites]
  rwa [← List.length_append, append_flatten_spacedWrites, List.length_append]

/-! ## The reserve -/

theorem length_doubleBraces (bs : Bytes) :
    (doubleBraces bs).length = bs.length + bs.count openBrace + bs.count closeBrace := by
  have hne : openBrace ≠ closeBrace := by decide
  induction bs with
  | nil => rfl
  | cons c bs ih =>
    unfold doubleBraces at ih ⊢
    rw [List.flatMap_cons, List.length_append, ih, List.count_cons, List.count_cons]
    by_cases ho : c = openBrace
    · subst ho
      simp [hne]
      omega
    · by_cases hcl : c = closeBrace
      · subst hcl
        simp [hne.symm]
        omega
      · simp [ho, hcl]
        omega

theorem length_escapeMarks (bs : Bytes) :
    (escapeMarks bs).length = bs.length + bs.count doubleMark := by
  induction bs with
  | nil => rfl
  | cons c bs ih =>
    unfold escapeMarks at ih ⊢
    rw [List.flatMap_cons, List.length_append, ih, List.count_cons]
    by_cases hc : c = doubleMark
    · simp [hc]
      omega
    · simp [hc]
      omega

/-- The reserve of a segment covers its text, however it is written, and the space after it. -/
theorem length_spelled_le (style : Style) (g : Segment) :
    (g.spelled style).length + (if g.kind.isGlued then 0 else 1) ≤ g.reserve style := by
  have hquoted : (g.quotedWrites.flatten).length ≤
      g.text.length + (2 + g.text.count doubleMark) := by
    unfold Segment.quotedWrites
    split
    · simp [length_escapeMarks]
      omega
    · split <;> simp <;> omega
  unfold Segment.spelled Segment.writes Segment.reserve
  by_cases hk : g.kind = .quoted
  · simp only [hk, decide_true, Bool.true_and, if_true]
    cases hq : style.quotes with
    | true =>
      simp only [if_true]
      omega
    | false =>
      cases hb : style.braces with
      | true => simp [length_doubleBraces]; omega
      | false => simp
  · simp [hk]

theorem length_kept_le (acc : Bytes) (g : Segment) : (kept acc g).length ≤ acc.length := by
  unfold kept
  split
  · rw [List.length_dropLast]
    exact Nat.sub_le _ _
  · exact Nat.le_refl _

theorem length_gap (g : Segment) :
    (if g.kind.isGlued then [] else [space]).length = if g.kind.isGlued then 0 else 1 := by
  split <;> rfl

theorem length_add_le (style : Style) (acc : Bytes) (g : Segment) :
    (add style acc g).length ≤ acc.length + g.reserve style := by
  have hs := length_spelled_le style g
  have hkept := length_kept_le acc g
  rw [add_eq, List.length_append, List.length_append, length_gap]
  omega

theorem peak_le (style : Style) (acc : Bytes) (gs : List Segment) :
    peak style acc gs ≤ acc.length + reserve style gs := by
  induction gs generalizing acc with
  | nil => exact Nat.zero_le _
  | cons g gs ih =>
    have hg := length_add_le style acc g
    have hrest := ih (add style acc g)
    have hsum : reserve style (g :: gs) = g.reserve style + reserve style gs := rfl
    rw [peak, hsum]
    omega

theorem length_laidFrom_le (style : Style) (separated : Bool) (acc : Bytes) (gs : List Segment) :
    (laidFrom style separated acc gs).length ≤ acc.length + reserve style gs := by
  induction gs generalizing separated acc with
  | nil =>
    unfold laidFrom
    cases separated with
    | false => exact Nat.le_add_right _ _
    | true => simp only [if_true, List.length_dropLast]; omega
  | cons g gs ih =>
    have hg := length_add_le style acc g
    have hrest := ih (!g.kind.isGlued) (add style acc g)
    have hsum : reserve style (g :: gs) = g.reserve style + reserve style gs := rfl
    rw [laidFrom, hsum]
    omega

theorem length_laid_le (style : Style) (gs : List Segment) :
    (laid style gs).length ≤ reserve style gs := by
  have h := length_laidFrom_le style false [] gs
  rwa [List.length_nil, Nat.zero_add] at h

/-! ## What laying out keeps -/

theorem getLast_eq_space_of_closesBefore (hc : closesBefore acc g = true) :
    acc = acc.dropLast ++ [space] := by
  simp only [closesBefore, Bool.and_eq_true, decide_eq_true_eq, beq_iff_eq] at hc
  obtain ⟨⟨hlen, hback⟩, -⟩ := hc
  have hne : acc ≠ [] := by
    rintro rfl
    simp at hlen
  unfold back? at hback
  rw [if_pos (by omega), ← List.getLast?_eq_getElem?, List.getLast?_eq_some_getLast hne] at hback
  rw [← Option.some.inj hback, List.dropLast_append_getLast hne]

/-- What holds of the empty text and is kept by another segment, by a space more and by a space less
holds of the text of an expression. -/
theorem laid_induction {gs : List Segment} (P : List Segment → Bytes → Prop) (hnil : P [] [])
    (hadd : ∀ done acc g, g ∈ gs → P done acc → P (done ++ [g]) (acc ++ g.spelled style))
    (hspace : ∀ done acc, P done acc → P done (acc ++ [space]))
    (htrim : ∀ done acc, P done (acc ++ [space]) → P done acc) : P gs (laid style gs) := by
  have hfrom : ∀ (rest done : List Segment) (separated : Bool) (acc : Bytes),
      (∀ g ∈ rest, g ∈ gs) → P done acc → (separated = true → acc = acc.dropLast ++ [space]) →
        P (done ++ rest) (laidFrom style separated acc rest) := by
    intro rest
    induction rest with
    | nil =>
      intro done separated acc _ hp hsep
      rw [List.append_nil]
      unfold laidFrom
      cases separated with
      | false => exact hp
      | true =>
        rw [hsep rfl] at hp
        exact htrim done _ hp
    | cons g rest ih =>
      intro done separated acc hmem hp _
      have hleft : P done (if closesBefore acc g then acc.dropLast else acc) := by
        split
        · next hc =>
          rw [getLast_eq_space_of_closesBefore hc] at hp
          exact htrim done _ hp
        · exact hp
      have hseg := hadd done _ g (hmem g List.mem_cons_self) hleft
      have hnext : P (done ++ [g]) (add style acc g) := by
        unfold add
        cases g.kind.isGlued with
        | true => simpa using hseg
        | false => exact hspace _ _ hseg
      rw [List.append_cons]
      refine ih _ _ _ (fun k hk => hmem k (List.mem_cons_of_mem _ hk)) hnext fun hglue => ?_
      rw [Bool.not_eq_true'] at hglue
      simp [add, hglue]
  exact hfrom gs [] false [] (fun _ hg => hg) hnil nofun

theorem laidFrom_congr {style' : Style} (hs : ∀ g ∈ gs, g.spelled style = g.spelled style')
    (separated : Bool) (acc : Bytes) :
    laidFrom style separated acc gs = laidFrom style' separated acc gs := by
  induction gs generalizing separated acc with
  | nil => rfl
  | cons g gs ih =>
    unfold laidFrom
    have hg : add style acc g = add style' acc g := by
      unfold add
      rw [hs g List.mem_cons_self]
    rw [hg]
    exact ih (fun k hk => hs k (List.mem_cons_of_mem _ hk)) _ _

/-- Styles that spell the segments alike lay them out alike. -/
theorem laid_congr {style' : Style} (hs : ∀ g ∈ gs, g.spelled style = g.spelled style') :
    laid style gs = laid style' gs :=
  laidFrom_congr hs false []

end Layout

/-! ## Laying out -/

namespace Store

open Buffer Layout

variable {s : Store} {head : Option Handle} {hs : List Handle} {gs : List Segment} {style : Style}

/-- The expression at `head` is finite and live, and `gs` are its segments. -/
def IsExpression (s : Store) (head : Option Handle) (gs : List Segment) : Prop :=
  ∃ hs, s.Line .next head hs ∧ hs.map s.get? = gs.map some

theorem Line.isExpression (hl : s.Line .next head hs) : ∃ gs, s.IsExpression head gs := by
  have hget : ∀ k ∈ hs, ∃ g, s.get? k = some g := fun k hk => isLive_iff.mp (hl.isLive k hk)
  suffices ∃ gs : List Segment, hs.map s.get? = gs.map some by
    obtain ⟨gs, hgs⟩ := this
    exact ⟨gs, hs, hl, hgs⟩
  clear hl
  induction hs with
  | nil => exact ⟨[], rfl⟩
  | cons h rest ih =>
    obtain ⟨g, hg⟩ := hget h List.mem_cons_self
    obtain ⟨gs, hgs⟩ := ih fun k hk => hget k (List.mem_cons_of_mem _ hk)
    exact ⟨g :: gs, by simp [hg, hgs]⟩

theorem isExpression_none : s.IsExpression none [] := ⟨[], rfl, rfl⟩

theorem IsExpression.isChain (he : s.IsExpression head gs) : s.isChain head := by
  obtain ⟨hs, hl, -⟩ := he
  exact hl.isChain

theorem placeAll_holding (style : Style) (hg : hs.map s.get? = gs.map some) (b : Buffer)
    (pre acc : Bytes) (separated : Bool) (hsep : separated = true → acc ≠ [])
    (hf : gs = [] ∨ pre.length + peak style acc gs ≤ b.capacity) :
    s.placeAll style pre.length separated hs (b.holding (pre ++ acc)) =
      .ok () (b.holding (pre ++ laidFrom style separated acc gs)) := by
  induction hs generalizing gs acc separated with
  | nil =>
    obtain rfl : gs = [] := List.map_eq_nil_iff.mp hg.symm
    unfold placeAll laidFrom
    cases separated with
    | false => rfl
    | true =>
      have hne := hsep rfl
      show dropLast _ = _
      rw [dropLast_holding _ _ (by simp [hne]), List.dropLast_append_of_ne_nil hne]
      rfl
  | cons h hs ih =>
    cases gs with
    | nil => simp at hg
    | cons g gs =>
      obtain ⟨hget, hg⟩ := List.cons.inj hg
      have hpeak : pre.length + peak style acc (g :: gs) ≤ b.capacity :=
        hf.resolve_left (List.cons_ne_nil g gs)
      rw [peak] at hpeak
      have hnext : (!g.kind.isGlued) = true → add style acc g ≠ [] := by
        intro hglue
        rw [Bool.not_eq_true'] at hglue
        simp [add, hglue]
      unfold placeAll
      rw [hget]
      show (place style pre.length g >>= fun _ =>
        s.placeAll style pre.length (!g.kind.isGlued) hs) _ = _
      rw [Call.bind_apply, place_holding b (by omega)]
      exact ih hg _ _ hnext (.inr (by omega))

/-- An expression is laid out from where the buffer ends. -/
theorem layOut_eq (hl : s.Line .next head hs) (style : Style) (b : Buffer) :
    s.layOut head style b = (do
      s.placeAll style b.toList.length false hs
      return (← get).size - b.size : Call Buffer Nat) (b.holding (b.toList ++ [])) := by
  unfold layOut
  rw [hl.isChain, hl.walk_eq, length_toList, List.append_nil, holding_toList]
  rfl

/-- An expression is written in full if it fits at every moment. -/
theorem layOut_of_peak_le (he : s.IsExpression head gs) (style : Style) (b : Buffer)
    (hf : gs = [] ∨ b.size + peak style [] gs ≤ b.capacity) :
    s.layOut head style b = .ok (laid style gs).length (b.holding (b.toList ++ laid style gs)) := by
  obtain ⟨hs, hl, hg⟩ := he
  rw [← length_toList] at hf
  rw [layOut_eq hl, Call.bind_apply, placeAll_holding style hg b b.toList [] false nofun hf]
  simp only [Call.bind_apply, Call.get_apply, Call.pure_apply, size_holding, List.length_append,
    length_toList]
  rw [Nat.add_sub_cancel_left]
  rfl

/-- With the reserve of its segments left, an expression is written in full. -/
theorem fills_layOut (he : s.IsExpression head gs) (style : Style) :
    Fills (reserve style gs) (s.layOut head style) (laid style gs).length (laid style gs) := by
  intro b hroom
  have hpeak := peak_le style [] gs
  rw [List.length_nil] at hpeak
  exact layOut_of_peak_le he style b (.inr (by omega))

theorem reserveAll_eq (hg : hs.map s.get? = gs.map some) :
    s.reserveAll style hs = .ok (reserve style gs) := by
  induction hs generalizing gs with
  | nil =>
    obtain rfl : gs = [] := List.map_eq_nil_iff.mp hg.symm
    rfl
  | cons h hs ih =>
    cases gs with
    | nil => simp at hg
    | cons g gs =>
      obtain ⟨hget, hg⟩ := List.cons.inj hg
      unfold reserveAll segmentOf
      rw [hget, ih hg]
      rfl

theorem measure_eq (he : s.IsExpression head gs) :
    s.measure head style = .ok (reserve style gs + 1) := by
  obtain ⟨hs, hl, hg⟩ := he
  have hchain : (!s.isChain head) = false := by rw [hl.isChain]; rfl
  unfold measure
  simp only [hchain, Bool.false_eq_true, if_false, hl.walk_eq, reserveAll_eq hg]
  rfl

theorem written_of_fills {α : Type} {room capacity : Nat} {call : Call Buffer α} {a : α}
    {bs : Bytes} (hc : Fills room call a bs) (hr : room ≤ capacity) :
    written capacity call = .ok bs := by
  have hcall := hc { capacity } (by simpa [Buffer.size] using hr)
  unfold written
  rw [hcall]
  simp [Buffer.toList, Buffer.holding]

theorem expression_eq (he : s.IsExpression head gs) :
    s.expression head style = .ok (laid style gs) := by
  unfold expression
  rw [measure_eq he]
  exact written_of_fills (fills_layOut he style) (Nat.le_succ _)

end Store

end XPathAssembly
