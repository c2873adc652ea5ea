import XPathAssembly.Proofs.Layout.Pieces

/-!
# The room that an expression takes

An expression is written into a buffer alike wherever it begins: its text is appended if it fits at
every moment, and otherwise the call stops with a part of it, after what the buffer held before.

    b.size + peak style [] gs ≤ b.capacity → layOut appends laid style gs       (layOut_of_peak_le)
    b.capacity < b.size + peak style [] gs → layOut stops for lack of room      (stopsFull_layOut)

The text does not only grow, since spaces are taken back.  But after a space is taken back a segment
is written, and with it the text is no shorter than before, unless it is a glued one without a text.
So, these apart, the most room is needed at the end, where the space after the last segment stands.
-/

namespace XPathAssembly

namespace Buffer

/-! ## Calls that are stopped -/

/-- The call stops for lack of room.  The buffer still begins with `pre`, and holds no more than its
capacity, if it did so before. -/
def StopsFull {α : Type} (pre : Bytes) (call : Call Buffer α) (b : Buffer) : Prop :=
  ∃ left, call b = .error .full (b.holding (pre ++ left)) ∧
    (pre ++ left).length ≤ max b.size b.capacity

section
variable {α β : Type} {b : Buffer} {pre more bs : Bytes} {a : α} {x : Call Buffer α}
  {f : α → Call Buffer β}

namespace StopsFull

theorem bind (hx : StopsFull pre x b) : StopsFull pre (x >>= f) b := by
  obtain ⟨left, hx, hlen⟩ := hx
  refine ⟨left, ?_, hlen⟩
  rw [Call.bind_apply, hx]

/-- The first call has left no more than the capacity, and the second one stops. -/
theorem bind_of_ok (hx : x b = .ok a (b.holding bs)) (hle : bs.length ≤ b.capacity)
    (hf : StopsFull pre (f a) (b.holding bs)) : StopsFull pre (x >>= f) b := by
  obtain ⟨left, hf, hlen⟩ := hf
  rw [size_holding, capacity_holding] at hlen
  refine ⟨left, ?_, by omega⟩
  rw [Call.bind_apply, hx]
  exact hf

/-- What begins with more begins with less. -/
theorem of_append (hx : StopsFull (pre ++ more) x b) : StopsFull pre x b := by
  obtain ⟨left, hx, hlen⟩ := hx
  rw [List.append_assoc] at hx hlen
  exact ⟨more ++ left, hx, hlen⟩

theorem not_ok {b' : Buffer} (hx : StopsFull pre x b) : x b ≠ .ok a b' := by
  obtain ⟨left, hx, -⟩ := hx
  rw [hx]
  exact nofun

theorem of_error {fault : Fault} {b' : Buffer} (hx : StopsFull pre x b)
    (hrun : x b = .error fault b') : fault = .full ∧ pre <+: b'.toList ∧
      b'.capacity = b.capacity ∧ (b.size ≤ b.capacity → b'.size ≤ b'.capacity) := by
  obtain ⟨left, hx, hlen⟩ := hx
  rw [hx] at hrun
  cases hrun
  refine ⟨rfl, ⟨left, (toList_holding _ _).symm⟩, rfl, fun hb => ?_⟩
  rw [size_holding, capacity_holding]
  omega

end StopsFull

theorem stopsFull_write {data : Bytes} (hf : b.capacity < bs.length + data.length) :
    StopsFull bs (write data) (b.holding bs) := by
  refine ⟨[], ?_, ?_⟩
  · unfold write
    rw [size_holding, capacity_holding, if_neg (by omega), List.append_nil]
    rfl
  · rw [List.append_nil, size_holding]
    exact Nat.le_max_left _ _

/-- Writes that do not fit all together are stopped by the first that does not fit. -/
theorem stopsFull_writeAll {datas : List Bytes} (hne : datas ≠ [])
    (hf : b.capacity < bs.length + datas.flatten.length) :
    StopsFull bs (writeAll datas) (b.holding bs) := by
  induction datas generalizing bs with
  | nil => exact absurd rfl hne
  | cons data rest ih =>
    show StopsFull bs (write data >>= fun _ => writeAll rest) _
    by_cases hfits : bs.length + data.length ≤ b.capacity
    · rw [List.flatten_cons, List.length_append] at hf
      have hrest : rest ≠ [] := by
        rintro rfl
        rw [List.flatten_nil, List.length_nil] at hf
        omega
      have hstop : StopsFull (bs ++ data) (writeAll rest) (b.holding (bs ++ data)) :=
        ih hrest (by rw [List.length_append]; omega)
      exact .bind_of_ok (write_holding b bs data hfits) (by rwa [List.length_append])
        hstop.of_append
    · exact (stopsFull_write (by omega)).bind

end

end Buffer

theorem Segment.writes_ne_nil (style : Style) (g : Segment) : g.writes style ≠ [] := by
  unfold writes quotedWrites
  split_ifs <;> exact List.cons_ne_nil _ _

namespace Layout

open Buffer

variable {style : Style} {pre acc : Bytes} {g : Segment} {gs : List Segment} {b : Buffer}

theorem length_le_kept (acc : Bytes) (g : Segment) : acc.length ≤ (kept acc g).length + 1 := by
  unfold kept
  split
  · rw [List.length_dropLast]
    omega
  · exact Nat.le_succ _

/-! ## The most room -/

/-- A segment makes up for the space that is taken back before it. -/
theorem length_le_add (hg : g.kind.isGlued → g.text ≠ []) :
    acc.length ≤ (add style acc g).length := by
  have hkept := length_le_kept acc g
  rw [add_eq, List.length_append, List.length_append, length_gap]
  cases hglued : g.kind.isGlued with
  | true =>
    have htext := List.length_pos_iff.mpr (hg hglued)
    rw [spelled_of_isGlued hglued]
    omega
  | false =>
    rw [if_neg Bool.false_ne_true]
    omega

theorem length_le_foldl_add (hg : ∀ g ∈ gs, g.kind.isGlued → g.text ≠ []) :
    acc.length ≤ (gs.foldl (add style) acc).length := by
  induction gs generalizing acc with
  | nil => exact Nat.le_refl _
  | cons g gs ih =>
    exact Nat.le_trans (length_le_add (hg g List.mem_cons_self))
      (ih fun k hk => hg k (List.mem_cons_of_mem _ hk))

/-- If every segment makes up for the space before it, the most room is needed at the end. -/
theorem peak_eq_length_foldl (hg : ∀ g ∈ gs, g.kind.isGlued → g.text ≠ []) (hne : gs ≠ []) :
    peak style acc gs = (gs.foldl (add style) acc).length := by
  induction gs generalizing acc with
  | nil => exact absurd rfl hne
  | cons g gs ih =>
    have hrest : ∀ k ∈ gs, k.kind.isGlued → k.text ≠ [] :=
      fun k hk => hg k (List.mem_cons_of_mem _ hk)
    rw [peak, List.foldl_cons]
    by_cases hgs : gs = []
    · subst hgs
      exact Nat.max_eq_left (Nat.zero_le _)
    · rw [ih hrest hgs]
      exact Nat.max_eq_right (length_le_foldl_add hrest)

/-- What stands there at the end is the text of the expression, and the space after it, if there is
one. -/
theorem length_foldl_add_concat (style : Style) (gs : List Segment) (last : Segment) :
    ((gs ++ [last]).foldl (add style) []).length =
      (laid style (gs ++ [last])).length + if last.kind.isGlued then 0 else 1 := by
  unfold laid
  rw [laidFrom_concat, List.foldl_append, List.foldl_cons, List.foldl_nil, add_eq,
    List.length_append, length_gap]

/-! ## Segments that do not fit -/

/-- A segment is not placed if the text after it does not fit. -/
theorem stopsFull_place (hf : b.capacity < pre.length + (add style acc g).length) :
    StopsFull pre (place style pre.length g) (b.holding (pre ++ acc)) := by
  have hne : spacedWrites style g ≠ [] :=
    List.append_ne_nil_of_left_ne_nil (Segment.writes_ne_nil style g) _
  have hwrites : b.capacity <
      (pre ++ kept acc g).length + (spacedWrites style g).flatten.length := by
    rwa [← List.length_append, append_flatten_spacedWrites, List.length_append]
  obtain ⟨left, hstop, hlen⟩ := (stopsFull_writeAll hne hwrites).of_append
  refine ⟨left, (place_eq b pre acc g).trans hstop, Nat.le_trans hlen ?_⟩
  have hkept := length_kept_le acc g
  simp only [size_holding, capacity_holding, List.length_append]
  omega

end Layout

namespace Store

open Buffer Layout

variable {s : Store} {head : Option Handle} {hs : List Handle} {gs : List Segment} {style : Style}
  {last : Segment}

theorem stopsFull_placeAll (hg : hs.map s.get? = gs.map some) (b : Buffer) (pre acc : Bytes)
    (separated : Bool) (hne : gs ≠ []) (hf : b.capacity < pre.length + peak style acc gs) :
    StopsFull pre (s.placeAll style pre.length separated hs) (b.holding (pre ++ acc)) := by
  induction hs generalizing gs acc separated with
  | nil => exact absurd (List.map_eq_nil_iff.mp hg.symm) hne
  | cons h hs ih =>
    cases gs with
    | nil => exact absurd rfl hne
    | cons g gs =>
      obtain ⟨hget, hg⟩ := List.cons.inj hg
      rw [peak] at hf
      unfold placeAll
      rw [hget]
      show StopsFull pre (place style pre.length g >>= fun _ =>
        s.placeAll style pre.length (!g.kind.isGlued) hs) _
      by_cases hfits : pre.length + (add style acc g).length ≤ b.capacity
      · -- it is one of the other segments that does not fit
        have hne' : gs ≠ [] := by
          rintro rfl
          rw [peak] at hf
          omega
        exact .bind_of_ok (place_holding b hfits) (by rwa [List.length_append])
          (ih hg _ _ hne' (by omega))
      · exact (stopsFull_place (by omega)).bind

/-- An expression that does not fit at some moment is not written in full. -/
theorem stopsFull_layOut (he : s.IsExpression head gs) (style : Style) (b : Buffer) (hne : gs ≠ [])
    (hf : b.capacity < b.size + peak style [] gs) :
    StopsFull b.toList (s.layOut head style) b := by
  obtain ⟨hs, hl, hg⟩ := he
  rw [← length_toList] at hf
  obtain ⟨left, hstop, hlen⟩ := (stopsFull_placeAll hg b b.toList [] false hne hf).bind
  rw [List.append_nil, holding_toList] at hlen
  exact ⟨left, (layOut_eq hl style b).trans hstop, hlen⟩

/-- **An expression is written alike wherever it begins.**  If the call returns, it has appended the
text of the expression; if it stops, what was there before is still there, within the capacity.
Which of the two happens depends on the room that is left, and on nothing else of the buffer. -/
theorem layOut_anywhere (he : s.IsExpression head gs) (style : Style) :
    ∃ text need, s.expression head style = .ok text ∧ ∀ b : Buffer,
      (∀ n b', s.layOut head style b = .ok n b' →
        n = text.length ∧ b'.toList = b.toList ++ text ∧ b'.capacity = b.capacity) ∧
      (∀ f b', s.layOut head style b = .error f b' →
        f = .full ∧ b.toList <+: b'.toList ∧ b'.capacity = b.capacity ∧
          (b.size ≤ b.capacity → b'.size ≤ b'.capacity)) ∧
      (b.size ≤ b.capacity →
        ((∃ n b', s.layOut head style b = .ok n b') ↔ b.size + need ≤ b.capacity)) := by
  refine ⟨laid style gs, peak style [] gs, expression_eq he, fun b => ?_⟩
  by_cases hf : gs = [] ∨ b.size + peak style [] gs ≤ b.capacity
  · have hok := layOut_of_peak_le he style b hf
    refine ⟨fun n b' hrun => ?_, fun f b' hrun => ?_, fun hb => iff_of_true ⟨_, _, hok⟩ ?_⟩
    · cases hok.symm.trans hrun
      exact ⟨rfl, toList_holding _ _, rfl⟩
    · cases hok.symm.trans hrun
    · rcases hf with rfl | hf
      · exact hb
      · exact hf
  · obtain ⟨hne, hfull⟩ := not_or.mp hf
    have hstop := stopsFull_layOut he style b hne (Nat.lt_of_not_le hfull)
    refine ⟨fun n b' hrun => absurd hrun hstop.not_ok, fun f b' => hstop.of_error,
      fun hb => iff_of_false ?_ hfull⟩
    rintro ⟨n, b', hrun⟩
    exact hstop.not_ok hrun

/-- A minus and a number. -/
def minusTwo : Store where
  cells := #[⟨some (.ofText ['-'] .minus), some 1, none⟩,
    ⟨some (.ofText ['2'] .number), none, none⟩]

theorem isExpression_minusTwo :
    minusTwo.IsExpression (some 0) [.ofText ['-'] .minus, .ofText ['2'] .number] :=
  ⟨[0, 1], ⟨rfl, rfl, rfl, rfl, rfl⟩, rfl⟩

/-- A buffer that holds a minus and a space. -/
def afterMinus (capacity : Nat) : Buffer := { capacity, bytes := (utf8 ['-', ' ']).toArray }

/-- The minus is a sign after another minus too; with a byte less the space after the number, which
would be taken back, does not fit any more. -/
theorem layOut_minusTwo :
    (∃ b', minusTwo.layOut (some 0) {} (afterMinus 5) = .ok 2 b' ∧
      b'.toList = utf8 "- -2".toList) ∧
    ∃ b', minusTwo.layOut (some 0) {} (afterMinus 4) = .error .full b' ∧
      utf8 ['-', ' '] <+: b'.toList ∧ b'.size ≤ b'.capacity := by
  have hrun : minusTwo.expression (some 0) {} = .ok (utf8 ['-', '2']) := rfl
  obtain ⟨text, need, htext, hall⟩ := layOut_anywhere isExpression_minusTwo {}
  obtain rfl : utf8 ['-', '2'] = text := Except.ok.inj (hrun.symm.trans htext)
  have hok : minusTwo.layOut (some 0) {} (afterMinus 5) =
      .ok 2 ((afterMinus 5).holding (utf8 "- -2".toList)) := rfl
  have hstop : minusTwo.layOut (some 0) {} (afterMinus 4) =
      .error .full ((afterMinus 4).holding (utf8 "- -2".toList)) := rfl
  obtain ⟨-, hlist, -⟩ := (hall _).1 _ _ hok
  obtain ⟨-, hkept, -, hsize⟩ := (hall _).2.1 _ _ hstop
  exact ⟨⟨_, hok, hlist⟩, _, hstop, hkept, hsize (by decide)⟩

/-- **The room that an expression takes.**  If no glued segment is without a text, an expression is
stopped by a lack of room exactly if its text does not fit, together with the space that is written
after its last segment before it is taken back. -/
theorem layOut_full_iff (he : s.IsExpression head gs) (hlast : gs.getLast? = some last)
    (hglued : ∀ g ∈ gs, g.kind.isGlued → g.text ≠ []) (style : Style) :
    ∃ text, s.expression head style = .ok text ∧ ∀ b : Buffer,
      (∃ b', s.layOut head style b = .error .full b') ↔
        (b.capacity : Int) - b.size < text.length + if last.kind.isGlued then 0 else 1 := by
  obtain ⟨init, rfl⟩ := List.getLast?_eq_some_iff.mp hlast
  have hne : init ++ [last] ≠ [] := List.append_ne_nil_of_right_ne_nil init (List.cons_ne_nil _ _)
  have hpeak : peak style [] (init ++ [last]) =
      (laid style (init ++ [last])).length + if last.kind.isGlued then 0 else 1 :=
    (peak_eq_length_foldl hglued hne).trans (length_foldl_add_concat style init last)
  refine ⟨_, expression_eq he, fun b => ?_⟩
  have hroom : (b.capacity : Int) - b.size <
      (laid style (init ++ [last])).length + (if last.kind.isGlued then 0 else 1 : Int) ↔
        b.capacity < b.size + peak style [] (init ++ [last]) := by
    rw [hpeak]
    split <;> omega
  rw [hroom]
  constructor
  · rintro ⟨b', hrun⟩
    by_contra hf
    rw [layOut_of_peak_le he style b (.inr (Nat.le_of_not_lt hf))] at hrun
    cases hrun
  · intro hf
    obtain ⟨left, hstop, -⟩ := stopsFull_layOut he style b hne hf
    exact ⟨_, hstop⟩

/-- An axis name that ends in a space, between a name and a slash. -/
def spacedAxis : Store where
  cells := #[⟨some (.ofText ['x'] .bare), some 1, none⟩,
    ⟨some (.ofText ['a', ' '] .axisName), some 2, none⟩, ⟨some (.ofText ['/'] .slash), none, none⟩]

theorem isExpression_spacedAxis : spacedAxis.IsExpression (some 0)
    [.ofText ['x'] .bare, .ofText ['a', ' '] .axisName, .ofText ['/'] .slash] :=
  ⟨[0, 1, 2], ⟨rfl, rfl, rfl, rfl, rfl, rfl, rfl⟩, rfl⟩

/-- A name, an axis name and a slash take five bytes, one more than their text. -/
theorem layOut_full_spacedAxis :
    (∀ g ∈ [Segment.ofText ['x'] .bare, .ofText ['a', ' '] .axisName, .ofText ['/'] .slash],
      g.kind.isGlued → g.text ≠ []) ∧
    ∀ b : Buffer, (∃ b', spacedAxis.layOut (some 0) {} b = .error .full b') ↔
      (b.capacity : Int) - b.size < 5 := by
  have hglued : ∀ g ∈ [Segment.ofText ['x'] .bare, .ofText ['a', ' '] .axisName,
      .ofText ['/'] .slash], g.kind.isGlued → g.text ≠ [] := by decide
  have hrun : spacedAxis.expression (some 0) {} = .ok (utf8 ['x', ' ', 'a', '/']) := rfl
  obtain ⟨text, htext, hall⟩ := layOut_full_iff isExpression_spacedAxis rfl hglued {}
  obtain rfl : utf8 ['x', ' ', 'a', '/'] = text := Except.ok.inj (hrun.symm.trans htext)
  exact ⟨hglued, hall⟩

end Store

end XPathAssembly
