import XPathAssembly.Assembly.Build
import XPathAssembly.Proofs.Assembly.Input
import XPathAssembly.Proofs.Store.Rows
import XPathAssembly.Proofs.Token

/-!
# Building the chain of a well-formed input

The calls that build a chain meet no fault, since their conditions are what reading has checked.  Of
each call it is said which segments it adds and how the trees of the store change.

    buildExpression ts s = .ok hs.head? s' ∧ s'.Planted (update T hs.head? (row hs)) ∧
      s.Added hs (segmentsOf ts) s'                                       (buildExpression_spec)

All expressions stand in one store.  That they have no segment in common is kept by the loop over
them: the rows that are built stay, and a new row has new segments only (`buildExpressions_spec`).
-/

namespace XPathAssembly

/-! ## Segments of tokens -/

namespace Assembly.Token

variable {t : Token}

/-- The segment of a token.  A quoted literal is decoded between its marks, a statement terminator
has none, and all other tokens are taken as they stand. -/
def segment? (t : Token) : Option Segment :=
  match t.kind with
  | .eos => none
  | .quoted => some (.ofBytes (Escape.decode t.text.tail.dropLast) .quoted)
  | kind => some (.ofBytes (utf8 t.text) kind)

theorem segment?_eq_none_iff : t.segment? = none ↔ t.kind = .eos := by
  unfold segment?
  cases t.kind <;> simp

/-- The whole text of a well-formed token may be made a segment. -/
theorem WellFormed.isValid (ht : t.WellFormed) :
    XPathAssembly.Token.IsValid t.text ⟨0, t.text.length⟩ t.kind where
  start_nonneg := Int.le_refl 0
  start_le := Int.natCast_nonneg _
  stop_le := Int.le_refl _
  delimited hq := by
    obtain ⟨q, inner, hm, he⟩ := ht hq
    have hlen : t.text.length = inner.length + 2 := by simp [he]
    have hlast : ((t.text.length : Int) - 1).toNat = inner.length + 1 := by omega
    refine ⟨by show 2 ≤ (t.text.length : Int) - 0; omega, q, hm, by simp [he], ?_⟩
    rw [hlast, he]
    simp

theorem slice_inner (t : Text) :
    XPathAssembly.Token.slice t (0 + 1) (t.length - 1) = t.tail.dropLast := by
  rw [XPathAssembly.Token.slice, ← List.dropLast_eq_take, List.drop_one]
  cases t with
  | nil => rfl
  | cons c rest => cases rest <;> rfl

theorem slice_whole (t : Text) : XPathAssembly.Token.slice t 0 t.length = t := by
  rw [XPathAssembly.Token.slice, List.take_length, List.drop_zero]

theorem WellFormed.segment?_eq (ht : t.WellFormed) :
    XPathAssembly.Token.segment? t.text ⟨0, t.text.length⟩ t.kind = .ok t.segment? := by
  rw [XPathAssembly.Token.segment?_of_isValid ht.isValid]
  unfold segment? XPathAssembly.Token.taken?
  simp only [Int.toNat_zero, Int.toNat_natCast, slice_inner, slice_whole]
  rfl

theorem WellFormed.insertToken_eq (ht : t.WellFormed) :
    Store.insertToken t.text ⟨0, t.text.length⟩ t.kind =
      match t.segment? with
      | none => pure none
      | some g => some <$> Store.insert g := by
  unfold Store.insertToken
  rw [ht.segment?_eq]
  cases t.segment? <;> rfl

end Assembly.Token

/-! ## Building -/

namespace Assembly

open Store

variable {t : Token} {ts : List Token} {es : List (List Token)} {s : Store}
  {T : Option Handle → Tree} {hss : List (List Handle)}

/-- The segments of an expression. -/
def segmentsOf (ts : List Token) : List Segment := ts.filterMap Token.segment?

theorem insertToken_spec (hp : s.Planted T) (ht : t.WellFormed) :
    ∃ h s', Store.insertToken t.text ⟨0, t.text.length⟩ t.kind s = .ok h s' ∧
      s'.Planted (Function.update T h (Tree.row h.toList)) ∧
      s.Added h.toList t.segment?.toList s' := by
  rw [ht.insertToken_eq]
  cases t.segment? with
  | none =>
    have hsame : Function.update T none (Tree.row []) = T :=
      Function.update_eq_self_iff.mpr hp.inHand.symm
    refine ⟨none, s, rfl, ?_, (Preserved.refl s).added⟩
    show s.Planted (Function.update T none (Tree.row []))
    rw [hsame]
    exact hp
  | some g =>
    obtain ⟨h, s', hrun, hi, hs'⟩ := insert_spec hp.sound g
    exact ⟨some h, s', Call.map_of_ok _ _ _ some hrun, hp.inserted hi hs', hi.added⟩

/-- Each token that has a segment is a tree of its own. -/
theorem insertTokens_spec (hp : s.Planted T) (ht : ∀ t ∈ ts, t.WellFormed) :
    ∃ hs s' T', insertTokens ts s = .ok hs s' ∧ s'.Planted T' ∧ s.Added hs (segmentsOf ts) s' ∧
      (∀ h ∈ hs, T' (some h) = Tree.row [h]) ∧ ∀ p, p ∉ hs.map some → T' p = T p := by
  induction ts generalizing s T with
  | nil => exact ⟨[], s, T, rfl, hp, (Preserved.refl s).added, nofun, fun _ _ => rfl⟩
  | cons t ts ih =>
    obtain ⟨ht, hts⟩ := List.forall_mem_cons.mp ht
    obtain ⟨h, s1, hrun, hp1, ha1⟩ := insertToken_spec hp ht
    obtain ⟨hs, s', T', hrun', hp', ha', hrow, hkept⟩ := ih hp1 hts
    have hseg : segmentsOf (t :: ts) = t.segment?.toList ++ segmentsOf ts := by
      unfold segmentsOf
      rw [List.filterMap_cons]
      cases t.segment? <;> rfl
    refine ⟨h.toList ++ hs, s', T', ?_, hp', hseg ▸ ha1.append ha', ?_, ?_⟩
    · unfold insertTokens
      rw [Call.bind_apply, hrun]
      show (insertTokens ts >>= fun hs => pure (h.toList ++ hs)) s1 = _
      rw [Call.bind_apply, hrun']
      rfl
    · intro k hk
      rcases List.mem_append.mp hk with hk | hk
      · -- The first segment is live when the others are inserted, so it is none of them.
        have hne : some k ∉ hs.map some := by
          intro hm
          obtain ⟨k', hin, he⟩ := List.mem_map.mp hm
          obtain rfl := Option.some.inj he
          exact ha'.not_mem (ha1.isLive _ hk) hin
        obtain rfl : h = some k := Option.mem_toList.mp hk
        rw [hkept _ hne, Function.update_self]
        rfl
      · exact hrow k hk
    · intro p hm
      rw [List.map_append, List.mem_append, not_or] at hm
      rw [hkept p hm.2]
      by_cases he : p = h
      · cases h with
        | none => rw [he, Function.update_self, hp.inHand]; rfl
        | some k => exact absurd (List.mem_singleton.mpr he) hm.1
      · exact Function.update_of_ne he ..

/-- The segments of an expression are one row. -/
theorem buildExpression_spec (hp : s.Planted T) (ht : ∀ t ∈ ts, t.WellFormed) :
    ∃ hs s', buildExpression ts s = .ok hs.head? s' ∧
      s'.Planted (Function.update T hs.head? (Tree.row hs)) ∧ s.Added hs (segmentsOf ts) s' := by
  obtain ⟨hs, s1, T1, hrun, hp1, ha, hrow, hkept⟩ := insertTokens_spec hp ht
  have hlive : hs.all s1.isLive = true := List.all_eq_true.mpr ha.isLive
  have hos : (hs.map some).Nodup := ha.nodup.map fun _ _ => Option.some.inj
  have hnone : none ∉ hs.map some := by simp
  have htrees : (hs.map some).map T1 = hs.map fun h => Tree.row [h] := by
    rw [List.map_map]
    exact List.map_congr_left hrow
  have hheads : hs = (hs.map some).filterMap fun p => (T1 p).head? := by
    have hsome : ∀ h ∈ hs, (T1 (some h)).head? = some h := by
      intro h hh
      rw [hrow h hh]
      rfl
    rw [List.filterMap_map]
    exact ((List.filterMap_congr hsome).trans List.filterMap_some).symm
  obtain ⟨T2, s2, hext, hf, hs2, hgraft, hempty, hsame⟩ :=
    extendAll_spec (d := .next) hos hp1.forest hp1.sound hnone hheads
  rw [htrees, hp1.inHand] at hgraft
  have hrow2 : T2 none = Tree.row hs := hgraft.trans (Tree.foldl_row [] hs)
  have hrest : ∀ h, T2 (some h) = T (some h) := by
    intro h
    by_cases hm : some h ∈ hs.map some
    · obtain ⟨k, hk, he⟩ := List.mem_map.mp hm
      obtain rfl := Option.some.inj he
      rw [hempty _ hm, hp.vacant (ha.fresh _ hk)]
    · rw [hsame _ hm (Option.some_ne_none h), hkept _ hm]
  replace hext : extendAll .next none hs s1 = .ok ((Tree.row hs).ends .next) s2 := by
    rw [hp1.inHand, hrow2] at hext
    exact hext
  refine ⟨hs, s2, ?_, hp.settle hs2 hf hrow2 hrest, ha.preserved (preserved_of_extendAll hext)⟩
  unfold buildExpression
  simp only [Call.bind_apply, hrun, Call.get_apply, hlive, Bool.not_true, Bool.false_eq_true,
    if_false, Call.pure_apply, hext]
  rw [Tree.map_first_ends, Tree.head?_row]

/-- The expressions are rows below those that are there. -/
theorem buildExpressions_spec (hr : s.Rowed T hss) (ht : ∀ e ∈ es, ∀ t ∈ e, t.WellFormed) :
    ∃ kss s' T', buildExpressions es s = .ok (kss.map List.head?) s' ∧ s'.Rowed T' (hss ++ kss) ∧
      s.Preserved s' ∧
      List.Forall₂ (fun ks e => ks.map s'.get? = (segmentsOf e).map some) kss es := by
  induction es generalizing s T hss with
  | nil =>
    refine ⟨[], s, T, rfl, ?_, .refl s, .nil⟩
    rw [List.append_nil]
    exact hr
  | cons e es ih =>
    obtain ⟨hte, htes⟩ := List.forall_mem_cons.mp ht
    obtain ⟨ks, s1, hrun, hp1, ha⟩ := buildExpression_spec hr.toPlanted hte
    obtain ⟨kss, s', T', hrun', hr', hkept, hfound⟩ := ih (hr.append ha hp1) htes
    refine ⟨ks :: kss, s', T', ?_, ?_, ha.kept.trans hkept, .cons ?_ hfound⟩
    · unfold buildExpressions
      rw [Call.bind_apply, hrun]
      show (buildExpressions es >>= fun heads => pure (ks.head? :: heads)) s1 = _
      rw [Call.bind_apply, hrun']
      rfl
    · rw [List.append_assoc] at hr'
      exact hr'
    · rw [hkept.map_get? ha.isLive]
      exact ha.found

/-- If no row is empty, the rows are made a concatenation. -/
theorem concatenate_spec (hr : s.Rowed T hss) (hne : [] ∉ hss) :
    ∃ s', concatenate (hss.map List.head?) s = .ok (Tree.rows hss).head? s' ∧ s'.Sound ∧
      s'.Holds (Tree.rows hss).head? (Tree.rows hss) ∧ s.Preserved s' ∧
      ∀ k, k ∈ hss.flatten ↔ s'.isLive k := by
  have hos : (hss.map List.head?).Nodup := by
    rw [Tree.map_head?_eq hne]
    exact (hr.nodup.sublist (Tree.heads_sublist hss)).map fun _ _ => Option.some.inj
  have hnone : none ∉ hss.map List.head? := by
    rw [Tree.map_head?_eq hne]
    simp
  have htrees : (hss.map List.head?).map T = hss.map Tree.row := by
    rw [List.map_map]
    exact List.map_congr_left hr.row
  have hheads : (hss.map List.head?).filterMap id =
      (hss.map List.head?).filterMap fun p => (T p).head? := by
    refine List.filterMap_congr fun p hm => ?_
    obtain ⟨hs, hin, rfl⟩ := List.mem_map.mp hm
    rw [hr.row hs hin, Tree.head?_row]
    rfl
  have hchain : (hss.map List.head?).all s.isChain = true := by
    refine List.all_eq_true.mpr fun p hm => ?_
    obtain ⟨hs, hin, rfl⟩ := List.mem_map.mp hm
    have hh := hr.forest.holds hs.head?
    rw [hr.row hs hin, Tree.head?_row] at hh
    exact (hh.line .next).isChain
  obtain ⟨T', s', hext, hf, hs', hgraft, hempty, hsame⟩ :=
    extendAll_spec (d := .sibling) hos hr.forest hr.sound hnone hheads
  rw [htrees, hr.inHand] at hgraft
  have hrows : T' none = Tree.rows hss := hgraft.trans (Tree.foldl_rows [] hss)
  replace hext : extendAll .sibling none ((hss.map List.head?).filterMap id) s =
      .ok ((Tree.rows hss).ends .sibling) s' := by
    rw [hr.inHand, hrows] at hext
    exact hext
  refine ⟨s', ?_, hs', hrows ▸ hf.holds none, preserved_of_extendAll hext, fun k => ?_⟩
  · unfold concatenate
    simp only [Call.bind_apply, Call.get_apply, hchain, Bool.not_true, Bool.false_eq_true,
      if_false, Call.pure_apply, hext]
    rw [Tree.map_first_ends]
  · rw [← (Tree.handles_rows hss).mem_iff, ← hrows]
    refine ⟨hf.isLive, fun hl => ?_⟩
    obtain ⟨p, hp⟩ := hf.covers k hl
    cases p with
    | none => exact hp
    | some h =>
      have hno : T' (some h) = .empty := by
        by_cases hm : some h ∈ hss.map List.head?
        · exact hempty _ hm
        · rw [hsame _ hm (Option.some_ne_none h)]
          exact hr.other _ hm
      rw [hno] at hp
      cases hp

end Assembly

end XPathAssembly
