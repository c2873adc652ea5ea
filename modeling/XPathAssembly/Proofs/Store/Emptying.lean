import XPathAssembly.Assembly.Build
import XPathAssembly.Proofs.Store.Rows

/-!
# Emptying the store

A list of heads covers the store if each live segment is in one of the trees at the heads, and in
one only.  The chains are then discarded one after the other without a fault, and nothing is left:
every segment was removed, and none of them twice.

    s.Covers heads →
      ∃ hs s', discardAll heads s = .ok () s' ∧ s.Emptied hs s'     (discardAll_of_covers)
-/

namespace XPathAssembly

namespace Store

/-- `s'` is `s` without any of its live segments, which were removed in the order of `hs`. -/
structure Emptied (s : Store) (hs : List Handle) (s' : Store) : Prop
    extends Removed s hs s' where
  /-- No segment was removed twice. -/
  once : hs.Nodup
  /-- All of the live segments were removed. -/
  all : ∀ k : Handle, k ∈ hs ↔ s.isLive k
  nothing : s'.size = 0

/-- Each live segment is in the tree at one of the heads, and no segment is in two places. -/
structure Covers (s : Store) (heads : List (Option Handle)) : Prop where
  sound : s.Sound
  pends : ∃ hs, s.Pends (heads.flatMap Option.toList) hs ∧ ∀ k : Handle, k ∈ hs ↔ s.isLive k

section
variable {s s' s'' : Store} {hs hs' : List Handle} {pending : List Handle} {ts : List Tree}
  {head : Option Handle} {heads : List (Option Handle)} {t : Tree} {T : Option Handle → Tree}
  {hss : List (List Handle)} {g : Segment} {h k : Int}

/-! ## What is removed in turn -/

theorem Removed.refl (s : Store) : Removed s [] s :=
  ⟨rfl, rfl, nofun, fun _ _ _ => rfl⟩

theorem Removed.isLive (hr : Removed s hs s') (hk : k ∉ hs) : s'.isLive k = s.isLive k := by
  by_cases h0 : 0 ≤ k
  · exact isLive_congr (hr.kept k h0 hk)
  · unfold Store.isLive get?
    rw [if_neg h0, if_neg h0]

theorem Removed.append (hr : Removed s hs s') (hr' : Removed s' hs' s'') :
    Removed s (hs ++ hs') s'' where
  vacant := by rw [hr'.vacant, hr.vacant, List.reverse_append, List.append_assoc]
  size := hr'.size.trans hr.size
  dead k hk := by
    by_cases hk' : k ∈ hs'
    · exact hr'.dead k hk'
    · rw [hr'.isLive hk']
      exact hr.dead k ((List.mem_append.1 hk).resolve_right hk')
  kept k h0 hk := by
    rw [List.mem_append, not_or] at hk
    rw [hr'.kept k h0 hk.2, hr.kept k h0 hk.1]

theorem HoldsAll.removed (hh : s.HoldsAll pending ts) (hr : Removed s hs s')
    (hn : ∀ k ∈ ts.flatMap Tree.handles, k ∉ hs) : s'.HoldsAll pending ts :=
  hh.congr fun k hk =>
    have hl := hh.isLive k hk
    ⟨(hr.isLive (hn k hk)).trans hl,
      fun _ => link?_congr (hr.kept k (nonneg_of_isLive hl) (hn k hk))⟩

theorem discard_of_tree (ht : s.Holds head t) (hn : t.handles.Nodup) :
    ∃ s', discard head s = .ok () s' ∧ Removed s t.handles s' := by
  cases head with
  | none =>
    obtain rfl := holds_none_iff.1 ht
    exact ⟨s, rfl, .refl s⟩
  | some h =>
    obtain ⟨s', hrun⟩ := discard_of_holds ht hn
    obtain ⟨t', ht', -, hr⟩ := removed_of_discard (holds_some_iff.1 ht).1 hrun
    rw [ht.unique ht']
    exact ⟨s', hrun, hr⟩

/-- The chains at the heads are discarded one after the other. -/
theorem discardAll_of_pends (hp : s.Pends (heads.flatMap Option.toList) hs) :
    ∃ s', Assembly.discardAll heads s = .ok () s' ∧ Removed s hs s' := by
  obtain ⟨us, hall, rfl, hn⟩ := hp
  induction heads generalizing s us with
  | nil =>
    cases hall
    exact ⟨s, rfl, .refl s⟩
  | cons head heads ih =>
    rw [List.flatMap_cons] at hall
    obtain ⟨t, ts, ht, hts, hus⟩ := hall.of_append
    rw [hus] at hn ⊢
    obtain ⟨hnt, hnts, hdisjoint⟩ := List.nodup_append.1 hn
    obtain ⟨s1, hrun, hr⟩ := discard_of_tree ht hnt
    obtain ⟨s', hrun', hr'⟩ :=
      ih ts (hts.removed hr fun k hk hk' => hdisjoint k hk' k hk rfl) hnts
    refine ⟨s', ?_, hr.append hr'⟩
    show (discard head >>= fun _ => Assembly.discardAll heads) s = _
    rw [Call.bind_apply, hrun]
    exact hrun'

/-- **Nothing is left** when the chains that cover the store are discarded. -/
theorem discardAll_of_covers (hc : s.Covers heads) :
    ∃ hs s', Assembly.discardAll heads s = .ok () s' ∧ s.Emptied hs s' := by
  obtain ⟨hs, hp, hall⟩ := hc.pends
  obtain ⟨s', hrun, hr⟩ := discardAll_of_pends hp
  have hn : hs.Nodup := by
    obtain ⟨-, -, -, hn⟩ := hp
    exact hn
  refine ⟨hs, s', hrun, { toRemoved := hr, once := hn, all := hall, nothing := ?_ }⟩
  have hsize := hc.sound.size_eq hn hall
  unfold size at hsize ⊢
  rw [hr.vacant, hr.size, List.length_append, List.length_reverse]
  omega

/-! ## Covers -/

theorem covers_of_holds (hs : s.Sound) (ht : s.Holds (some h) t) (hn : t.handles.Nodup)
    (hall : ∀ k : Handle, k ∈ t.handles ↔ s.isLive k) : s.Covers [some h] :=
  ⟨hs, _, pends_singleton_iff.2 ⟨t, ht, rfl, hn⟩, hall⟩

/-- A new segment is covered by its own handle. -/
theorem Covers.inserted (hc : s.Covers heads) (hi : Inserted s g h s') (hs' : s'.Sound) :
    s'.Covers (heads ++ [some h]) := by
  obtain ⟨-, _, ⟨us, hus, rfl, hn⟩, hall⟩ := hc
  have hfresh : h ∉ us.flatMap Tree.handles := by
    rw [hall, hi.fresh]
    exact Bool.false_ne_true
  have hnew : s'.Holds (some h) (.node h .empty .empty) :=
    ⟨rfl, hi.isLive, hi.unlinked .sibling, hi.unlinked .next⟩
  have hlist : (us ++ [Tree.node h .empty .empty]).flatMap Tree.handles =
      us.flatMap Tree.handles ++ [h] := by
    rw [List.flatMap_append]
    rfl
  refine ⟨hs', _, ⟨us ++ [Tree.node h .empty .empty], ?_, hlist, ?_⟩, fun k => ?_⟩
  · rw [List.flatMap_append]
    exact List.rel_append (hus.sameOff hi.kept hfresh) (.cons hnew .nil)
  · refine List.nodup_append.2 ⟨hn, List.nodup_singleton h, ?_⟩
    rintro k hk _ hk' rfl
    exact hfresh (List.mem_singleton.1 hk' ▸ hk)
  · rw [List.mem_append, List.mem_singleton, hall]
    by_cases hk : k = h
    · rw [hk]
      exact iff_of_true (.inr rfl) hi.isLive
    · rw [hi.kept.isLive hk]
      exact or_iff_left hk

/-- Rows are covered by their first segments. -/
theorem Rowed.covers (hr : s.Rowed T hss) : s.Covers (hss.map List.head?) := by
  have hrows (kss : List (List Handle)) (hk : ∀ ks ∈ kss, s.Holds ks.head? (Tree.row ks)) :
      ∃ us, s.HoldsAll ((kss.map List.head?).flatMap Option.toList) us ∧
        us.flatMap Tree.handles = kss.flatten := by
    induction kss with
    | nil => exact ⟨[], .nil, rfl⟩
    | cons ks kss ih =>
      obtain ⟨hks, hkss⟩ := List.forall_mem_cons.1 hk
      obtain ⟨us, hus, hlist⟩ := ih hkss
      obtain ⟨us', hus', hlist'⟩ := HoldsAll.append hks hus
      refine ⟨us', hus', ?_⟩
      rw [hlist', hlist, Tree.handles_row]
      rfl
  have hheld : ∀ hs ∈ hss, s.Holds hs.head? (Tree.row hs) := by
    intro hs hm
    have hh := hr.forest.holds hs.head?
    rw [hr.row hs hm, Tree.head?_row] at hh
    exact hh
  obtain ⟨us, hus, hlist⟩ := hrows hss hheld
  exact ⟨hr.sound, hss.flatten, ⟨us, hus, hlist, hr.nodup⟩, hr.isLive_iff⟩

end

end Store

end XPathAssembly
