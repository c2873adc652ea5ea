import XPathAssembly.Proofs.Store.Graft
import XPathAssembly.Proofs.Store.Teardown
import Mathlib.Logic.Function.Basic

/-!
# Forests

A forest gives each owner the tree of its chain, so that each live segment is in the tree of one
owner and there only once.  Inserting a segment gives an owner without a tree a new one, joining
two chains grafts the tree of one owner onto that of another, which is left without, and discarding
takes a tree away.  A store that is a forest stays one by each of these, and the calls meet no
fault.

    s.Forest T → … → ∃ e s', extend d ((T o).ends d) h s = .ok e s' ∧
      s'.Forest (joined T d o o') ∧ …                                    (extend_spec)
-/

namespace XPathAssembly

namespace Store

variable {ι : Type} {s s' : Store} {T : ι → Tree} {d : Direction} {o o' p : ι}
  {h : Int} {e : Ends}

/-! ## Definitions -/

/-- The tree of each owner is held, and each live segment is in one of them, once. -/
structure Forest (s : Store) (T : ι → Tree) : Prop where
  holds : ∀ o, s.Holds (T o).head? (T o)
  nodup : ∀ o, (T o).handles.Nodup
  disjoint : ∀ o o' h, h ∈ (T o).handles → h ∈ (T o').handles → o = o'
  covers : ∀ h, s.isLive h → ∃ o, h ∈ (T o).handles

section
variable [DecidableEq ι]

/-- The trees after the one of `o'` was grafted onto that of `o`. -/
def joined (T : ι → Tree) (d : Direction) (o o' : ι) : ι → Tree :=
  Function.update (Function.update T o ((T o).graft d (T o'))) o' .empty

/-! ## Lemmas -/

theorem joined_of (hne : o ≠ o') : joined T d o o' o = (T o).graft d (T o') := by
  unfold joined
  rw [Function.update_of_ne hne, Function.update_self]

@[simp] theorem joined_emptied : joined T d o o' o' = .empty := by
  unfold joined
  rw [Function.update_self]

theorem joined_of_ne (h1 : p ≠ o) (h2 : p ≠ o') : joined T d o o' p = T p := by
  unfold joined
  rw [Function.update_of_ne h2, Function.update_of_ne h1]

theorem mem_joined_iff (hne : o ≠ o') : h ∈ (joined T d o o' p).handles ↔
    (p = o ∧ h ∈ (T o').handles) ∨ (p ≠ o' ∧ h ∈ (T p).handles) := by
  by_cases h1 : p = o
  · subst h1
    rw [joined_of hne, (Tree.handles_graft _ _).mem_iff, List.mem_append]
    simp [hne, or_comm]
  · by_cases h2 : p = o'
    · subst h2
      simp [h1, Tree.handles]
    · rw [joined_of_ne h1 h2]
      simp [h1, h2]

end

theorem forest_empty : Forest {} (fun _ : ι => .empty) where
  holds _ := rfl
  nodup _ := List.nodup_nil
  disjoint _ _ _ hm := by cases hm
  covers h hl := by
    have h0 := nonneg_of_isLive hl
    have hlt := lt_size_of_isLive hl
    simp only [List.size_toArray, List.length_nil] at hlt
    omega

namespace Forest

theorem isLive (hf : s.Forest T) (hm : h ∈ (T o).handles) : s.isLive h :=
  (hf.holds o).isLive h hm

/-- A link of a live segment leads to a live one. -/
theorem isLive_of_link? (hf : s.Forest T) (hl : s.isLive h) {k : Handle}
    (hk : s.link? d h = some k) : s.isLive k := by
  obtain ⟨o, ho⟩ := hf.covers h hl
  obtain ⟨path, hp⟩ := Tree.mem_handles_iff.mp ho
  rw [← (hf.holds o).trace_eq] at hp
  have hp' : s.trace (T o).head? (path ++ [d]) = some k := by
    rw [trace_append, hp]
    exact hk
  rw [(hf.holds o).trace_eq] at hp'
  exact hf.isLive (Tree.mem_handles_iff.mpr ⟨_, hp'⟩)

variable [DecidableEq ι]

/-- A new segment is the tree of an owner that had none. -/
theorem inserted (hf : s.Forest T) {g : Segment} (hi : Inserted s g h s') (ho : T o = .empty) :
    s'.Forest (Function.update T o (.node h .empty .empty)) := by
  have hnot : ∀ p, h ∉ (T p).handles := fun _ hm => hi.ne_of_isLive (hf.isLive hm) rfl
  have hmem : ∀ p k, k ∈ (Function.update T o (.node h .empty .empty) p).handles ↔
      (p = o ∧ k = h) ∨ k ∈ (T p).handles := by
    intro p k
    by_cases hp : p = o
    · subst hp; simp [ho, Tree.handles]
    · simp [hp]
  refine ⟨fun p => ?_, fun p => ?_, fun p q k hp hq => ?_, fun k hk => ?_⟩
  · by_cases hp : p = o
    · subst hp
      rw [Function.update_self]
      exact ⟨rfl, hi.isLive, hi.unlinked .sibling, hi.unlinked .next⟩
    · rw [Function.update_of_ne hp]
      exact (hf.holds p).sameOff hi.kept (hnot p)
  · by_cases hp : p = o
    · subst hp
      rw [Function.update_self]
      exact List.nodup_singleton h
    · rw [Function.update_of_ne hp]
      exact hf.nodup p
  · rcases (hmem p k).mp hp with ⟨hpo, rfl⟩ | hp'
    · rcases (hmem q k).mp hq with ⟨hqo, -⟩ | hq'
      · rw [hpo, hqo]
      · exact absurd hq' (hnot q)
    · rcases (hmem q k).mp hq with ⟨-, rfl⟩ | hq'
      · exact absurd hp' (hnot p)
      · exact hf.disjoint p q k hp' hq'
  · by_cases he : k = h
    · exact ⟨o, (hmem o k).mpr (.inl ⟨rfl, he⟩)⟩
    · rw [hi.kept.isLive he] at hk
      obtain ⟨p, hp⟩ := hf.covers k hk
      exact ⟨p, (hmem p k).mpr (.inr hp)⟩

/-- What remains to be shown of a join is that the trees are held. -/
theorem joined_of_holds (hf : s.Forest T) (hne : o ≠ o') (hl : ∀ k : Int, s'.isLive k = s.isLive k)
    (hh : ∀ p, s'.Holds (joined T d o o' p).head? (joined T d o o' p)) :
    s'.Forest (joined T d o o') := by
  refine ⟨hh, fun p => ?_, fun p q k hp hq => ?_, fun k hk => ?_⟩
  · by_cases h1 : p = o
    · subst h1
      rw [joined_of hne, (Tree.handles_graft _ _).nodup_iff, List.nodup_append]
      refine ⟨hf.nodup p, hf.nodup o', fun a ha b hb he => hne ?_⟩
      exact hf.disjoint p o' a ha (he ▸ hb)
    · by_cases h2 : p = o'
      · rw [h2, joined_emptied]
        exact List.nodup_nil
      · rw [joined_of_ne h1 h2]
        exact hf.nodup p
  · rcases (mem_joined_iff hne).mp hp with ⟨hpo, hp'⟩ | ⟨hpo, hp'⟩
    · rcases (mem_joined_iff hne).mp hq with ⟨hqo, -⟩ | ⟨hqo, hq'⟩
      · rw [hpo, hqo]
      · exact absurd (hf.disjoint q o' k hq' hp') hqo
    · rcases (mem_joined_iff hne).mp hq with ⟨-, hq'⟩ | ⟨-, hq'⟩
      · exact absurd (hf.disjoint p o' k hp' hq') hpo
      · exact hf.disjoint p q k hp' hq'
  · rw [hl] at hk
    obtain ⟨p, hp⟩ := hf.covers k hk
    by_cases h2 : p = o'
    · exact ⟨o, (mem_joined_iff hne).mpr (.inl ⟨rfl, h2 ▸ hp⟩)⟩
    · exact ⟨p, (mem_joined_iff hne).mpr (.inr ⟨h2, hp⟩)⟩

/-- The link after the last segment of a line joins two trees. -/
theorem link (hf : s.Forest T) (hne : o ≠ o') (he : (T o).ends d = some e) :
    (s.withLink d e.last (T o').head?).Forest (joined T d o o') := by
  have hm := Tree.last_mem_handles he
  have h0 := nonneg_of_isLive (hf.isLive hm)
  refine hf.joined_of_holds hne (fun k => isLive_withLink h0) fun p => ?_
  by_cases h1 : p = o
  · subst h1
    obtain ⟨hfirst, hlast⟩ := Tree.ends_eq_some_iff.mp he
    have hhead : (joined T d p o' p).head? = (T p).head? := by
      rw [joined_of hne, Tree.head?_graft, hfirst]
      rfl
    rw [hhead, joined_of hne]
    refine (hf.holds p).graft (hf.nodup p) (hf.holds o') (fun k hk hk' => hne ?_) hlast
    exact hf.disjoint p o' k hk hk'
  · by_cases h2 : p = o'
    · rw [h2, joined_emptied]
      rfl
    · rw [joined_of_ne h1 h2]
      exact (hf.holds p).sameOff (sameOff_withLink h0) fun hm' => h1 (hf.disjoint p o _ hm' hm)

/-- An owner without a tree takes over that of another. -/
theorem move (hf : s.Forest T) (hne : o ≠ o') (ho : T o = .empty) :
    s.Forest (joined T d o o') := by
  refine hf.joined_of_holds hne (fun k => rfl) fun p => ?_
  by_cases h1 : p = o
  · subst h1
    rw [joined_of hne, ho]
    exact hf.holds o'
  · by_cases h2 : p = o'
    · rw [h2, joined_emptied]
      rfl
    · rw [joined_of_ne h1 h2]
      exact hf.holds p

/-- The segments of a tree are removed, and its owner has none any more. -/
theorem removed (hf : s.Forest T) (hr : Removed s (T o).handles s') :
    s'.Forest (Function.update T o .empty) := by
  have hmem : ∀ p k, k ∈ (Function.update T o .empty p).handles ↔ p ≠ o ∧ k ∈ (T p).handles := by
    intro p k
    by_cases hp : p = o
    · subst hp; simp [Tree.handles]
    · simp [hp]
  refine ⟨fun p => ?_, fun p => ?_, fun p q k hp hq => ?_, fun k hk => ?_⟩
  · by_cases hp : p = o
    · subst hp
      rw [Function.update_self]
      rfl
    · rw [Function.update_of_ne hp]
      refine (hf.holds p).congr fun k hk => ?_
      have hl := hf.isLive hk
      have hc := hr.kept k (nonneg_of_isLive hl) fun hm => hp (hf.disjoint p o k hk hm)
      exact ⟨(isLive_congr hc).trans hl, fun d => link?_congr hc⟩
  · by_cases hp : p = o
    · subst hp
      rw [Function.update_self]
      exact List.nodup_nil
    · rw [Function.update_of_ne hp]
      exact hf.nodup p
  · exact hf.disjoint p q k ((hmem p k).mp hp).2 ((hmem q k).mp hq).2
  · have hnot : k ∉ (T o).handles := fun hm => by
      rw [hr.dead k hm] at hk
      cases hk
    rw [isLive_congr (hr.kept k (nonneg_of_isLive hk) hnot)] at hk
    obtain ⟨p, hp⟩ := hf.covers k hk
    exact ⟨p, (hmem p k).mpr ⟨fun he => hnot (he ▸ hp), hp⟩⟩

end Forest

/-! ## Joining -/

section
variable [DecidableEq ι]

/-- The chain of one owner is attached to that of another. -/
theorem extend_spec (hf : s.Forest T) (hs : s.Sound) (hne : o ≠ o') (hh : (T o').head? = some h) :
    ∃ e s', extend d ((T o).ends d) h s = .ok e s' ∧ s'.Forest (joined T d o o') ∧ s'.Sound ∧
      ((T o).graft d (T o')).ends d = some e := by
  have hheld : s.Holds (some h) (T o') := hh ▸ hf.holds o'
  cases hends : (T o).ends d with
  | none =>
    have ho := Tree.ends_eq_none_iff.mp hends
    refine ⟨⟨h, s.last d h⟩, s, rfl, hf.move hne ho, hs, ?_⟩
    rw [ho]
    exact hheld.ends_eq
  | some e =>
    have hm := Tree.last_mem_handles hends
    have hlast := hf.isLive hm
    have hl := (holds_some_iff.mp hheld).1
    have hnot : e.last ∉ (T o').handles := fun hm' => hne (hf.disjoint o o' _ hm hm')
    have hconnect : connect d e.last (some h) s = .ok () (s.withLink d e.last (some h)) := by
      refine connect_eq_ok_iff.mpr ⟨hlast, ?_, rfl⟩
      rintro t ⟨⟩
      refine ⟨hl, fun hm' => hnot (Tree.mem_handles_of_mem_line (d := d) ?_)⟩
      rwa [(hheld.line d).walk_eq] at hm'
    have hoff : SameOff e.last s (s.withLink d e.last (some h)) :=
      sameOff_withLink (nonneg_of_isLive hlast)
    have hends' := Tree.ends_graft (d := d) (t := T o) (hheld.sameOff hoff hnot).ends_eq
    rw [(Tree.ends_eq_some_iff.mp hends).1] at hends'
    refine ⟨_, _, ?_, hh ▸ hf.link hne hends, hs.withLink hlast, hends'⟩
    show (do connect d e.last (some h); return ⟨e.first, (← get).last d h⟩ : Call Store Ends) s = _
    rw [Call.bind_apply, hconnect]
    rfl

/-- The chains of the owners `os`, in order and without those that have none, are attached to that
of `o`, and its tree is what their trees grafted one after the other make of it. -/
theorem extendAll_spec {os : List ι} {heads : List Handle} (hn : os.Nodup) (hf : s.Forest T)
    (hs : s.Sound) (ho : o ∉ os) (hheads : heads = os.filterMap fun p => (T p).head?) :
    ∃ T' s', extendAll d ((T o).ends d) heads s = .ok ((T' o).ends d) s' ∧ s'.Forest T' ∧ s'.Sound ∧
      T' o = (os.map T).foldl (Tree.graft d) (T o) ∧ (∀ p ∈ os, T' p = .empty) ∧
        ∀ p ∉ os, p ≠ o → T' p = T p := by
  induction os generalizing s T heads with
  | nil =>
    subst hheads
    exact ⟨T, s, rfl, hf, hs, rfl, nofun, fun _ _ _ => rfl⟩
  | cons q os ih =>
    obtain ⟨hq, hn⟩ := List.nodup_cons.mp hn
    obtain ⟨hne, ho⟩ := not_or.mp (List.mem_cons.not.mp ho)
    cases hh : (T q).head? with
    | none =>
      simp only [List.filterMap_cons, hh] at hheads
      obtain ⟨T', s', hrun, hf', hs', hgraft, hempty, hkept⟩ := ih hn hf hs ho hheads
      refine ⟨T', s', hrun, hf', hs', ?_, fun p hp => ?_, fun p hp hpo => ?_⟩
      · rw [List.map_cons, List.foldl_cons, Tree.head?_eq_none_iff.mp hh, Tree.graft_empty]
        exact hgraft
      · rcases List.mem_cons.mp hp with rfl | hp
        · rw [hkept p hq (Ne.symm hne)]
          exact Tree.head?_eq_none_iff.mp hh
        · exact hempty p hp
      · exact hkept p (fun hm => hp (List.mem_cons_of_mem _ hm)) hpo
    | some h =>
      simp only [List.filterMap_cons, hh] at hheads
      subst hheads
      obtain ⟨e, s1, hext, hf1, hs1, hends⟩ := extend_spec (d := d) hf hs hne hh
      rw [← joined_of hne] at hends
      have hsame : ∀ p ∈ os, joined T d o q p = T p := by
        intro p hp
        have hpo : p ≠ o := by rintro rfl; exact ho hp
        have hpq : p ≠ q := by rintro rfl; exact hq hp
        exact joined_of_ne hpo hpq
      have hheads : os.filterMap (fun p => (T p).head?) =
          os.filterMap fun p => (joined T d o q p).head? :=
        List.filterMap_congr fun p hp => congrArg Tree.head? (hsame p hp).symm
      obtain ⟨T', s', hrun, hf', hs', hgraft, hempty, hkept⟩ := ih hn hf1 hs1 ho hheads
      rw [hends] at hrun
      refine ⟨T', s', ?_, hf', hs', ?_, fun p hp => ?_, fun p hp hpo => ?_⟩
      · unfold extendAll
        rw [Call.bind_apply, hext]
        exact hrun
      · rw [hgraft, List.map_congr_left hsame, joined_of hne, List.map_cons, List.foldl_cons]
      · rcases List.mem_cons.mp hp with rfl | hp
        · rw [hkept p hq (Ne.symm hne), joined_emptied]
        · exact hempty p hp
      · obtain ⟨hpq, hpos⟩ := not_or.mp (List.mem_cons.not.mp hp)
        rw [hkept p hpos hpo, joined_of_ne hpo hpq]

/-! ## Discarding -/

/-- The chain of an owner is discarded without a fault. -/
theorem discard_spec (hf : s.Forest T) (hs : s.Sound) (o : ι) :
    ∃ s', discard (T o).head? s = .ok () s' ∧ s'.Forest (Function.update T o .empty) ∧
      s'.Sound := by
  cases hh : (T o).head? with
  | none =>
    rw [← Tree.head?_eq_none_iff.mp hh, Function.update_eq_self]
    exact ⟨s, rfl, hf, hs⟩
  | some h =>
    have hheld : s.Holds (some h) (T o) := hh ▸ hf.holds o
    obtain ⟨s', hd⟩ := discard_of_holds hheld (hf.nodup o)
    have hl := (holds_some_iff.mp hheld).1
    obtain ⟨t, ht, -, hr⟩ := removed_of_discard hl hd
    rw [ht.unique hheld] at hr
    exact ⟨s', hd, hf.removed hr, (rounds_discard hl).sound hs s' hd⟩

end

end Store

end XPathAssembly
