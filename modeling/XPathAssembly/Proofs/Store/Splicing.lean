import XPathAssembly.Chain
import XPathAssembly.Proofs.Store.Line

/-!
# Splicing lines

Chains are joined by one link each: the last segment of the line that is there gets the head of the
next line.  So the lines are put end to end, and nothing else in the store is changed, as long as
no segment is in two of them.

    s.Line d head hs for each head → no segment twice →
      extendAll d none heads s = .ok (Ends.of? hss.flatten) s' ∧
        s'.Line d … hss.flatten ∧ s.Relinked d tails s'             (extendAll_none_lines)
-/

namespace XPathAssembly

/-! ## Ends -/

namespace Ends

variable {hs ks : List Handle} {h : Handle}

/-- The first and the last of the handles, if there are any. -/
def of? (hs : List Handle) : Option Ends := hs.head?.map fun h => ⟨h, hs.getLastD h⟩

theorem map_first_of? (hs : List Handle) : (of? hs).map first = hs.head? := by
  unfold of?
  rw [Option.map_map]
  exact Option.map_id'

theorem of?_cons (h : Handle) (hs : List Handle) :
    of? (h :: hs) = some ⟨h, (h :: hs).getLastD h⟩ := rfl

theorem of?_append_cons (hs : List Handle) (k : Handle) (ks : List Handle) :
    of? (hs ++ k :: ks) = some ⟨hs.head?.getD k, (k :: ks).getLastD k⟩ := by
  cases hs with
  | nil => rfl
  | cons h hs => simp [of?, List.getLastD_eq_getLast?, List.getLast?_cons, List.getLast?_append]

theorem map_last_of? (hs : List Handle) : (of? hs).map last = hs.getLast? := by
  cases hs with
  | nil => rfl
  | cons h hs => simp [of?, List.getLastD_eq_getLast?, List.getLast?_cons]

end Ends

namespace Store

variable {s s' s'' : Store} {d e : Direction} {head : Option Handle} {k last : Handle}
  {hs ks tails tails' : List Handle} {heads : List (Option Handle)} {hss kss : List (List Handle)}

theorem tail_subset (hs : List Handle) : hs.getLast?.toList ⊆ hs :=
  fun _ hm => List.mem_of_getLast? (Option.mem_toList.mp hm)

/-! ## Stores that differ in links -/

/-- `s'` is `s` but for the links of direction `d` of the handles `tails`. -/
structure Relinked (s : Store) (d : Direction) (tails : List Handle) (s' : Store) : Prop where
  cells : s'.cells.size = s.cells.size
  vacant : s'.vacant = s.vacant
  found : ∀ k : Handle, s'.get? k = s.get? k
  kept : ∀ (e : Direction) (k : Int), 0 ≤ k → (e = d → k ∉ tails) → s'.link? e k = s.link? e k

theorem relinked_withLink {h : Int} {target : Option Handle} (hl : s.isLive h) (hm : h ∈ tails) :
    s.Relinked d tails (s.withLink d h target) where
  cells := size_cells_withLink
  vacant := vacant_withLink
  found _ := get?_withLink (nonneg_of_isLive hl)
  kept e k hk hn := by
    rw [link?_withLink hl hk, if_neg]
    rintro ⟨rfl, rfl⟩
    exact hn rfl hm

namespace Relinked

theorem refl (s : Store) (d : Direction) (tails : List Handle) : s.Relinked d tails s :=
  ⟨rfl, rfl, fun _ => rfl, fun _ _ _ _ => rfl⟩

theorem trans (hr : s.Relinked d tails s') (hr' : s'.Relinked d tails s'') :
    s.Relinked d tails s'' where
  cells := hr'.cells.trans hr.cells
  vacant := hr'.vacant.trans hr.vacant
  found k := (hr'.found k).trans (hr.found k)
  kept e k hk hn := (hr'.kept e k hk hn).trans (hr.kept e k hk hn)

theorem mono (hr : s.Relinked d tails s') (hsub : tails ⊆ tails') : s.Relinked d tails' s' where
  cells := hr.cells
  vacant := hr.vacant
  found := hr.found
  kept e k hk hn := hr.kept e k hk fun he hm => hn he (hsub hm)

theorem isLive (hr : s.Relinked d tails s') (k : Handle) : s'.isLive k = s.isLive k := by
  unfold Store.isLive
  rw [hr.found]

theorem size (hr : s.Relinked d tails s') : s'.size = s.size := by
  unfold Store.size
  rw [hr.cells, hr.vacant]

theorem sound (hr : s.Relinked d tails s') (hs : s.Sound) (hl : ∀ k ∈ tails, s.isLive k) :
    s'.Sound where
  nodup := by
    rw [hr.vacant]
    exact hs.nodup
  mem_vacant k := by
    rw [hr.vacant, hr.cells, hr.isLive]
    exact hs.mem_vacant k
  unlinked k e hk hd := by
    rw [hr.isLive] at hd
    rw [hr.kept e k hk fun _ hm => by rw [hl k hm] at hd; cases hd]
    exact hs.unlinked k e hk hd

/-- Lines of the other direction, and lines without any of the tails, stay. -/
theorem line (hr : s.Relinked d tails s') (hl : s.Line e head hs)
    (hn : e = d → List.Disjoint hs tails) : s'.Line e head hs :=
  hl.congr fun k hk =>
    have hlive := hl.isLive k hk
    ⟨(hr.isLive k).trans hlive,
      hr.kept e k (nonneg_of_isLive hlive) fun he hm => hn he hk hm⟩

theorem lines (hr : s.Relinked d tails s') (hl : List.Forall₂ (s.Line e) heads hss)
    (hn : e = d → List.Disjoint hss.flatten tails) : List.Forall₂ (s'.Line e) heads hss := by
  induction hl with
  | nil => exact .nil
  | cons hline _ ih =>
    exact .cons (hr.line hline fun he => (List.disjoint_append_left.mp (hn he)).1)
      (ih fun he => (List.disjoint_append_left.mp (hn he)).2)

end Relinked

/-! ## Two lines -/

/-- The link after the last segment of a line puts another line at its end. -/
theorem Line.splice (hl : s.Line d head hs) (hlast : hs.getLast? = some last)
    (hk : s.Line d (some k) ks) (hd : List.Disjoint hs ks) :
    (s.withLink d last (some k)).Line d head (hs ++ ks) := by
  have hn := hl.nodup
  obtain ⟨left, rfl⟩ := List.getLast?_eq_some_iff.mp hlast
  have hlive := hl.isLive last (by simp)
  have hr : s.Relinked d [last] (s.withLink d last (some k)) :=
    relinked_withLink hlive List.mem_cons_self
  have hks := hr.line hk fun _ => by simpa using fun hm => hd (by simp) hm
  clear hlast hd
  induction left generalizing head with
  | nil =>
    refine ⟨hl.1, (hr.isLive last).trans hlive, ?_⟩
    rw [link?_withLink_self hlive]
    exact hks
  | cons h left ih =>
    obtain ⟨hhead, hh, hrest⟩ := hl
    obtain ⟨hnot, hn⟩ := List.nodup_cons.mp hn
    refine ⟨hhead, (hr.isLive h).trans hh, ?_⟩
    rw [hr.kept d h (nonneg_of_isLive hh) fun _ hm => hnot (by simp [List.mem_singleton.mp hm])]
    exact ih hrest hn

/-- The line at `k` is attached to the one built so far. -/
theorem extend_line (hl : s.Line d hs.head? hs) (hk : s.Line d (some k) ks)
    (hn : (hs ++ ks).Nodup) :
    ∃ e s', extend d (Ends.of? hs) k s = .ok e s' ∧ Ends.of? (hs ++ ks) = some e ∧
      s'.Line d (hs ++ ks).head? (hs ++ ks) ∧ s.Relinked d hs.getLast?.toList s' := by
  obtain ⟨rest, rfl⟩ : ∃ rest, ks = k :: rest := List.head?_eq_some_iff.mp hk.head?_eq
  have hd := List.disjoint_of_nodup_append hn
  cases hs with
  | nil => exact ⟨⟨k, s.last d k⟩, s, rfl, by rw [hk.last_eq]; rfl, hk, .refl s d _⟩
  | cons h left =>
    obtain ⟨last, hlast⟩ : ∃ last, (h :: left).getLast? = some last :=
      ⟨_, List.getLast?_eq_some_getLast (by simp)⟩
    have hends : Ends.of? (h :: left) = some ⟨h, last⟩ := by
      rw [Ends.of?_cons, List.getLastD_eq_getLast?, hlast]
      rfl
    have hm := List.mem_of_getLast? hlast
    have hlive := hl.isLive last hm
    have hconnect : connect d last (some k) s = .ok () (s.withLink d last (some k)) := by
      refine connect_eq_ok_iff.mpr ⟨hlive, ?_, rfl⟩
      rintro _ ⟨⟩
      rw [hk.walk_eq]
      exact ⟨hk.isLive k List.mem_cons_self, hd hm⟩
    have hspliced := hl.splice hlast hk hd
    have hr : s.Relinked d [last] (s.withLink d last (some k)) :=
      relinked_withLink hlive List.mem_cons_self
    have hk' := hr.line hk fun _ => by simpa using hd hm
    rw [hends]
    refine ⟨_, _, ?_, Ends.of?_append_cons _ _ _, hspliced, hlast ▸ hr⟩
    show (do connect d last (some k); return ⟨h, (← get).last d k⟩ : Call Store Ends) s = _
    rw [Call.bind_apply, hconnect]
    show EStateM.Result.ok (⟨h, (s.withLink d last (some k)).last d k⟩ : Ends) _ = _
    rw [hk'.last_eq]
    rfl

/-! ## Many lines -/

theorem exists_of_mem_left {α β : Type} {R : α → β → Prop} {as : List α} {bs : List β} {a : α}
    (h : List.Forall₂ R as bs) (hm : a ∈ as) : ∃ b ∈ bs, R a b := by
  obtain ⟨i, hi, rfl⟩ := List.getElem_of_mem hm
  exact ⟨_, List.getElem_mem (h.length_eq ▸ hi), h.get hi (h.length_eq ▸ hi)⟩

theorem all_isChain (hl : List.Forall₂ (s.Line d) heads hss) : heads.all s.isChain = true := by
  refine List.all_eq_true.mpr fun head hm => ?_
  obtain ⟨hs, -, hline⟩ := exists_of_mem_left hl hm
  exact hline.isChain

theorem map_head?_eq (hl : List.Forall₂ (s.Line d) heads hss) : hss.map List.head? = heads := by
  induction hl with
  | nil => rfl
  | cons hline _ ih => rw [List.map_cons, hline.head?_eq, ih]

/-- Lines without a common segment pass no segment twice, put end to end. -/
theorem nodup_flatten_of_lines (hl : List.Forall₂ (s.Line d) heads hss)
    (hd : hss.Pairwise List.Disjoint) : hss.flatten.Nodup := by
  refine List.nodup_flatten.mpr ⟨fun hs hm => ?_, hd⟩
  have hflip : List.Forall₂ (flip (s.Line d)) hss heads := List.Forall₂.flip hl
  obtain ⟨head, -, hline⟩ := exists_of_mem_left hflip hm
  exact Line.nodup hline

/-- The lines at the heads are attached one after the other; an absent head has an empty one. -/
theorem extendAll_lines (hl : s.Line d hs.head? hs) (hk : List.Forall₂ (s.Line d) heads kss)
    (hn : (hs ++ kss.flatten).Nodup) :
    ∃ s', extendAll d (Ends.of? hs) (heads.filterMap id) s =
        .ok (Ends.of? (hs ++ kss.flatten)) s' ∧
      s'.Line d (hs ++ kss.flatten).head? (hs ++ kss.flatten) ∧
      s.Relinked d ((hs :: kss).filterMap List.getLast?) s' := by
  induction heads generalizing s hs kss with
  | nil =>
    cases hk
    rw [List.flatten_nil, List.append_nil]
    exact ⟨s, rfl, hl, .refl s d _⟩
  | cons head heads ih =>
    obtain ⟨ks, kss, hks, hkss, rfl⟩ := List.forall₂_cons_left_iff.mp hk
    rw [List.flatten_cons, ← List.append_assoc] at hn ⊢
    cases head with
    | none =>
      obtain rfl : ks = [] := List.head?_eq_none_iff.mp hks.head?_eq
      rw [List.append_nil] at hn ⊢
      obtain ⟨s', hrun, hline, hr⟩ := ih hl hkss hn
      exact ⟨s', hrun, hline, hr⟩
    | some k =>
      have hd := List.disjoint_of_nodup_append hn
      obtain ⟨e, s1, hext, hends, hline, hr⟩ := extend_line hl hks hn.of_append_left
      have hkss' : List.Forall₂ (s1.Line d) heads kss :=
        hr.lines hkss fun _ a ha hm => hd (List.mem_append_left _ (tail_subset hs hm)) ha
      obtain ⟨s', hrun, hline', hr'⟩ := ih hline hkss' hn
      have hlast : (hs ++ ks).getLast? = ks.getLast? := by
        obtain ⟨rest, rfl⟩ : ∃ rest, ks = k :: rest := List.head?_eq_some_iff.mp hks.head?_eq
        exact List.getLast?_append_of_ne_nil hs (List.cons_ne_nil k rest)
      refine ⟨s', ?_, hline', (hr.mono ?_).trans (hr'.mono ?_)⟩
      · rw [hends] at hrun
        show (extend d (Ends.of? hs) k >>= fun e => extendAll d (some e) _) s = _
        rw [Call.bind_apply, hext]
        exact hrun
      · intro a ha
        exact List.mem_filterMap.mpr ⟨hs, List.mem_cons_self, Option.mem_toList.mp ha⟩
      · intro a ha
        obtain ⟨ls, hm, hls⟩ := List.mem_filterMap.mp ha
        refine List.mem_filterMap.mpr ?_
        rcases List.mem_cons.mp hm with rfl | hm
        · exact ⟨ks, by simp, hlast ▸ hls⟩
        · exact ⟨ls, by simp [hm], hls⟩

/-- Lines without a common segment are put end to end. -/
theorem extendAll_none_lines (hl : List.Forall₂ (s.Line d) heads hss) (hn : hss.flatten.Nodup) :
    ∃ s', extendAll d none (heads.filterMap id) s = .ok (Ends.of? hss.flatten) s' ∧
      s'.Line d hss.flatten.head? hss.flatten ∧
      s.Relinked d (hss.filterMap List.getLast?) s' :=
  have hnil : s.Line d ([] : List Handle).head? [] := rfl
  extendAll_lines hnil hl hn

end Store

end XPathAssembly
