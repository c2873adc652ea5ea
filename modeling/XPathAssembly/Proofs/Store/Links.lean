import XPathAssembly.Proofs.Store.Runs

/-!
# Where a link leads

A link stays as it is set until it is set again or cut, and its segment cannot be removed before
that.  Nothing is asked of the segment that it leads to: this one may be removed at any time, and
the link leads to a vacant cell then, and to the next segment that is put in.

    Accepts s a t → s.link? d h = some k → t.link? d h = some k      (Accepts.link?_eq)
    remove k s = .ok () t → insert g t leads to g under k            (recycled_of_remove)

So a link keeps leading to the segment it was set to exactly as long as this one is not removed.
-/

namespace XPathAssembly

namespace Store

variable {s t u : Store} {a : Action} {as bs : List Action} {d : Direction} {h k : Int}

/-! ## Runs of given actions -/

/-- The actions are accepted one after the other, and `t` is what they make of `s`. -/
def Runs (s : Store) : List Action → Store → Prop
  | [], t => t = s
  | a :: rest, t => ∃ u, Accepts s a u ∧ u.Runs rest t

theorem runs_append : s.Runs (as ++ bs) t ↔ ∃ u, s.Runs as u ∧ u.Runs bs t := by
  induction as generalizing s with
  | nil => exact ⟨fun hr => ⟨s, rfl, hr⟩, fun ⟨u, hu, hr⟩ => hu ▸ hr⟩
  | cons a rest ih =>
    constructor
    · rintro ⟨v, ha, hr⟩
      obtain ⟨u, hu, hr⟩ := ih.mp hr
      exact ⟨u, ⟨v, ha, hu⟩, hr⟩
    · rintro ⟨u, ⟨v, ha, hu⟩, hr⟩
      exact ⟨v, ha, ih.mpr ⟨u, hu, hr⟩⟩

/-- The actions that set or cut a link of `h`. -/
def Action.Relinks (d : Direction) (h : Handle) : Action → Prop
  | connect e j _ | cut e j => j = h ∧ e = d
  | _ => False

/-- Only a removal loses a segment. -/
theorem Action.builds_or_remove (a : Action) : a.Builds ∨ ∃ j, a = .remove j := by
  cases a with
  | remove j => exact .inr ⟨j, rfl⟩
  | insert g | connect e j target | cut e j => exact .inl trivial

/-! ## One action -/

theorem leads_withLink {target : Option Handle} {e : Direction} {j : Int} (hj : s.isLive j)
    (hn : ¬ (j = h ∧ e = d)) (hl : s.isLive h) (hk : s.link? d h = some k) :
    (s.withLink e j target).isLive h ∧ (s.withLink e j target).link? d h = some k := by
  rw [isLive_withLink (nonneg_of_isLive hj), link?_withLink hj (nonneg_of_isLive hl),
    if_neg fun he => hn ⟨he.1.symm, he.2⟩]
  exact ⟨hl, hk⟩

/-- A link stays as it is, and the segment it belongs to stays live. -/
theorem Accepts.link?_eq (hs : s.Sound) (ha : Accepts s a t) (hn : ¬ a.Relinks d h)
    (hl : s.isLive h) (hk : s.link? d h = some k) : t.isLive h ∧ t.link? d h = some k := by
  cases a with
  | insert g =>
    obtain ⟨j, hrun⟩ := ha
    obtain ⟨hi, -⟩ := inserted_of_insert hs hrun
    rw [isLive_congr (hi.cell?_eq hl), link?_congr (hi.cell?_eq hl)]
    exact ⟨hl, hk⟩
  | connect e j target =>
    obtain ⟨hj, -, rfl⟩ := connect_eq_ok_iff.mp ha
    exact leads_withLink hj hn hl hk
  | cut e j =>
    obtain ⟨answer, hrun⟩ := ha
    obtain ⟨hj, -, rfl⟩ := cut_eq_ok_iff.mp hrun
    exact leads_withLink hj hn hl hk
  | remove j =>
    obtain ⟨hj, hnone, rfl⟩ := remove_eq_ok_iff.mp ha
    -- a segment with links is not removed
    have hne : h ≠ j := by
      rintro rfl
      rw [hnone d] at hk
      cases hk
    have hj0 := nonneg_of_isLive hj
    rw [isLive_vacate hj0, link?_vacate hj0 (nonneg_of_isLive hl)]
    exact ⟨by simp [hl, hne], hk⟩

/-- Only its own removal takes a segment away. -/
theorem Accepts.get?_eq (hs : s.Sound) (ha : Accepts s a t) (hn : a ≠ .remove k)
    (hl : s.isLive k) : t.get? k = s.get? k := by
  rcases a.builds_or_remove with hb | ⟨j, rfl⟩
  · exact ha.preserved hs hb k hl
  · obtain ⟨hj, -, rfl⟩ := remove_eq_ok_iff.mp ha
    have hne : k ≠ j := fun he => hn (he ▸ rfl)
    exact get?_vacate_of_ne (nonneg_of_isLive hj) hne

theorem isLive_of_remove (ha : Accepts s (.remove k) t) : t.isLive k = false := by
  obtain ⟨hl, -, rfl⟩ := remove_eq_ok_iff.mp ha
  rw [isLive_vacate (nonneg_of_isLive hl)]
  simp

/-- The next segment goes where the last one was removed, and links that led there lead to it. -/
theorem recycled_of_remove (hs : s.Sound) (ha : Accepts s (.remove k) t) (g : Segment) :
    ∃ u, insert g t = .ok k u ∧ u.get? k = some g ∧
      ∀ (d : Direction) (h : Int), s.isLive h → s.link? d h = some k → u.link? d h = some k := by
  have ht := hs.accepts ha
  obtain ⟨-, -, he⟩ := remove_eq_ok_iff.mp ha
  obtain ⟨u, hrun, hi, -⟩ := insert_of_vacant ht g (he ▸ vacant_vacate)
  refine ⟨u, hrun, hi.found, fun d h hl hk => ?_⟩
  have hinsert : Accepts t (.insert g) u := ⟨k, hrun⟩
  obtain ⟨hl', hk'⟩ := ha.link?_eq hs not_false hl hk
  exact (hinsert.link?_eq ht not_false hl' hk').2

/-! ## All actions of a run -/

theorem Runs.link?_eq (hr : s.Runs as t) (hs : s.Sound) (hn : ∀ a ∈ as, ¬ a.Relinks d h)
    (hl : s.isLive h) (hk : s.link? d h = some k) : t.isLive h ∧ t.link? d h = some k := by
  induction as generalizing s with
  | nil =>
    subst hr
    exact ⟨hl, hk⟩
  | cons a rest ih =>
    obtain ⟨u, ha, hr⟩ := hr
    obtain ⟨hl', hk'⟩ := ha.link?_eq hs (hn a List.mem_cons_self) hl hk
    exact ih hr (hs.accepts ha) (fun b hb => hn b (List.mem_cons_of_mem _ hb)) hl' hk'

theorem Runs.get?_eq (hr : s.Runs as t) (hs : s.Sound) (hn : .remove k ∉ as) (hl : s.isLive k) :
    t.get? k = s.get? k := by
  induction as generalizing s with
  | nil => rw [show t = s from hr]
  | cons a rest ih =>
    obtain ⟨u, ha, hr⟩ := hr
    obtain ⟨hne, hrest⟩ := not_or.mp (List.mem_cons.not.mp hn)
    have hfirst := ha.get?_eq hs (Ne.symm hne) hl
    have hl' : u.isLive k := by
      unfold isLive
      rwa [hfirst]
    rw [ih hr (hs.accepts ha) hrest hl', hfirst]

/-- **Links and what they lead to.**  Once a link is set, it leads to `k` in every store of a run
that neither sets nor cuts it; and it keeps leading to the segment it was set to if and only if the
run does not remove this segment. -/
theorem leads_to_same_iff (hs : s.Reachable) (ha : Accepts s (.connect d h (some k)) t)
    (hr : t.Runs as u) (hn : ∀ a ∈ as, ¬ a.Relinks d h) :
    (∀ done v, done <+: as → t.Runs done v → v.isLive h ∧ v.link? d h = some k) ∧
      ((∀ done v, done <+: as → t.Runs done v → v.isLive k ∧ v.get? k = s.get? k) ↔
        .remove k ∉ as) := by
  have ht := hs.sound.accepts ha
  obtain ⟨hl, hk, he⟩ := connect_eq_ok_iff.mp ha
  have h0 := nonneg_of_isLive hl
  have hget : t.get? k = s.get? k := by rw [he, get?_withLink h0]
  have hlive : t.isLive h ∧ t.isLive k := by
    rw [he, isLive_withLink h0, isLive_withLink h0]
    exact ⟨hl, (hk k rfl).1⟩
  refine ⟨fun done v hd hv => ?_, fun hsame hm => ?_, fun hm done v hd hv => ?_⟩
  · refine hv.link?_eq ht (fun a ha => hn a (hd.subset ha)) hlive.1 ?_
    rw [he, link?_withLink_self hl]
  · -- as soon as it is removed, `k` is live no more
    obtain ⟨left, right, rfl⟩ := List.append_of_mem hm
    obtain ⟨v, hv, w, hremove, hw⟩ := runs_append.mp hr
    have hdead := isLive_of_remove hremove
    have hprefix : left ++ [.remove k] <+: left ++ .remove k :: right :=
      ⟨right, List.append_cons left _ right ▸ rfl⟩
    have hdone : t.Runs (left ++ [.remove k]) w := runs_append.mpr ⟨v, hv, w, hremove, rfl⟩
    rw [(hsame _ w hprefix hdone).1] at hdead
    cases hdead
  · have hsame := hv.get?_eq ht (fun hin => hm (hd.subset hin)) hlive.2
    refine ⟨?_, hsame.trans hget⟩
    unfold isLive
    rw [hsame]
    exact hlive.2

/-- Two segments without links. -/
def apart : Store :=
  { cells := #[{ segment? := some (.ofText ['a'] .bare) },
               { segment? := some (.ofText ['b'] .bare) }] }

theorem reachable_apart : apart.Reachable :=
  .tail (.single ⟨.insert (.ofText ['a'] .bare), 0, rfl⟩) ⟨.insert (.ofText ['b'] .bare), 1, rfl⟩

theorem leads_to_same_apart :
    Accepts apart (.connect .next 0 (some 1)) (apart.withLink .next 0 (some 1)) ∧
      ∀ done v, done <+: [.connect .sibling 0 (some 1), .cut .next 1] →
        (apart.withLink .next 0 (some 1)).Runs done v →
        (v.isLive 0 ∧ v.link? .next 0 = some 1) ∧
          v.isLive 1 ∧ v.get? 1 = some (.ofText ['b'] .bare) := by
  have ha : Accepts apart (.connect .next 0 (some 1)) (apart.withLink .next 0 (some 1)) := rfl
  have hr : (apart.withLink .next 0 (some 1)).Runs [.connect .sibling 0 (some 1), .cut .next 1]
      (((apart.withLink .next 0 (some 1)).withLink .sibling 0 (some 1)).withLink .next 1 none) :=
    ⟨_, rfl, _, ⟨none, rfl⟩, rfl⟩
  have hn : ∀ a ∈ [.connect .sibling 0 (some 1), .cut .next 1], ¬ Action.Relinks .next 0 a := by
    simp [Action.Relinks]
  obtain ⟨hlink, hsame⟩ := leads_to_same_iff reachable_apart ha hr hn
  refine ⟨ha, fun done v hd hv => ⟨hlink done v hd hv, hsame.mpr (by simp) done v hd hv⟩⟩

/-- The first of two segments is linked to the second, and this one is removed: the link dangles,
and leads to another segment as soon as there is one. -/
theorem leads_to_other :
    ∃ s t u v : Store, s.Reachable ∧ Accepts s (.connect .next 0 (some 1)) t ∧
      t.Runs [.remove 1] u ∧ u.isLive 0 ∧ u.link? .next 0 = some 1 ∧ u.isLive 1 = false ∧
      t.Runs [.remove 1, .insert (.ofText ['c'] .bare)] v ∧ v.isLive 0 ∧
      v.link? .next 0 = some 1 ∧ v.isLive 1 ∧ v.get? 1 ≠ s.get? 1 :=
  ⟨apart, apart.withLink .next 0 (some 1), (apart.withLink .next 0 (some 1)).vacate 1,
    { apart with cells := #[{ segment? := some (.ofText ['a'] .bare), next? := some 1 },
                            { segment? := some (.ofText ['c'] .bare) }] },
    reachable_apart, rfl, ⟨_, rfl, rfl⟩, rfl, rfl, rfl, ⟨_, rfl, _, ⟨1, rfl⟩, rfl⟩, rfl, rfl, rfl,
    by decide⟩

end Store

end XPathAssembly
