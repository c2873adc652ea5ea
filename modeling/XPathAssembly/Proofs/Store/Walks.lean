import XPathAssembly.Proofs.Session
import XPathAssembly.Proofs.Store.Trail

/-!
# Walks come to an end

Links may be shared, they may lead to vacant cells and to cells that are in use again.  Still no
walk runs in a circle: a link is set only where the walk from its target misses the cell it is set
on, a removed segment has no links, and so has the next segment in its cell.

    s.Walkable → Accepts s a t → t.Walkable                          (Walkable.accepts)
    s.Walkable → ¬ Relation.TransGen (s.Linked d) h h                (Walkable.not_transGen)

So all walks end in every store that the steps of a session go through, and the bound on `walk` is
never met.
-/

namespace XPathAssembly

namespace Store

variable {s t : Store} {d : Direction} {head target : Option Handle} {h k : Int}
  {hs rest : List Handle}

/-- The link of `h` leads to `k`. -/
def Linked (s : Store) (d : Direction) (h k : Handle) : Prop := s.link? d h = some k

/-- Every link leads to a cell, and from every cell the walk ends. -/
structure Walkable (s : Store) : Prop where
  inside : ∀ (d : Direction) (h k : Int), 0 ≤ h → s.link? d h = some k →
    0 ≤ k ∧ k < s.cells.size
  ends : ∀ (d : Direction) (h : Int), 0 ≤ h → h < s.cells.size → ∃ hs, s.Trail d (some h) hs

/-! ## Walkable stores -/

theorem Trail.mem_of_transGen (hl : s.Trail d (some h) (h :: rest))
    (ht : Relation.TransGen (s.Linked d) h k) : k ∈ rest := by
  induction ht using Relation.TransGen.head_induction_on generalizing rest with
  | single hk =>
    have hr := hl.2.2
    rw [show s.link? d _ = some k from hk] at hr
    obtain ⟨rest', rfl, -⟩ := hr.exists_cons
    exact List.mem_cons_self
  | @head h m hm _ ih =>
    have hr := hl.2.2
    rw [show s.link? d h = some m from hm] at hr
    obtain ⟨rest', rfl, -⟩ := hr.exists_cons
    exact List.mem_cons_of_mem _ (ih hr)

theorem Walkable.exists_trail (hw : s.Walkable) (d : Direction) (hi : (s.index? h).isSome) :
    ∃ hs, s.Trail d (some h) hs := by
  cases hk : s.link? d h with
  | none => exact ⟨[h], rfl, hi, hk⟩
  | some k =>
    -- a number that counts from the end has the link of its cell
    obtain ⟨i, hi'⟩ := Option.isSome_iff_exists.mp hi
    have hlt := lt_size_of_index? hi'
    have hcell : s.index? h = s.index? (i : Int) := by
      rw [hi', index?_of_mem_range (Int.natCast_nonneg i) (by omega), Int.toNat_natCast]
    have hk' := hk
    rw [link?_of_index?_eq hcell] at hk'
    obtain ⟨h0, hin⟩ := hw.inside d i k (Int.natCast_nonneg i) hk'
    obtain ⟨rest, hr⟩ := hw.ends d k h0 hin
    exact ⟨h :: rest, rfl, hi, by rwa [hk]⟩

/-- No links of one direction lead back to where they started. -/
theorem Walkable.not_transGen (hw : s.Walkable) : ¬ Relation.TransGen (s.Linked d) h h := by
  intro ht
  obtain ⟨k, hk, -⟩ := Relation.TransGen.head'_iff.mp ht
  obtain ⟨hs, hl⟩ := hw.exists_trail d (index?_isSome_of_link? hk)
  obtain ⟨rest, rfl, -⟩ := hl.exists_cons
  exact (List.nodup_cons.mp hl.nodup).1 (hl.mem_of_transGen ht)

/-- From a cell, only cells are passed that are counted from the start. -/
theorem Trail.nonneg (hw : s.Walkable) (hl : s.Trail d head hs)
    (hh : ∀ k : Int, head = some k → 0 ≤ k) : ∀ k : Int, k ∈ hs → 0 ≤ k := by
  induction hs generalizing head with
  | nil => intro k hk; cases hk
  | cons h rest ih =>
    obtain ⟨rfl, -, hr⟩ := hl
    have h0 := hh h rfl
    intro k hk
    rcases List.mem_cons.mp hk with rfl | hk
    · exact h0
    · exact ih hr (fun j hj => (hw.inside d h j h0 hj).1) k hk

/-! ## Accepted actions -/

theorem walkable_empty : Walkable {} where
  inside d h k h0 hk := by
    rw [link?_of_index?_eq_none (index?_of_size_le h0)] at hk
    cases hk
  ends d h h0 hlt := by
    have hsize : ((({} : Store).cells.size : Nat) : Int) = 0 := rfl
    omega

/-- More cells do no harm, if the new ones have no links. -/
theorem Walkable.of_links (hw : s.Walkable) (hle : s.cells.size ≤ t.cells.size)
    (hlinks : ∀ (d : Direction) (k : Int), 0 ≤ k → t.link? d k = s.link? d k) : t.Walkable where
  inside d h k h0 hk := by
    rw [hlinks d h h0] at hk
    have := hw.inside d h k h0 hk
    omega
  ends d h h0 hlt := by
    by_cases hin : h < s.cells.size
    · obtain ⟨hs, hl⟩ := hw.ends d h h0 hin
      refine ⟨hs, hl.congr fun (k : Int) hk => ?_⟩
      have hk0 := hl.nonneg hw (by rintro _ ⟨⟩; exact h0) k hk
      have hklt := (index?_isSome_iff hk0).mp (hl.index?_isSome k hk)
      exact ⟨(index?_isSome_iff hk0).mpr (by omega), hlinks d k hk0⟩
    · refine ⟨[h], rfl, (index?_isSome_iff h0).mpr hlt, ?_⟩
      show t.link? d h = none
      rw [hlinks d h h0, link?_of_index?_eq_none (index?_of_size_le (by omega))]

/-- A link closes no circle if the trail from its target misses the cell that it is set on. -/
theorem Walkable.withLink (hw : s.Walkable) (hl : s.isLive h)
    (hlive : ∀ k, target = some k → s.isLive k) (hr : s.Trail d target rest) (hn : h ∉ rest) :
    (s.withLink d h target).Walkable where
  inside e j k h0 hk := by
    rw [size_cells_withLink]
    rw [link?_withLink hl h0] at hk
    split at hk
    · have hk' := hlive k hk
      exact ⟨nonneg_of_isLive hk', lt_size_of_isLive hk'⟩
    · exact hw.inside e j k h0 hk
  ends e j h0 hlt := by
    rw [size_cells_withLink] at hlt
    have hcell : ∀ k : Int, 0 ≤ k → (s.index? k).isSome →
        ((s.withLink d h target).index? k).isSome := by
      intro k hk hi
      rw [index?_isSome_iff hk, size_cells_withLink]
      exact (index?_isSome_iff hk).mp hi
    obtain ⟨hs, htrail⟩ := hw.ends e j h0 hlt
    have hnonneg := htrail.nonneg hw (by rintro _ ⟨⟩; exact h0)
    have hkept : ∀ k ∈ hs, ¬ (k = h ∧ d = e) →
        ((s.withLink d h target).index? k).isSome ∧
          (s.withLink d h target).link? e k = s.link? e k := fun k hk hne =>
      ⟨hcell k (hnonneg k hk) (htrail.index?_isSome k hk), by
        rw [link?_withLink hl (hnonneg k hk), if_neg hne]⟩
    by_cases hm : h ∈ hs ∧ d = e
    · -- the trail as far as `h`, and from there the one of the target
      obtain ⟨hm, rfl⟩ := hm
      obtain ⟨left, right, rfl⟩ := List.append_of_mem hm
      have hleft : h ∉ left := fun hm =>
        (List.nodup_append.mp htrail.nodup).2.2 h hm h List.mem_cons_self rfl
      refine ⟨left ++ h :: rest, htrail.redirect (fun k hk => ?_) ?_ ?_⟩
      · exact hkept k (List.mem_append_left _ hk) fun he => hleft (he.1 ▸ hk)
      · exact hcell h (nonneg_of_isLive hl) (index?_isSome_of_isLive hl)
      · rw [link?_withLink_self hl]
        have hrest := hr.nonneg hw fun k hk => nonneg_of_isLive (hlive k hk)
        refine hr.congr fun k hk => ⟨hcell k (hrest k hk) (hr.index?_isSome k hk), ?_⟩
        have hne : k ≠ h := fun he => hn (he ▸ hk)
        rw [link?_withLink hl (hrest k hk), if_neg fun he => hne he.1]
    · exact ⟨hs, htrail.congr fun k hk => hkept k hk fun he => hm ⟨he.1 ▸ hk, he.2⟩⟩

theorem Walkable.accepts (hw : s.Walkable) (hs : s.Sound) {a : Action} (ha : Accepts s a t) :
    t.Walkable := by
  have hle := ha.size_cells_le
  cases a with
  | insert g =>
    obtain ⟨h, hrun⟩ := ha
    obtain ⟨hi, -⟩ := inserted_of_insert hs hrun
    exact hw.of_links hle fun _ _ h0 => hi.link?_eq hs h0
  | connect d h target =>
    obtain ⟨hl, ht, rfl⟩ := connect_eq_ok_iff.mp ha
    cases target with
    | none => exact hw.withLink hl nofun (show s.Trail d none [] from rfl) List.not_mem_nil
    | some k =>
      obtain ⟨hk, hn⟩ := ht k rfl
      obtain ⟨rest, hr⟩ := hw.ends d k (nonneg_of_isLive hk) (lt_size_of_isLive hk)
      rw [hr.walk_eq] at hn
      exact hw.withLink hl (by rintro _ ⟨⟩; exact hk) hr hn
  | cut d h =>
    obtain ⟨answer, hrun⟩ := ha
    obtain ⟨hl, -, rfl⟩ := cut_eq_ok_iff.mp hrun
    exact hw.withLink hl nofun (show s.Trail d none [] from rfl) List.not_mem_nil
  | remove h =>
    obtain ⟨hl, -, rfl⟩ := remove_eq_ok_iff.mp ha
    exact hw.of_links hle fun d k h0 => link?_vacate (nonneg_of_isLive hl) h0

theorem Leads.walkable {P : Action → Prop} (h : Leads P s t) (hs : s.Sound) (hw : s.Walkable) :
    t.Walkable := by
  induction h with
  | refl => exact hw
  | tail hrun hstep ih =>
    obtain ⟨a, -, ha⟩ := hstep
    exact ih.accepts (Leads.sound hrun hs) ha

/-! ## Through a session -/

/-- What comes of walking from `h`: the walk ends, and passes no number twice; every look at it
sees all of it; and a link to `h` is refused as a cycle exactly on what it passes. -/
structure Walked (s : Store) (d : Direction) (h : Handle) (hs : List Handle) : Prop where
  trail : s.Trail d (some h) hs
  nodup : hs.Nodup
  walk : s.walkFrom d (some h) = .ok hs
  last : s.last d h = hs.getLastD h
  tail : d = .next → s.isLive h → s.tailOf h = .ok (hs.getLastD h)
  check : ∀ j, s.checkAcyclic d j h = if j ∈ hs then .error (.cycle d) else .ok ()

theorem Trail.walked (hl : s.Trail d (some h) hs) : s.Walked d h hs where
  trail := hl
  nodup := hl.nodup
  walk := hl.walkFrom_eq
  last := hl.last_eq
  tail := by
    rintro rfl hlive
    unfold tailOf
    rw [if_pos hlive, hl.last_eq]
  check := hl.checkAcyclic_eq

end Store

namespace Session

/-- **Every walk ends.**  In every store that the steps of a session lead to or go through, accepted
or not, the links of one direction run in no circle, and the walk from any number of a cell ends. -/
theorem walks_end (steps : List Step) {t : Store}
    (ht : Store.Leads (fun _ => True) (after {} steps).store t) (d : Direction) :
    (∀ h, ¬ Relation.TransGen (t.Linked d) h h) ∧
      ∀ h, (t.index? h).isSome → ∃ hs, t.Walked d h hs := by
  have hstart := leads_after {} steps
  have hw := ht.walkable (hstart.sound Store.sound_empty)
    (hstart.walkable Store.sound_empty Store.walkable_empty)
  refine ⟨fun h => hw.not_transGen, fun h hi => ?_⟩
  obtain ⟨hs, hl⟩ := hw.exists_trail d hi
  exact ⟨hs, hl.walked⟩

/-- A link whose target is removed and its cell used again; links back are refused. -/
def reused : List Step :=
  [.insertText ['a'] .bare, .insertText ['b'] .bare, .connect .next 0 (some 1), .remove 1,
   .insertText ['c'] .bare, .connect .next 1 (some 0), .connect .next 1 (some 1)]

theorem walks_end_reused :
    Store.Leads (fun _ => True) (after {} reused).store (after {} reused).store ∧
      (after {} reused).store.get? 1 = some (.ofText ['c'] .bare) ∧
      (∀ h, ¬ Relation.TransGen ((after {} reused).store.Linked .next) h h) ∧
      (after {} reused).store.Walked .next 0 [0, 1] := by
  have hleads : Store.Leads (fun _ => True) (after {} reused).store (after {} reused).store :=
    Relation.ReflTransGen.refl
  obtain ⟨hacyclic, hends⟩ := walks_end reused hleads .next
  obtain ⟨hs, hwalked⟩ := hends 0 rfl
  have hwalk : (after {} reused).store.walkFrom .next (some 0) = .ok [0, 1] := rfl
  obtain rfl : [0, 1] = hs := Except.ok.inj (hwalk.symm.trans hwalked.walk)
  exact ⟨hleads, rfl, hacyclic, hwalked⟩

end Session

end XPathAssembly
