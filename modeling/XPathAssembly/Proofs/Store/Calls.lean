import XPathAssembly.Store.Discard
import Mathlib.Data.List.Nodup
import Mathlib.Data.List.Perm.Subperm
import Mathlib.Logic.Relation

/-!
# What the calls of the store do

A call that is accepted has found its conditions met and has changed one cell; all other cells are
as before.  The calls are opened here once, and every later proof goes through these lemmas.

    connect d h target s = .ok () s' ↔
      s.isLive h ∧ … ∧ s' = s.withLink d h target      (connect_eq_ok_iff)
    s.Reachable → s.Sound                              (Reachable.sound)

`Reachable` are the states that accepted calls lead to, and `Sound` is what they all have in common:
the vacant cells are those without a segment, and a vacant cell has no links.
-/

namespace XPathAssembly

/-! ## Calls one after the other -/

namespace Call

section
variable {σ α β : Type} (x : Call σ α) (f : α → Call σ β) (a : α) (e : Fault) (s : σ)

theorem bind_apply : (x >>= f) s =
    match x s with
    | .ok a t => f a t
    | .error e t => .error e t := by
  show EStateM.bind x f s = _
  unfold EStateM.bind
  cases x s <;> rfl

theorem bind_eq_ok_iff {b : β} {u : σ} :
    (x >>= f) s = .ok b u ↔ ∃ a t, x s = .ok a t ∧ f a t = .ok b u := by
  rw [bind_apply]
  constructor
  · intro h
    cases hx : x s with
    | ok a t => rw [hx] at h; exact ⟨a, t, rfl, h⟩
    | error e t => rw [hx] at h; cases h
  · rintro ⟨a, t, hx, h⟩
    rw [hx]
    exact h

theorem pure_apply : (pure a : Call σ α) s = .ok a s := rfl

theorem map_of_ok {t : σ} (g : α → β) (hx : x s = .ok a t) : (g <$> x) s = .ok (g a) t := by
  rw [map_eq_pure_bind, bind_apply, hx]
  rfl

theorem discard_of_ok {t : σ} (hx : x s = .ok a t) : (discard x) s = .ok () t :=
  map_of_ok x a s (fun _ => ()) hx

theorem get_apply : (get : Call σ σ) s = .ok s s := rfl

theorem modify_apply (g : σ → σ) : (modify g : Call σ Unit) s = .ok () (g s) := rfl

end

end Call

namespace Store

variable {s s' : Store} {d e : Direction} {h k : Int} {target : Option Handle}

/-! ## Cells -/

theorem cell?_of_nonneg (h0 : 0 ≤ h) : s.cell? h = s.cells[h.toNat]? := by
  unfold cell? index?
  rw [if_pos h0]
  by_cases hlt : h < s.cells.size
  · rw [if_pos hlt]; rfl
  · rw [if_neg hlt, Array.getElem?_eq_none (by omega)]; rfl

theorem get?_of_nonneg (h0 : 0 ≤ h) : s.get? h = (s.cells[h.toNat]?).bind Cell.segment? := by
  unfold get?
  rw [if_pos h0, cell?_of_nonneg h0]

theorem link?_of_nonneg (h0 : 0 ≤ h) : s.link? d h = (s.cells[h.toNat]?).bind (·.link? d) := by
  unfold link?
  rw [cell?_of_nonneg h0]

theorem nonneg_of_isLive (hl : s.isLive h) : 0 ≤ h := by
  unfold isLive get? at hl
  by_cases h0 : 0 ≤ h
  · exact h0
  · rw [if_neg h0] at hl; cases hl

theorem lt_size_of_isLive (hl : s.isLive h) : h < s.cells.size := by
  have h0 := nonneg_of_isLive hl
  unfold isLive at hl
  rw [get?_of_nonneg h0] at hl
  cases hc : s.cells[h.toNat]? with
  | none => rw [hc] at hl; cases hl
  | some c =>
    obtain ⟨hlt, -⟩ := Array.getElem?_eq_some_iff.mp hc
    omega

theorem isLive_iff : s.isLive h ↔ ∃ g, s.get? h = some g := by
  unfold isLive
  exact Option.isSome_iff_exists

theorem get?_congr (hc : s'.cell? h = s.cell? h) : s'.get? h = s.get? h := by
  unfold get?
  rw [hc]

theorem isLive_congr (hc : s'.cell? h = s.cell? h) : s'.isLive h = s.isLive h := by
  unfold isLive
  rw [get?_congr hc]

theorem link?_congr (hc : s'.cell? h = s.cell? h) : s'.link? d h = s.link? d h := by
  unfold link?
  rw [hc]

/-- All cells but that of `h` are the same. -/
def SameOff (h : Int) (s s' : Store) : Prop :=
  ∀ k : Int, 0 ≤ k → k ≠ h → s'.cell? k = s.cell? k

theorem SameOff.symm (hs : SameOff h s s') : SameOff h s' s :=
  fun k hk hne => (hs k hk hne).symm

theorem SameOff.isLive (hs : SameOff h s s') (hne : k ≠ h) : s'.isLive k = s.isLive k := by
  by_cases hk : 0 ≤ k
  · exact isLive_congr (hs k hk hne)
  · unfold Store.isLive get?
    rw [if_neg hk, if_neg hk]

theorem SameOff.link? (hs : SameOff h s s') (hk : 0 ≤ k) (hne : k ≠ h) :
    s'.link? d k = s.link? d k :=
  link?_congr (hs k hk hne)

theorem index?_isSome_of_isLive (hl : s.isLive h) : (s.index? h).isSome := by
  unfold index?
  rw [if_pos (nonneg_of_isLive hl), if_pos (lt_size_of_isLive hl)]
  rfl

/-- Handles of cells that are all different are no more than the cells. -/
theorem length_le_size {hs : List Handle} (hn : hs.Nodup)
    (hb : ∀ h : Int, h ∈ hs → 0 ≤ h ∧ h < s.cells.size) : hs.length ≤ s.cells.size := by
  have hinj : (hs.map Int.toNat).Nodup := by
    refine List.Nodup.map_on ?_ hn
    intro (x : Int) hx (y : Int) hy hxy
    have := hb x hx
    have := hb y hy
    omega
  have hsub : hs.map Int.toNat ⊆ List.range s.cells.size := by
    intro n hm
    obtain ⟨x, hx, rfl⟩ := List.mem_map.mp hm
    have := hb x hx
    exact List.mem_range.mpr (by omega)
  have := (List.subperm_of_subset hinj hsub).length_le
  rwa [List.length_map, List.length_range] at this

/-! ## Setting a link -/

theorem cell?_modifyCell (f : Cell → Cell) (hh : 0 ≤ h) (hk : 0 ≤ k) :
    (s.modifyCell h f).cell? k = if k = h then (s.cell? k).map f else s.cell? k := by
  rw [cell?_of_nonneg hk, cell?_of_nonneg hk]
  unfold modifyCell
  rw [Array.getElem?_modify]
  by_cases he : k = h
  · subst he; rw [if_pos rfl, if_pos rfl]
  · rw [if_neg (by omega), if_neg he]

@[simp] theorem size_cells_modifyCell (f : Cell → Cell) :
    (s.modifyCell h f).cells.size = s.cells.size := by
  simp [modifyCell]

@[simp] theorem size_cells_withLink : (s.withLink d h target).cells.size = s.cells.size := by
  simp [withLink]

@[simp] theorem vacant_withLink : (s.withLink d h target).vacant = s.vacant := rfl

theorem get?_withLink (hh : 0 ≤ h) : (s.withLink d h target).get? k = s.get? k := by
  unfold get? withLink
  split
  · next hk =>
    rw [cell?_modifyCell _ hh hk]
    split
    · cases s.cell? k <;> simp
    · rfl
  · rfl

theorem isLive_withLink (hh : 0 ≤ h) : (s.withLink d h target).isLive k = s.isLive k := by
  unfold isLive
  rw [get?_withLink hh]

theorem link?_withLink (hh : s.isLive h) (hk : 0 ≤ k) :
    (s.withLink d h target).link? e k = if k = h ∧ d = e then target else s.link? e k := by
  have h0 := nonneg_of_isLive hh
  unfold link? withLink
  rw [cell?_modifyCell _ h0 hk]
  by_cases he : k = h
  · subst he
    have hlt := lt_size_of_isLive hh
    rw [if_pos rfl, cell?_of_nonneg hk, Array.getElem?_eq_getElem (by omega)]
    by_cases hde : d = e
    · simp [hde]
    · simp [hde]
  · rw [if_neg he, if_neg (fun hc => he hc.1)]

theorem link?_withLink_self (hh : s.isLive h) : (s.withLink d h target).link? d h = target := by
  rw [link?_withLink hh (nonneg_of_isLive hh), if_pos ⟨rfl, rfl⟩]

theorem sameOff_withLink (hh : 0 ≤ h) : SameOff h s (s.withLink d h target) := by
  intro k hk hne
  unfold withLink
  rw [cell?_modifyCell _ hh hk, if_neg hne]

/-! ## Vacating a cell -/

@[simp] theorem size_cells_vacate : (s.vacate h).cells.size = s.cells.size := by
  simp [vacate]

@[simp] theorem vacant_vacate : (s.vacate h).vacant = h :: s.vacant := rfl

theorem cell?_vacate (hh : 0 ≤ h) (hk : 0 ≤ k) : (s.vacate h).cell? k =
    if k = h then (s.cell? k).map ({ · with segment? := none }) else s.cell? k := by
  have hc : (s.vacate h).cell? k = (s.modifyCell h ({ · with segment? := none })).cell? k := by
    rw [cell?_of_nonneg hk, cell?_of_nonneg hk]
    rfl
  rw [hc, cell?_modifyCell _ hh hk]

theorem isLive_vacate (hh : 0 ≤ h) : (s.vacate h).isLive k = (s.isLive k && k != h) := by
  unfold isLive get?
  by_cases hk : 0 ≤ k
  · rw [if_pos hk, if_pos hk, cell?_vacate hh hk]
    by_cases he : k = h
    · rw [if_pos he]; cases s.cell? k <;> simp [he]
    · rw [if_neg he]; simp [he]
  · rw [if_neg hk, if_neg hk]; rfl

theorem link?_vacate (hh : 0 ≤ h) (hk : 0 ≤ k) : (s.vacate h).link? d k = s.link? d k := by
  unfold link?
  rw [cell?_vacate hh hk]
  split
  · cases s.cell? k with
    | none => rfl
    | some c => cases d <;> rfl
  · rfl

/-! ## Accepted calls -/

theorem require_of_isLive (hl : s.isLive h) : require h s = .ok () s := by
  unfold require
  rw [Call.bind_apply, Call.get_apply]
  show (if (!s.isLive h) = true then throw .dead else pure () : Call Store Unit) s = _
  rw [hl]
  rfl

theorem require_of_not_isLive (hl : s.isLive h = false) : require h s = .error .dead s := by
  unfold require
  rw [Call.bind_apply, Call.get_apply]
  show (if (!s.isLive h) = true then throw .dead else pure () : Call Store Unit) s = _
  rw [hl]
  rfl

/-- A call that begins with `require` on a live segment goes on from the same state. -/
theorem require_bind {α : Type} (f : Unit → Call Store α) :
    (require h >>= f) s = if s.isLive h then f () s else .error .dead s := by
  rw [Call.bind_apply]
  cases hl : s.isLive h with
  | true => rw [require_of_isLive hl]; rfl
  | false => rw [require_of_not_isLive hl]; rfl

theorem checkAcyclic_eq_ok_iff {t : Int} :
    s.checkAcyclic d h t = .ok () ↔ h ∉ s.walk d (some t) ∧ (s.index? t).isSome := by
  unfold checkAcyclic
  by_cases hm : h ∈ s.walk d (some t)
  · simp [hm]
  · rw [if_neg hm]
    cases hi : s.index? t <;> simp [hm]

/-- A link is set between live segments, and only if the walk from its target misses `h`. -/
theorem connect_eq_ok_iff : connect d h target s = .ok () s' ↔
    s.isLive h ∧ (∀ t, target = some t → s.isLive t ∧ h ∉ s.walk d (some t)) ∧
      s' = s.withLink d h target := by
  have hset : (do require h; modify (·.withLink d h target) : Call Store Unit) s = .ok () s' ↔
      s.isLive h ∧ s' = s.withLink d h target := by
    rw [require_bind]
    split
    · next hl =>
      rw [Call.modify_apply, EStateM.Result.ok.injEq]
      exact ⟨fun he => ⟨hl, he.2.symm⟩, fun he => ⟨rfl, he.2.symm⟩⟩
    · next hl => exact ⟨fun he => (nomatch he), fun he => absurd he.1 hl⟩
  unfold connect
  cases target with
  | none => exact hset.trans ⟨fun he => ⟨he.1, nofun, he.2⟩, fun he => ⟨he.1, he.2.2⟩⟩
  | some t =>
    simp only [Call.bind_apply, Call.get_apply]
    cases hc : s.checkAcyclic d h t with
    | error f =>
      refine ⟨fun he => (nomatch he), fun he => ?_⟩
      obtain ⟨hlt, hm⟩ := he.2.1 t rfl
      rw [checkAcyclic_eq_ok_iff.mpr ⟨hm, index?_isSome_of_isLive hlt⟩] at hc
      cases hc
    | ok u =>
      have hm := (checkAcyclic_eq_ok_iff.mp hc).1
      show (require t >>= fun _ =>
        (do require h; modify (·.withLink d h (some t)))) s = .ok () s' ↔ _
      rw [require_bind]
      split
      · next hl =>
        rw [hset]
        simp [hl, hm]
      · next hl => exact ⟨fun he => (nomatch he), fun he => absurd (he.2.1 t rfl).1 hl⟩

theorem cut_eq_ok_iff {answer : Option Handle} : cut d h s = .ok answer s' ↔
    s.isLive h ∧ answer = s.link? d h ∧ s' = s.withLink d h none := by
  unfold cut
  rw [require_bind]
  split
  · next hl =>
    simp only [Call.bind_apply, Call.get_apply, Call.modify_apply, Call.pure_apply,
      EStateM.Result.ok.injEq]
    exact ⟨fun he => ⟨hl, he.1.symm, he.2.symm⟩, fun he => ⟨he.2.1.symm, he.2.2.symm⟩⟩
  · next hl => exact ⟨fun he => (nomatch he), fun he => absurd he.1 hl⟩

theorem remove_eq_ok_iff : remove h s = .ok () s' ↔
    s.isLive h ∧ (∀ d, s.link? d h = none) ∧ s' = s.vacate h := by
  have hlinks : ((s.link? .next h).isSome || (s.link? .sibling h).isSome) = false ↔
      ∀ d, s.link? d h = none := by
    simp only [Bool.or_eq_false_iff, Option.isSome_eq_false_iff, Option.isNone_iff_eq_none]
    exact ⟨fun he d => by cases d; exacts [he.1, he.2], fun he => ⟨he .next, he .sibling⟩⟩
  unfold remove
  rw [require_bind]
  split
  · next hl =>
    simp only [Call.bind_apply, Call.get_apply]
    cases hsome : (s.link? .next h).isSome || (s.link? .sibling h).isSome with
    | true =>
      refine ⟨fun he => (nomatch he), fun he => ?_⟩
      rw [hlinks.mpr he.2.1] at hsome
      cases hsome
    | false =>
      have hnone := hlinks.mp hsome
      simp only [Bool.false_eq_true, if_false, Call.modify_apply, EStateM.Result.ok.injEq]
      exact ⟨fun he => ⟨hl, hnone, he.2.symm⟩, fun he => ⟨trivial, he.2.2.symm⟩⟩
  · next hl => exact ⟨fun he => (nomatch he), fun he => absurd he.1 hl⟩

/-! ## Sound stores -/

/-- The vacant cells are those without a segment, each once, and have no links. -/
structure Sound (s : Store) : Prop where
  nodup : s.vacant.Nodup
  mem_vacant : ∀ h : Int, h ∈ s.vacant ↔ (0 ≤ h ∧ h < s.cells.size) ∧ s.isLive h = false
  unlinked : ∀ (h : Int) (d : Direction), 0 ≤ h → s.isLive h = false → s.link? d h = none

/-- The vacant cells of a sound store are no more than all its cells. -/
theorem Sound.length_vacant_le (hs : s.Sound) : s.vacant.length ≤ s.cells.size :=
  length_le_size hs.nodup fun h hm => ((hs.mem_vacant h).mp hm).1

theorem sound_empty : Sound {} where
  nodup := List.nodup_nil
  mem_vacant h := by
    constructor
    · intro hm; cases hm
    · rintro ⟨⟨h0, hlt⟩, -⟩
      simp only [List.size_toArray, List.length_nil] at hlt
      omega
  unlinked h d h0 _ := by rw [link?_of_nonneg h0]; simp

theorem Sound.withLink (hs : s.Sound) (hl : s.isLive h) : (s.withLink d h target).Sound where
  nodup := hs.nodup
  mem_vacant k := by
    rw [vacant_withLink, size_cells_withLink, isLive_withLink (nonneg_of_isLive hl)]
    exact hs.mem_vacant k
  unlinked k e hk hd := by
    rw [isLive_withLink (nonneg_of_isLive hl)] at hd
    rw [link?_withLink hl hk, if_neg]
    · exact hs.unlinked k e hk hd
    · rintro ⟨rfl, -⟩
      rw [hl] at hd
      cases hd

theorem Sound.vacate (hs : s.Sound) (hl : s.isLive h) (hn : ∀ d, s.link? d h = none) :
    (s.vacate h).Sound where
  nodup := by
    rw [vacant_vacate]
    refine List.nodup_cons.mpr ⟨fun hm => ?_, hs.nodup⟩
    rw [((hs.mem_vacant h).mp hm).2] at hl
    cases hl
  mem_vacant k := by
    have h0 := nonneg_of_isLive hl
    have hlt := lt_size_of_isLive hl
    rw [vacant_vacate, size_cells_vacate, isLive_vacate h0, List.mem_cons, hs.mem_vacant]
    by_cases he : k = h
    · subst he; simp [h0, hlt]
    · simp [he]
  unlinked k d hk hd := by
    have h0 := nonneg_of_isLive hl
    rw [link?_vacate h0 hk]
    by_cases he : k = h
    · rw [he]; exact hn d
    · rw [isLive_vacate h0] at hd
      exact hs.unlinked k d hk (by simpa [he] using hd)

/-- `s'` is `s` with the segment `g` put into the cell `h`, which was not in use. -/
structure Inserted (s : Store) (g : Segment) (h : Int) (s' : Store) : Prop where
  fresh : s.isLive h = false
  found : s'.get? h = some g
  unlinked : ∀ d, s'.link? d h = none
  kept : SameOff h s s'

theorem Inserted.isLive {g : Segment} (hi : Inserted s g h s') : s'.isLive h :=
  isLive_iff.mpr ⟨g, hi.found⟩

theorem Inserted.ne_of_isLive {g : Segment} (hi : Inserted s g h s') (hl : s.isLive k) :
    k ≠ h := by
  rintro rfl
  rw [hi.fresh] at hl
  cases hl

theorem Inserted.cell?_eq {g : Segment} (hi : Inserted s g h s') (hl : s.isLive k) :
    s'.cell? k = s.cell? k :=
  hi.kept k (nonneg_of_isLive hl) (hi.ne_of_isLive hl)

/-- A cell that gets a segment had no links before either. -/
theorem Inserted.link?_eq {g : Segment} (hs : s.Sound) (hi : Inserted s g h s') (hk : 0 ≤ k) :
    s'.link? d k = s.link? d k := by
  by_cases he : k = h
  · subst he
    rw [hi.unlinked, hs.unlinked k d hk hi.fresh]
  · exact hi.kept.link? hk he

theorem Inserted.sound {g : Segment} (hs : s.Sound) (hi : Inserted s g h s')
    (hn : s'.vacant.Nodup) (hv : ∀ k : Int, k ∈ s'.vacant ↔ k ∈ s.vacant ∧ k ≠ h)
    (hb : ∀ k : Int, k ≠ h → 0 ≤ k → (k < s'.cells.size ↔ k < s.cells.size)) : s'.Sound where
  nodup := hn
  mem_vacant k := by
    rw [hv, hs.mem_vacant]
    by_cases he : k = h
    · subst he; simp [hi.isLive]
    · rw [hi.kept.isLive he]
      have := hb k he
      constructor
      · rintro ⟨⟨⟨h0, hlt⟩, hd⟩, -⟩
        exact ⟨⟨h0, (this h0).mpr hlt⟩, hd⟩
      · rintro ⟨⟨h0, hlt⟩, hd⟩
        exact ⟨⟨⟨h0, (this h0).mp hlt⟩, hd⟩, he⟩
  unlinked k d hk hd := by
    by_cases he : k = h
    · rw [he]; exact hi.unlinked d
    · rw [hi.kept.isLive he] at hd
      rw [hi.kept.link? hk he]
      exact hs.unlinked k d hk hd

theorem insert_of_vacant (hs : s.Sound) (g : Segment) {rest : List Handle}
    (hv : s.vacant = h :: rest) :
    ∃ s', insert g s = .ok h s' ∧ Inserted s g h s' ∧ s'.Sound := by
  obtain ⟨⟨h0, hlt⟩, hd⟩ := (hs.mem_vacant h).mp (by rw [hv]; exact List.mem_cons_self)
  have hn := hs.nodup
  rw [hv] at hn
  obtain ⟨hnot, hn⟩ := List.nodup_cons.mp hn
  let s' : Store := { s with vacant := rest }.modifyCell h ({ · with segment? := some g })
  have hcell : ∀ k : Int, 0 ≤ k → s'.cell? k =
      if k = h then (s.cell? k).map ({ · with segment? := some g }) else s.cell? k :=
    fun k hk => cell?_modifyCell (s := { s with vacant := rest }) _ h0 hk
  have hin : s.cell? h = some s.cells[h.toNat] := by
    rw [cell?_of_nonneg h0, Array.getElem?_eq_getElem]
  have hi : Inserted s g h s' := by
    refine ⟨hd, ?_, fun d => ?_, fun k hk hne => by rw [hcell k hk, if_neg hne]⟩
    · unfold get?
      rw [if_pos h0, hcell h h0, if_pos rfl, hin]
      rfl
    · have hl := hs.unlinked h d h0 hd
      unfold link? at hl ⊢
      rw [hcell h h0, if_pos rfl]
      rw [hin] at hl ⊢
      cases d <;> exact hl
  refine ⟨s', by unfold insert; rw [hv], hi, hi.sound hs hn (fun k => ?_) (fun k _ _ => ?_)⟩
  · rw [hv, List.mem_cons]
    constructor
    · intro hm
      exact ⟨.inr hm, fun he => hnot (he ▸ hm)⟩
    · rintro ⟨rfl | hm, hne⟩
      · exact absurd rfl hne
      · exact hm
  · simp [s']

theorem insert_of_full (hs : s.Sound) (g : Segment) (hv : s.vacant = []) :
    ∃ s', insert g s = .ok (s.cells.size : Int) s' ∧ Inserted s g s.cells.size s' ∧ s'.Sound := by
  let s' : Store := { s with cells := s.cells.push { segment? := some g } }
  have hcell : ∀ k : Int, 0 ≤ k → s'.cell? k =
      if k = s.cells.size then some { segment? := some g } else s.cell? k := by
    intro k hk
    rw [cell?_of_nonneg hk, cell?_of_nonneg hk]
    show (s.cells.push _)[k.toNat]? = _
    rw [Array.getElem?_push]
    by_cases he : k = s.cells.size
    · rw [if_pos he, if_pos (by omega)]
    · rw [if_neg he, if_neg (by omega)]
  have hsize : (0 : Int) ≤ s.cells.size := by omega
  have hi : Inserted s g s.cells.size s' := by
    refine ⟨?_, ?_, fun d => ?_, fun k hk hne => by rw [hcell k hk, if_neg hne]⟩
    · by_contra hl
      have := lt_size_of_isLive (by simpa using hl)
      omega
    · unfold get?
      rw [if_pos hsize, hcell _ hsize, if_pos rfl]
      rfl
    · unfold link?
      rw [hcell _ hsize, if_pos rfl]
      cases d <;> rfl
  refine ⟨s', by unfold insert; simp only [hv, s'], hi,
    hi.sound hs hs.nodup (fun k => ?_) (fun k hne _ => ?_)⟩
  · show k ∈ s.vacant ↔ _
    rw [hv]
    simp
  · simp only [s', Array.size_push]
    omega

/-- A new segment goes into a cell that was not in use, and nothing else changes. -/
theorem insert_spec (hs : s.Sound) (g : Segment) :
    ∃ (h : Int) (s' : Store), insert g s = .ok h s' ∧ Inserted s g h s' ∧ s'.Sound := by
  cases hv : s.vacant with
  | nil => exact ⟨_, insert_of_full hs g hv⟩
  | cons h rest => exact ⟨h, insert_of_vacant hs g hv⟩

theorem inserted_of_insert (hs : s.Sound) {g : Segment} (hrun : insert g s = .ok h s') :
    Inserted s g h s' ∧ s'.Sound := by
  obtain ⟨k, t, hrun', hi, ht⟩ := insert_spec hs g
  rw [hrun] at hrun'
  cases hrun'
  exact ⟨hi, ht⟩

/-- With a new segment one more is live. -/
theorem size_of_insert (hs : s.Sound) {g : Segment} (hrun : insert g s = .ok h s') :
    s'.size = s.size + 1 := by
  have hle := hs.length_vacant_le
  unfold insert at hrun
  unfold size
  cases hv : s.vacant with
  | nil =>
    rw [hv] at hrun
    cases hrun
    exact Array.size_push _
  | cons k rest =>
    rw [hv] at hrun hle
    cases hrun
    rw [size_cells_modifyCell]
    show s.cells.size - rest.length = s.cells.size - (rest.length + 1) + 1
    rw [List.length_cons] at hle
    omega

/-! ## Reachable stores -/

/-- A call that changes the store. -/
inductive Action where
  | insert (g : Segment)
  | connect (d : Direction) (h : Handle) (target : Option Handle)
  | cut (d : Direction) (h : Handle)
  | remove (h : Handle)

/-- `t` is what `s` becomes by an action that is accepted. -/
def Accepts (s : Store) : Action → Store → Prop
  | .insert g, t => ∃ h, insert g s = .ok h t
  | .connect d h target, t => connect d h target s = .ok () t
  | .cut d h, t => ∃ answer, cut d h s = .ok answer t
  | .remove h, t => remove h s = .ok () t

/-- What accepted actions make of the empty store. -/
def Reachable (s : Store) : Prop :=
  Relation.ReflTransGen (fun s t => ∃ a, Accepts s a t) {} s

theorem Sound.accepts (hs : s.Sound) {a : Action} {t : Store} (ha : Accepts s a t) : t.Sound := by
  cases a with
  | insert g =>
    obtain ⟨h, hrun⟩ := ha
    exact (inserted_of_insert hs hrun).2
  | connect d h target =>
    obtain ⟨hl, -, rfl⟩ := connect_eq_ok_iff.mp ha
    exact hs.withLink hl
  | cut d h =>
    obtain ⟨answer, ha⟩ := ha
    obtain ⟨hl, -, rfl⟩ := cut_eq_ok_iff.mp ha
    exact hs.withLink hl
  | remove h =>
    obtain ⟨hl, hn, rfl⟩ := remove_eq_ok_iff.mp ha
    exact hs.vacate hl hn

theorem Reachable.sound (hr : s.Reachable) : s.Sound := by
  induction hr with
  | refl => exact sound_empty
  | tail _ hstep ih =>
    obtain ⟨a, ha⟩ := hstep
    exact ih.accepts ha

end Store

end XPathAssembly
