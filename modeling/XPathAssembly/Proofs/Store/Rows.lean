import XPathAssembly.Proofs.Store.Forest
import XPathAssembly.Proofs.Store.Growth

/-!
# Rows

The tree of an expression without siblings is a row, its segments one after the other.  Such
expressions make up a concatenation whose tree is the rows, one below the other: only the first
segment of each row has a sibling, and this is the first one of the next row.

    s.Holds head (rows hss) → s.Line .sibling head (hss.filterMap List.head?)  (Holds.line_rows)

Grafted one after the other, rows grow at their end and a concatenation below its last row, so the
calls that join chains are followed on lists of handles.

While rows are built, the store is a forest in which each tree goes by its first segment
(`Planted`).  So a segment that is not live yet names no tree, and rows of new segments have nothing
in common with those that are there (`Rowed`).
-/

namespace XPathAssembly

namespace Tree

variable {h : Handle} {hs ks : List Handle} {hss kss : List (List Handle)}

/-! ## Definitions -/

/-- The segments of an expression, none of them with siblings. -/
def row : List Handle → Tree
  | [] => empty
  | h :: hs => node h empty (row hs)

/-- The expressions of a concatenation; those without segments are passed over. -/
def rows : List (List Handle) → Tree
  | [] => empty
  | [] :: hss => rows hss
  | (h :: hs) :: hss => node h (rows hss) (row hs)

/-! ## Lemmas -/

theorem map_head?_eq (hne : [] ∉ hss) :
    hss.map List.head? = (hss.filterMap List.head?).map some := by
  induction hss with
  | nil => rfl
  | cons hs hss ih =>
    obtain ⟨hhs, hhss⟩ := not_or.mp (List.mem_cons.not.mp hne)
    cases hs with
    | nil => exact absurd rfl hhs
    | cons h hs => exact congrArg (some h :: ·) (ih hhss)

theorem heads_sublist (hss : List (List Handle)) :
    (hss.filterMap List.head?).Sublist hss.flatten := by
  induction hss with
  | nil => exact .refl _
  | cons hs hss ih =>
    cases hs with
    | nil => exact ih
    | cons h hs => exact (ih.trans (List.sublist_append_right hs _)).cons_cons h

@[simp] theorem head?_row (hs : List Handle) : (row hs).head? = hs.head? := by
  cases hs <;> rfl

@[simp] theorem handles_row (hs : List Handle) : (row hs).handles = hs := by
  induction hs with
  | nil => rfl
  | cons h hs ih =>
    show [] ++ h :: (row hs).handles = h :: hs
    rw [ih, List.nil_append]

theorem line_row (hs : List Handle) : (row hs).line .next = hs := by
  induction hs with
  | nil => rfl
  | cons h hs ih => exact congrArg (h :: ·) ih

theorem row_graft (hs ks : List Handle) : (row hs).graft .next (row ks) = row (hs ++ ks) := by
  induction hs with
  | nil => rfl
  | cons h hs ih =>
    show node h empty ((row hs).graft .next (row ks)) = _
    rw [ih]
    rfl

theorem foldl_row (hs ks : List Handle) :
    (ks.map fun k => row [k]).foldl (graft .next) (row hs) = row (hs ++ ks) := by
  induction ks generalizing hs with
  | nil => rw [List.append_nil]; rfl
  | cons k ks ih =>
    rw [List.map_cons, List.foldl_cons, row_graft, ih, List.append_assoc]
    rfl

theorem line_rows (hss : List (List Handle)) :
    (rows hss).line .sibling = hss.filterMap List.head? := by
  induction hss with
  | nil => rfl
  | cons hs hss ih =>
    cases hs with
    | nil => exact ih
    | cons h hs => exact congrArg (h :: ·) ih

theorem handles_rows (hss : List (List Handle)) : (rows hss).handles.Perm hss.flatten := by
  induction hss with
  | nil => exact .refl _
  | cons hs hss ih =>
    cases hs with
    | nil => exact ih
    | cons h hs =>
      show ((rows hss).handles ++ h :: (row hs).handles).Perm (h :: hs ++ hss.flatten)
      rw [handles_row]
      exact (ih.append_right _).trans List.perm_append_comm

theorem rows_graft (hss : List (List Handle)) (hs : List Handle) :
    (rows hss).graft .sibling (row hs) = rows (hss ++ [hs]) := by
  induction hss with
  | nil => cases hs <;> rfl
  | cons ks hss ih =>
    cases ks with
    | nil => exact ih
    | cons k ks =>
      show node k ((rows hss).graft .sibling (row hs)) (row ks) = _
      rw [ih]
      rfl

theorem foldl_rows (hss kss : List (List Handle)) :
    (kss.map row).foldl (graft .sibling) (rows hss) = rows (hss ++ kss) := by
  induction kss generalizing hss with
  | nil => rw [List.append_nil]; rfl
  | cons ks kss ih =>
    rw [List.map_cons, List.foldl_cons, rows_graft, ih, List.append_assoc]
    rfl

end Tree

namespace Store

variable {s s' : Store} {T : Option Handle → Tree} {head : Option Handle} {h k : Int}
  {hs : List Handle} {hss : List (List Handle)}

/-! ## Rows in the store -/

theorem Holds.link?_sibling_row (hh : s.Holds head (Tree.row hs)) (hk : k ∈ hs) :
    s.link? .sibling k = none := by
  induction hs generalizing head with
  | nil => cases hk
  | cons h hs ih =>
    obtain ⟨-, -, hsibling, hrest⟩ := hh
    rcases List.mem_cons.mp hk with rfl | hk
    · exact hsibling
    · exact ih hrest hk

theorem Holds.line_rows (hh : s.Holds head (Tree.rows hss)) :
    s.Line .sibling head (hss.filterMap List.head?) := by
  rw [← Tree.line_rows]
  exact hh.line .sibling

/-- Only the first segments of the rows have siblings. -/
theorem Holds.mem_of_link?_rows (hh : s.Holds head (Tree.rows hss))
    (hk : k ∈ (Tree.rows hss).handles) (hl : s.link? .sibling k ≠ none) :
    k ∈ hss.filterMap List.head? := by
  induction hss generalizing head with
  | nil => cases hk
  | cons hs hss ih =>
    cases hs with
    | nil => exact ih hh hk
    | cons h hs =>
      obtain ⟨-, -, hrows, hrow⟩ := hh
      rw [List.filterMap_cons]
      rcases List.mem_append.mp hk with hk | hk
      · exact List.mem_cons_of_mem _ (ih hrows hk)
      · rcases List.mem_cons.mp hk with rfl | hk
        · exact List.mem_cons_self
        · rw [Tree.handles_row] at hk
          exact absurd (hrow.link?_sibling_row hk) hl

/-- Each row is the line of its first segment. -/
theorem Holds.line_row (hh : s.Holds head (Tree.rows hss)) (hm : hs ∈ hss) :
    s.Line .next hs.head? hs := by
  induction hss generalizing head with
  | nil => cases hm
  | cons ks hss ih =>
    cases ks with
    | nil =>
      rcases List.mem_cons.mp hm with rfl | hm
      · rfl
      · exact ih hh hm
    | cons k ks =>
      obtain ⟨-, hl, hrows, hrow⟩ := hh
      rcases List.mem_cons.mp hm with rfl | hm
      · refine ⟨rfl, hl, ?_⟩
        have hline := hrow.line .next
        rwa [Tree.line_row] at hline
      · exact ih hrows hm

section
variable {live : List Handle}

/-- Each cell is that of a live segment or vacant. -/
theorem Sound.perm_range (hs : s.Sound) (hn : live.Nodup) (hm : ∀ k : Int, k ∈ live ↔ s.isLive k) :
    (live ++ s.vacant).Perm ((List.range s.cells.size).map Int.ofNat) := by
  have hrange : ∀ k : Int,
      k ∈ (List.range s.cells.size).map Int.ofNat ↔ 0 ≤ k ∧ k < s.cells.size := by
    intro k
    rw [List.mem_map]
    constructor
    · rintro ⟨n, hlt, rfl⟩
      exact ⟨Int.natCast_nonneg n, Int.ofNat_lt.mpr (List.mem_range.mp hlt)⟩
    · rintro ⟨h0, hlt⟩
      exact ⟨k.toNat, List.mem_range.mpr (by omega), Int.toNat_of_nonneg h0⟩
  refine (List.perm_ext_iff_of_nodup ?_ ?_).mpr fun k => ?_
  · refine List.nodup_append.mpr ⟨hn, hs.nodup, ?_⟩
    rintro a ha b hb rfl
    have hl := (hm a).mp ha
    rw [((hs.mem_vacant a).mp hb).2] at hl
    cases hl
  · exact List.nodup_range.map fun _ _ => Int.ofNat.inj
  · rw [List.mem_append, hm, hs.mem_vacant, hrange]
    constructor
    · rintro (hl | ⟨hr, -⟩)
      · exact ⟨nonneg_of_isLive hl, lt_size_of_isLive hl⟩
      · exact hr
    · intro hr
      cases hl : s.isLive k with
      | true => exact .inl rfl
      | false => exact .inr ⟨hr, rfl⟩

/-- The number of live segments is that of any list that has each of them once. -/
theorem Sound.size_eq (hs : s.Sound) (hn : live.Nodup) (hm : ∀ k : Int, k ∈ live ↔ s.isLive k) :
    s.size = live.length := by
  have hlen := (hs.perm_range hn hm).length_eq
  rw [List.length_append, List.length_map, List.length_range] at hlen
  unfold size
  omega

end

/-! ## Trees that go by their first segments -/

/-- The store is a forest, and the owner of a tree is named by its first segment. -/
structure Planted (s : Store) (T : Option Handle → Tree) : Prop where
  sound : s.Sound
  forest : s.Forest T
  named : ∀ p k, (T p).head? = some k → p = some k

theorem planted_empty : Planted {} fun _ => .empty where
  sound := sound_empty
  forest := forest_empty
  named _ _ := nofun

namespace Planted

theorem inHand (hp : s.Planted T) : T none = .empty := by
  cases hh : (T none).head? with
  | none => exact Tree.head?_eq_none_iff.mp hh
  | some k => cases hp.named none k hh

theorem vacant (hp : s.Planted T) (hl : s.isLive h = false) : T (some h) = .empty := by
  cases hh : (T (some h)).head? with
  | none => exact Tree.head?_eq_none_iff.mp hh
  | some k =>
    obtain rfl := Option.some.inj (hp.named _ k hh)
    have hlive : s.isLive h := (holds_some_iff.mp (hh ▸ hp.forest.holds (some h))).1
    rw [hl] at hlive
    cases hlive

theorem isLive (hp : s.Planted T) (hT : T hs.head? = Tree.row hs) : ∀ k ∈ hs, s.isLive k := by
  intro k hk
  refine hp.forest.isLive (o := hs.head?) ?_
  rw [hT, Tree.handles_row]
  exact hk

/-- A tree may be given to the owner that is named by its first segment. -/
theorem named_update (hp : s.Planted T) {o : Option Handle} {t : Tree}
    (ht : ∀ k, t.head? = some k → o = some k) (p : Option Handle) (k : Handle)
    (hk : (Function.update T o t p).head? = some k) : p = some k := by
  by_cases he : p = o
  · rw [he, Function.update_self] at hk
    rw [he]
    exact ht k hk
  · rw [Function.update_of_ne he] at hk
    exact hp.named p k hk

/-- A new segment is a tree of its own. -/
theorem inserted (hp : s.Planted T) {g : Segment} (hi : Inserted s g h s') (hs : s'.Sound) :
    s'.Planted (Function.update T (some h) (Tree.row [h])) where
  sound := hs
  forest := hp.forest.inserted hi (hp.vacant hi.fresh)
  named := hp.named_update fun _ hk => hk

/-- A row that was made in hand is given over to its first segment. -/
theorem settle (hp : s.Planted T) {T' : Option Handle → Tree} (hs' : s'.Sound)
    (hf : s'.Forest T') (hrow : T' none = Tree.row hs) (hkept : ∀ h, T' (some h) = T (some h)) :
    s'.Planted (Function.update T hs.head? (Tree.row hs)) := by
  refine ⟨hs', ?_, hp.named_update fun k hk => (Tree.head?_row hs).symm.trans hk⟩
  cases hs with
  | nil =>
    have he : Function.update T none .empty = T' := by
      rw [← hp.inHand, Function.update_eq_self]
      funext p
      cases p with
      | none => rw [hp.inHand, hrow]; rfl
      | some h => exact (hkept h).symm
    show s'.Forest (Function.update T none .empty)
    rw [he]
    exact hf
  | cons h rest =>
    -- Its first segment names no other tree, since no segment is in two of them.
    have hvacant : T' (some h) = .empty := by
      cases hh : (T' (some h)).head? with
      | none => exact Tree.head?_eq_none_iff.mp hh
      | some k =>
        have hname := hp.named (some h) k (hkept h ▸ hh)
        obtain rfl := Option.some.inj hname
        have hin : h ∈ (T' (some h)).handles := Tree.mem_handles_iff.mpr ⟨[], hh⟩
        have hin' : h ∈ (T' none).handles := by
          rw [hrow, Tree.handles_row]
          exact List.mem_cons_self
        cases hf.disjoint _ _ h hin hin'
    have hne : some h ≠ none := Option.some_ne_none h
    have he : Function.update T (some h) (Tree.row (h :: rest)) =
        joined T' .next (some h) none := by
      funext p
      by_cases hph : p = some h
      · rw [hph, Function.update_self, joined_of hne, hvacant, hrow]
        rfl
      · rw [Function.update_of_ne hph]
        cases p with
        | none => rw [joined_emptied, hp.inHand]
        | some k => rw [joined_of_ne hph (Option.some_ne_none k), hkept]
    show s'.Forest (Function.update T (some h) (Tree.row (h :: rest)))
    rw [he]
    exact hf.move hne hvacant

end Planted

/-! ## Rows and nothing else -/

/-- The trees of the store are these rows. -/
structure Rowed (s : Store) (T : Option Handle → Tree) (hss : List (List Handle)) : Prop
    extends Planted s T where
  row : ∀ hs ∈ hss, T hs.head? = Tree.row hs
  other : ∀ p, p ∉ hss.map List.head? → T p = .empty
  nodup : hss.flatten.Nodup

theorem rowed_empty : Rowed {} (fun _ => .empty) [] where
  toPlanted := planted_empty
  row := nofun
  other _ _ := rfl
  nodup := List.nodup_nil

namespace Rowed

theorem isLive_iff (hr : s.Rowed T hss) (k : Handle) : k ∈ hss.flatten ↔ s.isLive k := by
  constructor
  · intro hk
    obtain ⟨hs, hm, hk⟩ := List.mem_flatten.mp hk
    exact hr.toPlanted.isLive (hr.row hs hm) k hk
  · intro hl
    obtain ⟨p, hp⟩ := hr.forest.covers k hl
    by_cases hm : p ∈ hss.map List.head?
    · obtain ⟨hs, hin, rfl⟩ := List.mem_map.mp hm
      rw [hr.row hs hin, Tree.handles_row] at hp
      exact List.mem_flatten.mpr ⟨hs, hin, hp⟩
    · rw [hr.other p hm] at hp
      cases hp

/-- Rows of new segments are below those that are there. -/
theorem append (hr : s.Rowed T hss) {gs : List Segment} (ha : Added s hs gs s')
    (hp : s'.Planted (Function.update T hs.head? (Tree.row hs))) :
    s'.Rowed (Function.update T hs.head? (Tree.row hs)) (hss ++ [hs]) where
  toPlanted := hp
  row ks hm := by
    rcases List.mem_append.mp hm with hin | hin
    · by_cases he : ks.head? = hs.head?
      · cases hs with
        | nil =>
          rw [List.head?_eq_none_iff.mp he]
          exact Function.update_self ..
        | cons h rest =>
          have hl := hr.toPlanted.isLive (hr.row ks hin) h (List.mem_of_head? he)
          exact absurd List.mem_cons_self (ha.not_mem hl)
      · rw [Function.update_of_ne he]
        exact hr.row ks hin
    · rw [List.mem_singleton.mp hin]
      exact Function.update_self ..
  other p hm := by
    rw [List.map_append, List.mem_append, not_or, List.map_singleton, List.mem_singleton] at hm
    rw [Function.update_of_ne hm.2]
    exact hr.other p hm.1
  nodup := by
    rw [List.flatten_append, List.flatten_singleton]
    refine List.nodup_append.mpr ⟨hr.nodup, ha.nodup, ?_⟩
    rintro h hh _ hh' rfl
    exact ha.not_mem ((hr.isLive_iff h).mp hh) hh'

end Rowed

end Store

end XPathAssembly
