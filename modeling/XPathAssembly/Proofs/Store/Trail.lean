import XPathAssembly.Proofs.Store.Calls

/-!
# Trails

A trail is a walk along the links of one direction that comes to an end.  It passes through cells,
and it does not matter whether they hold a segment: a link may lead to a vacant cell, or to one that
is in use again.  A trail is determined by its head and comes to no cell twice, so it is no longer
than there are cells, and the bound on `walk` never cuts it short.

    s.Trail d head hs → s.walk d head = hs      (Trail.walk_eq)
-/

namespace XPathAssembly

namespace Store

variable {s s' : Store} {d : Direction} {head : Option Handle} {h k : Int} {i : Nat}
  {hs : List Handle}

/-! ## Cells by number -/

theorem index?_of_mem_range (h0 : 0 ≤ h) (hlt : h < s.cells.size) : s.index? h = some h.toNat := by
  unfold index?
  rw [if_pos h0, if_pos hlt]

theorem index?_of_size_le (hle : s.cells.size ≤ h) : s.index? h = none := by
  have h0 : 0 ≤ h := by omega
  have hlt : ¬ h < s.cells.size := by omega
  unfold index?
  rw [if_pos h0, if_neg hlt]

/-- A number designates a cell of the store or none. -/
theorem lt_size_of_index? (hi : s.index? h = some i) : i < s.cells.size := by
  by_cases h0 : 0 ≤ h
  · by_cases hlt : h < s.cells.size
    · rw [index?_of_mem_range h0 hlt] at hi
      cases hi
      omega
    · rw [index?_of_size_le (by omega)] at hi
      cases hi
  · unfold index? at hi
    rw [if_neg h0] at hi
    by_cases hle : -h ≤ s.cells.size
    · rw [if_pos hle] at hi
      cases hi
      omega
    · rw [if_neg hle] at hi
      cases hi

theorem index?_isSome_iff (h0 : 0 ≤ h) : (s.index? h).isSome ↔ h < s.cells.size := by
  by_cases hlt : h < s.cells.size
  · simp [index?_of_mem_range h0 hlt, hlt]
  · simp [index?_of_size_le (by omega : s.cells.size ≤ h), hlt]

/-- Numbers of one cell have the same links. -/
theorem link?_of_index?_eq (he : s.index? h = s.index? k) : s.link? d h = s.link? d k := by
  unfold link? cell?
  rw [he]

theorem link?_of_index?_eq_none (hi : s.index? h = none) : s.link? d h = none := by
  unfold link? cell?
  rw [hi]
  rfl

theorem index?_isSome_of_link? (hk : s.link? d h = some k) : (s.index? h).isSome := by
  cases hi : s.index? h with
  | none => rw [link?_of_index?_eq_none hi] at hk; cases hk
  | some i => rfl

/-- The links of direction `d` lead from `head` through the cells of `hs` and then end. -/
def Trail (s : Store) (d : Direction) : Option Handle → List Handle → Prop
  | head, [] => head = none
  | head, h :: rest => head = some h ∧ (s.index? h).isSome ∧ s.Trail d (s.link? d h) rest

namespace Trail

/-! ## What a trail passes -/

theorem index?_isSome (hl : s.Trail d head hs) : ∀ k ∈ hs, (s.index? k).isSome := by
  induction hs generalizing head with
  | nil => intro k hk; cases hk
  | cons h rest ih =>
    obtain ⟨-, hi, hr⟩ := hl
    intro k hk
    rcases List.mem_cons.mp hk with rfl | hk
    · exact hi
    · exact ih hr k hk

/-- A trail from a number begins with it. -/
theorem exists_cons (hl : s.Trail d (some h) hs) :
    ∃ rest, hs = h :: rest ∧ (s.index? h).isSome ∧ s.Trail d (s.link? d h) rest := by
  cases hs with
  | nil => cases hl
  | cons k rest =>
    obtain ⟨he, hi, hr⟩ := hl
    obtain rfl : h = k := Option.some.inj he
    exact ⟨rest, rfl, hi, hr⟩

theorem unique {hs' : List Handle} (hl : s.Trail d head hs) (hl' : s.Trail d head hs') :
    hs = hs' := by
  induction hs generalizing head hs' with
  | nil =>
    cases hs' with
    | nil => rfl
    | cons h rest => exact absurd (hl.symm.trans hl'.1) nofun
  | cons h rest ih =>
    cases hs' with
    | nil => exact absurd (hl'.symm.trans hl.1) nofun
    | cons h' rest' =>
      obtain ⟨he, -, hr⟩ := hl
      obtain ⟨he', -, hr'⟩ := hl'
      obtain rfl : h = h' := Option.some.inj (he.symm.trans he')
      rw [ih hr hr']

/-- From each of its numbers on, a trail is a trail. -/
theorem suffix (hl : s.Trail d head hs) {left right : List Handle} (he : hs = left ++ h :: right) :
    s.Trail d (some h) (h :: right) := by
  induction left generalizing head hs with
  | nil =>
    subst he
    exact ⟨rfl, hl.2⟩
  | cons k left ih =>
    subst he
    exact ih hl.2.2 rfl

/-- A cell met again would make the trail its own proper part. -/
theorem nodup_index? (hl : s.Trail d head hs) : (hs.map s.index?).Nodup := by
  induction hs generalizing head with
  | nil => exact List.nodup_nil
  | cons h rest ih =>
    obtain ⟨-, -, hr⟩ := hl
    refine List.nodup_cons.mpr ⟨fun hm => ?_, ih hr⟩
    obtain ⟨k, hk, he⟩ := List.mem_map.mp hm
    obtain ⟨left, right, hsplit⟩ := List.append_of_mem hk
    have hagain : s.Trail d (s.link? d k) right := (hr.suffix hsplit).2.2
    rw [link?_of_index?_eq he] at hagain
    have hlen := congrArg List.length (hr.unique hagain)
    rw [hsplit, List.length_append, List.length_cons] at hlen
    omega

theorem nodup (hl : s.Trail d head hs) : hs.Nodup := hl.nodup_index?.of_map

theorem length_le (hl : s.Trail d head hs) : hs.length ≤ s.cells.size := by
  have hsub : hs.map s.index? ⊆ (List.range s.cells.size).map some := by
    intro o ho
    obtain ⟨k, hk, rfl⟩ := List.mem_map.mp ho
    obtain ⟨i, hi⟩ := Option.isSome_iff_exists.mp (hl.index?_isSome k hk)
    rw [hi]
    exact List.mem_map_of_mem (List.mem_range.mpr (lt_size_of_index? hi))
  have hle := (List.subperm_of_subset hl.nodup_index? hsub).length_le
  rwa [List.length_map, List.length_map, List.length_range] at hle

/-! ## Bounded walks -/

theorem follow_eq (hl : s.Trail d head hs) {n : Nat} (hn : hs.length ≤ n) :
    s.follow d n head = hs := by
  induction hs generalizing head n with
  | nil =>
    obtain rfl : head = none := hl
    cases n <;> rfl
  | cons h rest ih =>
    obtain ⟨rfl, -, hr⟩ := hl
    cases n with
    | zero => simp at hn
    | succ n =>
      show h :: s.follow d n (s.link? d h) = _
      rw [ih hr (by simpa using hn)]

theorem walk_eq (hl : s.Trail d head hs) : s.walk d head = hs :=
  hl.follow_eq (by have := hl.length_le; omega)

theorem last_eq (hl : s.Trail d (some h) hs) : s.last d h = hs.getLastD h := by
  unfold last
  rw [hl.walk_eq]

theorem walkFrom_eq (hl : s.Trail d (some h) hs) : s.walkFrom d (some h) = .ok hs := by
  obtain ⟨-, -, hi, -⟩ := hl.exists_cons
  show (if (s.index? h).isSome then Except.ok (s.walk d (some h)) else _) = _
  rw [if_pos hi, hl.walk_eq]

/-- A link is refused as a cycle exactly if it would be set on a cell of the trail. -/
theorem checkAcyclic_eq (hl : s.Trail d (some h) hs) (j : Handle) :
    s.checkAcyclic d j h = if j ∈ hs then .error (.cycle d) else .ok () := by
  obtain ⟨-, -, hi, -⟩ := hl.exists_cons
  have hsome : (s.index? h).isNone = false := Option.isNone_eq_false_iff.mpr hi
  unfold checkAcyclic
  rw [hl.walk_eq, hsome]
  rfl

/-! ## Links that change -/

/-- A trail stays one as long as its cells keep their links. -/
theorem congr (hl : s.Trail d head hs)
    (hc : ∀ k ∈ hs, (s'.index? k).isSome ∧ s'.link? d k = s.link? d k) : s'.Trail d head hs := by
  induction hs generalizing head with
  | nil => exact hl
  | cons h rest ih =>
    obtain ⟨hi, hk⟩ := hc h List.mem_cons_self
    refine ⟨hl.1, hi, ?_⟩
    rw [hk]
    exact ih hl.2.2 fun k hm => hc k (List.mem_cons_of_mem _ hm)

/-- A trail on which the link of one cell is set goes on along the new link. -/
theorem redirect {left right rest : List Handle} (hl : s.Trail d head (left ++ h :: right))
    (hc : ∀ k ∈ left, (s'.index? k).isSome ∧ s'.link? d k = s.link? d k)
    (hi : (s'.index? h).isSome) (hr : s'.Trail d (s'.link? d h) rest) :
    s'.Trail d head (left ++ h :: rest) := by
  induction left generalizing head with
  | nil => exact ⟨hl.1, hi, hr⟩
  | cons k left ih =>
    obtain ⟨hi', hk⟩ := hc k List.mem_cons_self
    refine ⟨hl.1, hi', ?_⟩
    rw [hk]
    exact ih hl.2.2 fun j hm => hc j (List.mem_cons_of_mem _ hm)

end Trail

end Store

end XPathAssembly
