import XPathAssembly.Proofs.Store.Trail

/-!
# Lines

A line is a trail over live segments only.  It is determined by its head, passes no segment twice,
and the bound on `walk` never cuts it short.

    s.Line d head hs → s.walk d head = hs      (Line.walk_eq)
-/

namespace XPathAssembly

namespace Store

variable {s s' : Store} {d : Direction} {head : Option Handle} {h : Handle} {hs : List Handle}

/-- The links of direction `d` lead from `head` through the live segments `hs` and then end. -/
def Line (s : Store) (d : Direction) : Option Handle → List Handle → Prop
  | head, [] => head = none
  | head, h :: rest => head = some h ∧ s.isLive h ∧ s.Line d (s.link? d h) rest

namespace Line

theorem isLive (hl : s.Line d head hs) : ∀ k ∈ hs, s.isLive k := by
  induction hs generalizing head with
  | nil => intro k hk; cases hk
  | cons h rest ih =>
    obtain ⟨-, hh, hr⟩ := hl
    intro k hk
    rcases List.mem_cons.mp hk with rfl | hk
    · exact hh
    · exact ih hr k hk

theorem isChain (hl : s.Line d head hs) : s.isChain head := by
  cases hs with
  | nil =>
    obtain rfl : head = none := hl
    rfl
  | cons h rest =>
    obtain ⟨rfl, hh, -⟩ := hl
    exact hh

theorem head?_eq (hl : s.Line d head hs) : hs.head? = head := by
  cases hs with
  | nil => exact hl.symm
  | cons h rest => exact hl.1.symm

/-- A line stays one as long as its segments stay live and keep their links. -/
theorem congr (hl : s.Line d head hs)
    (hc : ∀ k ∈ hs, s'.isLive k ∧ s'.link? d k = s.link? d k) : s'.Line d head hs := by
  induction hs generalizing head with
  | nil => exact hl
  | cons h rest ih =>
    obtain ⟨hh, hk⟩ := hc h List.mem_cons_self
    refine ⟨hl.1, hh, ?_⟩
    rw [hk]
    exact ih hl.2.2 fun k hm => hc k (List.mem_cons_of_mem _ hm)

/-- A line is a trail, on which every cell holds a live segment. -/
theorem trail (hl : s.Line d head hs) : s.Trail d head hs := by
  induction hs generalizing head with
  | nil => exact hl
  | cons h rest ih => exact ⟨hl.1, index?_isSome_of_isLive hl.2.1, ih hl.2.2⟩

theorem unique {hs' : List Handle} (hl : s.Line d head hs) (hl' : s.Line d head hs') :
    hs = hs' :=
  hl.trail.unique hl'.trail

/-- From each of its segments on, a line is a line. -/
theorem suffix (hl : s.Line d head hs) {left right : List Handle} (he : hs = left ++ h :: right) :
    s.Line d (some h) (h :: right) := by
  induction left generalizing head hs with
  | nil =>
    subst he
    exact ⟨rfl, hl.2⟩
  | cons k left ih =>
    subst he
    exact ih hl.2.2 rfl

theorem nodup (hl : s.Line d head hs) : hs.Nodup := hl.trail.nodup

theorem walk_eq (hl : s.Line d head hs) : s.walk d head = hs := hl.trail.walk_eq

theorem walkFrom_eq (hl : s.Line d head hs) : s.walkFrom d head = .ok hs := by
  cases head with
  | none =>
    obtain rfl : hs = [] := List.head?_eq_none_iff.mp hl.head?_eq
    rfl
  | some h => exact hl.trail.walkFrom_eq

theorem last_eq (hl : s.Line d (some h) hs) : s.last d h = hs.getLastD h := hl.trail.last_eq

/-- The last segment of a line has no link of its direction. -/
theorem link?_of_getLast? (hl : s.Line d head hs) {last : Handle} (he : hs.getLast? = some last) :
    s.link? d last = none := by
  obtain ⟨left, rfl⟩ := List.getLast?_eq_some_iff.mp he
  exact (hl.suffix rfl).2.2

/-- Nothing is linked to the head of a line that passes one segment at most. -/
theorem bind_link?_eq_none_iff (hl : s.Line d head hs) :
    head.bind (s.link? d) = none ↔ hs.length ≤ 1 := by
  cases hs with
  | nil =>
    obtain rfl : head = none := hl
    exact iff_of_true rfl (Nat.zero_le 1)
  | cons h rest =>
    obtain ⟨rfl, -, hrest⟩ := hl
    show s.link? d h = none ↔ _
    cases rest with
    | nil => exact iff_of_true hrest (Nat.le_refl 1)
    | cons k rest =>
      rw [hrest.1]
      exact iff_of_false nofun (by simp)

end Line

end Store

end XPathAssembly
