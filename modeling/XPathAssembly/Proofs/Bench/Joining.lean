import XPathAssembly.Proofs.Bench.Calls
import XPathAssembly.Proofs.Store.Splicing

/-!
# Joining the chains of slots

The chains of slots are joined as they lie, in the order of the slots; an empty slot adds nothing.
All slots are left empty.  Only the last segments of the chains get new links.

    b.HoldsLine i hs for each slot → no segment in two of them →
      join is b = .ok (head of the first slot that is not empty) b' ∧
        b'.store.Line .next … hss.flatten ∧ …                         (join_lines)
-/

namespace XPathAssembly

namespace Bench

variable {b : Bench} {is : List Nat} {hss : List (List Handle)}

/-- There is a slot of this number, and its chain passes the segments `hs`. -/
def HoldsLine (b : Bench) (i : Nat) (hs : List Handle) : Prop :=
  ∃ held, b.slots[i]? = some held ∧ b.store.Line .next held hs

/-- What comes of joining the slots `is`, whose chains pass the segments `hss`. -/
structure Joined (b : Bench) (is : List Nat) (hss : List (List Handle)) (answer : Option Handle)
    (b' : Bench) : Prop where
  head : answer = is.findSome? fun i => b.slots[i]?.join
  line : b'.store.Line .next answer hss.flatten
  walk : b'.store.walkFrom .next answer = .ok hss.flatten
  emptied : ∀ i ∈ is, b'.slots[i]? = some none
  slots : ∀ i ∉ is, b'.slots[i]? = b.slots[i]?
  cursors : b'.cursors = b.cursors
  segments : ∀ k : Handle, b'.store.get? k = b.store.get? k
  siblings : ∀ k : Int, 0 ≤ k → b'.store.link? .sibling k = b.store.link? .sibling k
  next : ∀ k : Int, 0 ≤ k → k ∉ hss.filterMap List.getLast? →
    b'.store.link? .next k = b.store.link? .next k
  size : b'.store.size = b.store.size

/-! ## Slots that hold lines -/

theorem lines_of_holdsLine (hl : List.Forall₂ b.HoldsLine is hss) :
    List.Forall₂ (b.store.Line .next) (is.map fun i => b.slots[i]?.join) hss := by
  refine List.forall₂_map_left_iff.mpr (hl.imp fun i hs hi => ?_)
  obtain ⟨held, hheld, hline⟩ := hi
  rw [hheld]
  exact hline

theorem lt_size_of_holdsLine (hl : List.Forall₂ b.HoldsLine is hss) :
    ∀ i ∈ is, i < b.slots.size := by
  intro i hm
  obtain ⟨hs, -, held, hheld, -⟩ := Store.exists_of_mem_left hl hm
  exact (Array.getElem?_eq_some_iff.mp hheld).1

/-- A chain that has no segment in common with itself is empty. -/
theorem namedOnce_of_disjoint (hl : List.Forall₂ b.HoldsLine is hss)
    (hd : hss.Pairwise List.Disjoint) : b.NamedOnce is := by
  induction hl with
  | nil => exact .nil
  | @cons i hs is hss hi hrest ih =>
    obtain ⟨hfirst, hd⟩ := List.pairwise_cons.mp hd
    refine .cons ?_ (ih hd)
    rintro _ hm rfl
    obtain ⟨held, hheld, hline⟩ := hi
    obtain ⟨hs', hm', held', hheld', hline'⟩ := Store.exists_of_mem_left hrest hm
    obtain rfl : held = held' := Option.some.inj (hheld.symm.trans hheld')
    obtain rfl := hline.unique hline'
    obtain rfl : hs = [] := List.eq_nil_iff_forall_not_mem.mpr fun k hk => hfirst hs hm' hk hk
    rw [hheld]
    exact hline

/-! ## Joining -/

/-- **Joining concatenates.**  Slots whose chains have no segment in common are joined without a
fault: the answer is the head of the first chain, the walk from it passes the segments of all chains
in order, all slots are empty, and but for the links of the last segments nothing has changed. -/
theorem join_lines (hl : List.Forall₂ b.HoldsLine is hss) (hd : hss.Pairwise List.Disjoint) :
    ∃ answer b', Bench.join is b = .ok answer b' ∧ b.Joined is hss answer b' := by
  have hlines := lines_of_holdsLine hl
  have hi := lt_size_of_holdsLine hl
  obtain ⟨s, hrun, hline, hr⟩ :=
    Store.extendAll_none_lines hlines (Store.nodup_flatten_of_lines hlines hd)
  have hjoin := join_eq (namedOnce_of_disjoint hl hd) hi (Store.all_isChain hlines) hrun
  rw [Ends.map_first_of?] at hjoin
  refine ⟨_, _, hjoin, ?_, hline, hline.walkFrom_eq, getElem?_emptied_of_mem hi, fun i hm => ?_,
    rfl, hr.found, fun k hk => hr.kept .sibling k hk nofun,
    fun k hk hn => hr.kept .next k hk fun _ => hn, hr.size⟩
  · rw [List.head?_flatten]
    show hss.findSome? (id ∘ List.head?) = is.findSome? (id ∘ fun i => b.slots[i]?.join)
    rw [← List.findSome?_map, ← List.findSome?_map, Store.map_head?_eq hlines]
  · show (Bench.emptied b.slots is)[i]? = _
    rw [getElem?_emptied, if_neg hm]

/-- Slots with one, two and no segments; the expression in slot 2 has another one as its sibling. -/
def threeSlots : Bench where
  store :=
    { cells := #[⟨some (.ofText ['a'] .bare), none, none⟩, ⟨some (.ofText ['c'] .bare), none, none⟩,
        ⟨some (.ofText ['/'] .slash), some 1, some 3⟩, ⟨some (.ofText ['d'] .bare), none, none⟩] }
  slots := #[some 0, none, some 2]

/-- The slot without a chain is named twice. -/
theorem joined_threeSlots :
    ∃ answer b', Bench.join [1, 2, 1, 0] threeSlots = .ok answer b' ∧
      threeSlots.Joined [1, 2, 1, 0] [[], [2, 1], [], [0]] answer b' := by
  have hempty : threeSlots.HoldsLine 1 [] := ⟨none, rfl, rfl⟩
  have hl : List.Forall₂ threeSlots.HoldsLine [1, 2, 1, 0] [[], [2, 1], [], [0]] :=
    .cons hempty (.cons ⟨some 2, rfl, rfl, rfl, rfl, rfl, rfl⟩
      (.cons hempty (.cons ⟨some 0, rfl, rfl, rfl, rfl⟩ .nil)))
  exact join_lines hl (by simp [List.Disjoint])

end Bench

end XPathAssembly
