import XPathAssembly.Proofs.Store.Tree
import XPathAssembly.Chain
import Mathlib.Data.List.Perm.Basic

/-!
# Grafts

To join two chains is to graft the tree of the second one onto the end of the line of the first.
The link is set at one segment only, so all other trees of the store stay as they are.
-/

namespace XPathAssembly

namespace Tree

variable {t u : Tree} {d : Direction} {h k : Handle}

/-! ## Definitions -/

/-- The tree with `u` attached after the last segment of its line. -/
def graft (d : Direction) : Tree → Tree → Tree
  | empty, u => u
  | node h siblings rest, u =>
    match d with
    | .next => node h siblings (rest.graft d u)
    | .sibling => node h (siblings.graft d u) rest

/-- The two ends of a line. -/
def ends (d : Direction) (t : Tree) : Option Ends :=
  t.head?.map fun h => ⟨h, (t.line d).getLastD h⟩

/-! ## Lemmas -/

@[simp] theorem empty_graft (u : Tree) : empty.graft d u = u := rfl

@[simp] theorem graft_empty (t : Tree) : t.graft d empty = t := by
  induction t with
  | empty => rfl
  | node h siblings rest ihs ihr =>
    cases d with
    | next => rw [graft, ihr]
    | sibling => rw [graft, ihs]

theorem head?_graft (t u : Tree) : (t.graft d u).head? = t.head?.or u.head? := by
  cases t with
  | empty => rfl
  | node h siblings rest => cases d <;> rfl

theorem line_graft (t u : Tree) : (t.graft d u).line d = t.line d ++ u.line d := by
  induction t with
  | empty => rfl
  | node h siblings rest ihs ihr =>
    cases d with
    | next => simp only [graft, line, ihr, List.cons_append]
    | sibling => simp only [graft, line, ihs, List.cons_append]

theorem handles_graft (t u : Tree) :
    (t.graft d u).handles.Perm (t.handles ++ u.handles) := by
  induction t with
  | empty => exact .refl _
  | node h siblings rest ihs ihr =>
    cases d with
    | next =>
      simp only [graft, handles, List.append_assoc, List.cons_append]
      exact (ihr.cons h).append_left _
    | sibling =>
      simp only [graft, handles, List.append_assoc]
      refine (ihs.append_right _).trans ?_
      rw [List.append_assoc]
      exact List.perm_append_comm.append_left _

theorem head?_eq_none_iff : t.head? = none ↔ t = empty := by
  cases t <;> simp [head?]

theorem line_eq_nil_iff : t.line d = [] ↔ t = empty := by
  cases t with
  | empty => exact ⟨fun _ => rfl, fun _ => rfl⟩
  | node h siblings rest => cases d <;> simp [line]

theorem mem_handles_of_mem_line (hm : h ∈ t.line d) : h ∈ t.handles := by
  induction t with
  | empty => cases hm
  | node k siblings rest ihs ihr =>
    rw [handles, List.mem_append, List.mem_cons]
    cases d with
    | next =>
      rcases List.mem_cons.mp hm with rfl | hm
      · exact .inr (.inl rfl)
      · exact .inr (.inr (ihr hm))
    | sibling =>
      rcases List.mem_cons.mp hm with rfl | hm
      · exact .inr (.inl rfl)
      · exact .inl (ihs hm)

theorem ends_eq_some_iff {e : Ends} :
    t.ends d = some e ↔ t.head? = some e.first ∧ (t.line d).getLast? = some e.last := by
  unfold ends
  cases t with
  | empty => simp [head?]
  | node h siblings rest =>
    obtain ⟨first, last⟩ := e
    cases d <;> simp [head?, line, List.getLastD_eq_getLast?, List.getLast?_cons]

theorem ends_eq_none_iff : t.ends d = none ↔ t = empty := by
  unfold ends
  rw [Option.map_eq_none_iff, head?_eq_none_iff]

theorem map_first_ends : (t.ends d).map Ends.first = t.head? := by
  unfold ends
  rw [Option.map_map]
  cases t.head? <;> rfl

/-- A graft starts where the first tree starts and ends where the second one ends. -/
theorem ends_graft {e : Ends} (hu : u.ends d = some e) :
    (t.graft d u).ends d = some ⟨(t.head?).getD e.first, e.last⟩ := by
  obtain ⟨hh, hl⟩ := ends_eq_some_iff.mp hu
  refine ends_eq_some_iff.mpr ⟨?_, ?_⟩
  · rw [head?_graft, hh]
    cases t.head? <;> rfl
  · rw [line_graft, List.getLast?_append, hl]
    rfl

theorem last_mem_handles {e : Ends} (he : t.ends d = some e) : e.last ∈ t.handles :=
  mem_handles_of_mem_line (List.mem_of_getLast? (ends_eq_some_iff.mp he).2)

/-! ## Branches -/

section
variable {siblings rest : Tree} {d' : Direction}

theorem line_node : (node h siblings rest).line d =
    h :: ((node h siblings rest).branch d).line d := by
  cases d <;> rfl

theorem branch_graft : ((node h siblings rest).graft d u).branch d' =
    if d' = d then ((node h siblings rest).branch d).graft d u
    else (node h siblings rest).branch d' := by
  cases d <;> cases d' <;> rfl

theorem nodup_branch (hn : (node h siblings rest).handles.Nodup) :
    ((node h siblings rest).branch d).handles.Nodup := by
  obtain ⟨hs, hr, -⟩ := nodup_node_iff.mp hn
  cases d with
  | next => exact hr
  | sibling => exact hs

theorem not_mem_branch (hn : (node h siblings rest).handles.Nodup) :
    h ∉ ((node h siblings rest).branch d).handles := by
  obtain ⟨-, -, hs, hr, -⟩ := nodup_node_iff.mp hn
  cases d with
  | next => exact hr
  | sibling => exact hs

theorem disjoint_branch (hn : (node h siblings rest).handles.Nodup) (hne : d' ≠ d)
    (hm : k ∈ ((node h siblings rest).branch d).handles) :
    k ∉ ((node h siblings rest).branch d').handles := by
  obtain ⟨-, -, -, -, hd⟩ := nodup_node_iff.mp hn
  cases d <;> cases d'
  · exact absurd rfl hne
  · exact fun hm' => hd k hm' hm
  · exact hd k hm
  · exact absurd rfl hne

end

end Tree

namespace Store

variable {s s' : Store} {d : Direction} {h k : Handle} {t u : Tree} {e : Ends}

/-- The ends of a tree in the store are its head and the end of the walk from there. -/
theorem Holds.ends_eq (ht : s.Holds (some h) t) : t.ends d = some ⟨h, s.last d h⟩ := by
  unfold Tree.ends
  rw [ht.head?_eq, (ht.line d).last_eq]
  rfl

theorem Holds.link?_last {head : Option Handle} (ht : s.Holds head t) (he : t.ends d = some e) :
    s.link? d e.last = none :=
  (ht.line d).link?_of_getLast? (Tree.ends_eq_some_iff.mp he).2

theorem holds_of_branches (ht : t.head? = some h) (hl : s.isLive h)
    (hb : ∀ d, s.Holds (s.link? d h) (t.branch d)) : s.Holds (some h) t := by
  cases t with
  | empty => cases ht
  | node k siblings rest =>
    obtain rfl := Option.some.inj ht
    exact ⟨rfl, hl, hb .sibling, hb .next⟩

/-- Linked after the last segment of the line of one tree, another tree is grafted onto it. -/
theorem Holds.graft {head : Option Handle} (ht : s.Holds head t) (hn : t.handles.Nodup)
    (hu : s.Holds u.head? u) (hd : ∀ k ∈ t.handles, k ∉ u.handles) {last : Int}
    (hlast : (t.line d).getLast? = some last) :
    (s.withLink d last u.head?).Holds head (t.graft d u) := by
  have hm := Tree.mem_handles_of_mem_line (List.mem_of_getLast? hlast)
  have hlive := ht.isLive last hm
  have h0 := nonneg_of_isLive hlive
  have hoff : SameOff last s (s.withLink d last u.head?) := sameOff_withLink h0
  have hself : (s.withLink d last u.head?).link? d last = u.head? := link?_withLink_self hlive
  have hu' := hu.sameOff hoff (hd last hm)
  clear hd hm
  induction t generalizing head with
  | empty => cases hlast
  | node h siblings rest ihs ihr =>
    obtain rfl : head = some h := ht.1
    have hk : 0 ≤ h := nonneg_of_isLive ht.2.1
    have hb := ht.branch
    refine holds_of_branches (by rw [Tree.head?_graft]; rfl) ?_ fun d' => ?_
    · rw [isLive_withLink h0]
      exact ht.2.1
    · rw [Tree.line_node, List.getLast?_cons, Option.some.injEq] at hlast
      rw [Tree.branch_graft, link?_withLink hlive hk]
      cases hend : (((Tree.node h siblings rest).branch d).line d).getLast? with
      | none =>
        -- The line ends with this segment.
        obtain rfl : h = last := by rw [hend] at hlast; exact hlast
        by_cases hd : d' = d
        · subst hd
          have hempty := Tree.line_eq_nil_iff.mp (List.getLast?_eq_none_iff.mp hend)
          rw [if_pos rfl, if_pos ⟨rfl, rfl⟩, hempty]
          exact hu'
        · rw [if_neg hd, if_neg fun hc => hd hc.2.symm]
          exact (hb d').sameOff hoff (Tree.not_mem_branch hn)
      | some l =>
        -- It goes on, and ends in the branch along it.
        obtain rfl : l = last := by rw [hend] at hlast; exact hlast
        have hm := Tree.mem_handles_of_mem_line (List.mem_of_getLast? hend)
        have hne : h ≠ l := by
          rintro rfl
          exact Tree.not_mem_branch hn hm
        rw [if_neg fun hc => hne hc.1]
        by_cases hd : d' = d
        · subst hd
          rw [if_pos rfl]
          have hn' := Tree.nodup_branch (d := d') hn
          cases d' with
          | next => exact ihr (hb .next) hn' hend
          | sibling => exact ihs (hb .sibling) hn' hend
        · rw [if_neg hd]
          exact (hb d').sameOff hoff (Tree.disjoint_branch hn hd hm)

end Store

end XPathAssembly
