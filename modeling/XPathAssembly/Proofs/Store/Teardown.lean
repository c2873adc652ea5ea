import XPathAssembly.Proofs.Store.Tree
import Mathlib.Data.Finset.Card

/-!
# Teardown

Discarding works off a list of segments round by round.  Without a bound on the number of rounds
that is the relation `Rounds`.  Each round takes away a sibling link or a segment, so the rounds
come to an end and the bound in `discard` is never met.  They end without a fault exactly if each
pending segment heads a tree and no segment is met twice, and then the segments are removed in the
order of `Tree.handles`.
-/

namespace XPathAssembly

namespace Store

variable {s s' : Store} {h k : Int} {pending pending' : List Handle} {ts : List Tree}

/-! ## Rounds -/

/-- The rounds from these pending segments on end with `r`. -/
inductive Rounds : List Handle → Store → EStateM.Result Fault Store Unit → Prop
  | done (s : Store) : Rounds [] s (.ok () s)
  | fault {h : Handle} {pending : List Handle} {s s' : Store} {f : Fault}
      (hr : discardRound h pending s = .error f s') : Rounds (h :: pending) s (.error f s')
  | round {h : Handle} {pending pending' : List Handle} {s s' : Store}
      {r : EStateM.Result Fault Store Unit} (hr : discardRound h pending s = .ok pending' s')
      (hrest : Rounds pending' s' r) : Rounds (h :: pending) s r

/-- The store after the last round for `h`: its links are cut and its segment is removed. -/
def cleared (s : Store) (h : Handle) : Store :=
  ((s.withLink .sibling h none).withLink .next h none).vacate h

theorem discardRound_of_not_isLive (hl : s.isLive h = false) :
    discardRound h pending s = .error .dead s := by
  unfold discardRound cut
  rw [Call.bind_apply, require_bind, hl]
  rfl

theorem discardRound_of_sibling (hl : s.isLive h) (hk : s.link? .sibling h = some k) :
    discardRound h pending s = .ok (k :: h :: pending) (s.withLink .sibling h none) := by
  unfold discardRound
  rw [Call.bind_apply, cut_eq_ok_iff.mpr ⟨hl, hk.symm, rfl⟩]
  rfl

theorem discardRound_of_no_sibling (hl : s.isLive h) (hk : s.link? .sibling h = none) :
    discardRound h pending s =
      .ok ((s.link? .next h).toList ++ pending) (s.cleared h) := by
  have h0 := nonneg_of_isLive hl
  let s1 := s.withLink .sibling h none
  let s2 := s1.withLink .next h none
  have hl1 : s1.isLive h := by rw [isLive_withLink h0]; exact hl
  have hl2 : s2.isLive h := by rw [isLive_withLink h0]; exact hl1
  have hnext : s1.link? .next h = s.link? .next h := by
    rw [link?_withLink hl h0, if_neg (by simp)]
  have hlinks : ∀ d, s2.link? d h = none := by
    intro d
    rw [link?_withLink hl1 h0, link?_withLink hl h0]
    cases d <;> simp
  unfold discardRound
  rw [Call.bind_apply, cut_eq_ok_iff.mpr ⟨hl, hk.symm, rfl⟩]
  show (do let next ← cut .next h; remove h; return next.toList ++ pending : Call Store _) s1 = _
  rw [Call.bind_apply, cut_eq_ok_iff.mpr ⟨hl1, rfl, rfl⟩]
  show (do remove h; return (s1.link? .next h).toList ++ pending : Call Store _) s2 = _
  rw [Call.bind_apply, remove_eq_ok_iff.mpr ⟨hl2, hlinks, rfl⟩, hnext]
  rfl

/-! ## The store after a round -/

@[simp] theorem size_cells_cleared : (s.cleared h).cells.size = s.cells.size := by
  simp [cleared]

@[simp] theorem vacant_cleared : (s.cleared h).vacant = h :: s.vacant := rfl

theorem isLive_cleared (h0 : 0 ≤ h) : (s.cleared h).isLive k = (s.isLive k && k != h) := by
  unfold cleared
  rw [isLive_vacate h0, isLive_withLink h0, isLive_withLink h0]

theorem sameOff_cleared (h0 : 0 ≤ h) : SameOff h s (s.cleared h) := by
  intro k hk hne
  unfold cleared
  rw [cell?_vacate h0 hk, if_neg hne, sameOff_withLink h0 k hk hne, sameOff_withLink h0 k hk hne]

theorem link?_cleared (hl : s.isLive h) (hk : 0 ≤ k) {d : Direction} :
    (s.cleared h).link? d k = if k = h then none else s.link? d k := by
  have h0 := nonneg_of_isLive hl
  unfold cleared
  rw [link?_vacate h0 hk, link?_withLink (by rw [isLive_withLink h0]; exact hl) hk,
    link?_withLink hl hk]
  by_cases he : k = h
  · cases d <;> simp [he]
  · simp [he]

/-! ## The rounds end -/

/-- What the rounds can still take away: the live segments and the sibling links. -/
def burden (s : Store) : Nat :=
  ((Finset.range s.cells.size).filter fun i : Nat => s.isLive i).card +
    ((Finset.range s.cells.size).filter fun i : Nat => (s.link? .sibling i).isSome).card

theorem burden_le : s.burden ≤ 2 * s.cells.size := by
  have h1 := Finset.card_filter_le (Finset.range s.cells.size) fun i : Nat => s.isLive i
  have h2 := Finset.card_filter_le (Finset.range s.cells.size)
    fun i : Nat => (s.link? .sibling i).isSome
  rw [Finset.card_range] at h1 h2
  unfold burden
  omega

theorem burden_withLink_lt (hl : s.isLive h) (hk : s.link? .sibling h = some k) :
    (s.withLink .sibling h none).burden < s.burden := by
  have h0 := nonneg_of_isLive hl
  have hlt := lt_size_of_isLive hl
  unfold burden
  rw [size_cells_withLink]
  simp only [isLive_withLink h0]
  refine Nat.add_lt_add_left (Finset.card_lt_card (Finset.ssubset_iff_of_subset ?_ |>.mpr ?_)) _
  · intro i hi
    rw [Finset.mem_filter] at hi ⊢
    refine ⟨hi.1, ?_⟩
    have hs := hi.2
    rw [link?_withLink hl (Int.natCast_nonneg i)] at hs
    split at hs
    · cases hs
    · exact hs
  · refine ⟨h.toNat, ?_, ?_⟩
    · rw [Finset.mem_filter, Finset.mem_range, Int.toNat_of_nonneg h0, hk]
      exact ⟨by omega, rfl⟩
    · rw [Finset.mem_filter, Int.toNat_of_nonneg h0, link?_withLink_self hl]
      exact fun hc => nomatch hc.2

theorem burden_cleared_lt (hl : s.isLive h) : (s.cleared h).burden < s.burden := by
  have h0 := nonneg_of_isLive hl
  have hlt := lt_size_of_isLive hl
  unfold burden
  rw [size_cells_cleared]
  simp only [isLive_cleared h0]
  refine Nat.add_lt_add_of_lt_of_le
    (Finset.card_lt_card (Finset.ssubset_iff_of_subset ?_ |>.mpr ?_)) (Finset.card_le_card ?_)
  · intro i hi
    rw [Finset.mem_filter, Bool.and_eq_true] at hi
    exact Finset.mem_filter.mpr ⟨hi.1, hi.2.1⟩
  · refine ⟨h.toNat, ?_, ?_⟩
    · rw [Finset.mem_filter, Finset.mem_range, Int.toNat_of_nonneg h0]
      exact ⟨by omega, hl⟩
    · rw [Finset.mem_filter, Int.toNat_of_nonneg h0]
      simp
  · intro i hi
    rw [Finset.mem_filter] at hi ⊢
    refine ⟨hi.1, ?_⟩
    have hs := hi.2
    rw [link?_cleared hl (Int.natCast_nonneg i)] at hs
    split at hs
    · cases hs
    · exact hs

theorem burden_lt_of_discardRound (hr : discardRound h pending s = .ok pending' s') :
    s'.burden < s.burden := by
  cases hl : s.isLive h with
  | false => rw [discardRound_of_not_isLive hl] at hr; cases hr
  | true =>
    cases hk : s.link? .sibling h with
    | some k =>
      rw [discardRound_of_sibling hl hk] at hr
      cases hr
      exact burden_withLink_lt hl hk
    | none =>
      rw [discardRound_of_no_sibling hl hk] at hr
      cases hr
      exact burden_cleared_lt hl

/-- With more rounds allowed than there is to take away, `discardFrom` goes to the end. -/
theorem rounds_discardFrom {n : Nat} (hn : s.burden < n) :
    Rounds pending s (discardFrom n pending s) := by
  induction n generalizing pending s with
  | zero => exact absurd hn (Nat.not_lt_zero _)
  | succ n ih =>
    cases pending with
    | nil => exact .done s
    | cons h pending =>
      unfold discardFrom
      rw [Call.bind_apply]
      cases hr : discardRound h pending s with
      | error f s' => exact .fault hr
      | ok pending' s' =>
        have := burden_lt_of_discardRound hr
        exact .round hr (ih (by omega))

theorem rounds_discard (hl : s.isLive h) : Rounds [h] s (discard (some h) s) := by
  show Rounds [h] s
    ((do require h; discardFrom (2 * (← get).cells.size + 1) [h] : Call Store Unit) s)
  rw [require_bind, if_pos hl]
  exact rounds_discardFrom (Nat.lt_succ_of_le s.burden_le)

/-! ## What the rounds do -/

/-- Each of the pending segments heads the tree in its place. -/
def HoldsAll (s : Store) (pending : List Handle) (ts : List Tree) : Prop :=
  List.Forall₂ (fun h t => s.Holds (some h) t) pending ts

/-- `s'` is `s` without the segments `hs`, removed in this order. -/
structure Removed (s : Store) (hs : List Handle) (s' : Store) : Prop where
  vacant : s'.vacant = hs.reverse ++ s.vacant
  size : s'.cells.size = s.cells.size
  dead : ∀ h ∈ hs, s'.isLive h = false
  kept : ∀ k : Int, 0 ≤ k → k ∉ hs → s'.cell? k = s.cell? k

theorem HoldsAll.isLive (hh : s.HoldsAll pending ts) :
    ∀ k ∈ ts.flatMap Tree.handles, s.isLive k := by
  induction hh with
  | nil => intro k hk; cases hk
  | cons ht _ ih =>
    intro k hk
    rw [List.flatMap_cons] at hk
    rcases List.mem_append.mp hk with hk | hk
    · exact ht.isLive k hk
    · exact ih k hk

/-- Trees are held as long as their segments stay live and keep their links. -/
theorem HoldsAll.congr (hh : s.HoldsAll pending ts)
    (hc : ∀ k ∈ ts.flatMap Tree.handles, s'.isLive k ∧ ∀ d, s'.link? d k = s.link? d k) :
    s'.HoldsAll pending ts := by
  induction hh with
  | nil => exact .nil
  | cons ht _ ih =>
    rw [List.flatMap_cons] at hc
    obtain ⟨ht', hts'⟩ := List.forall_mem_append.1 hc
    exact .cons (ht.congr ht') (ih hts')

theorem HoldsAll.sameOff (hh : s.HoldsAll pending ts) (hs : SameOff h s s')
    (hn : h ∉ ts.flatMap Tree.handles) : s'.HoldsAll pending ts :=
  hh.congr fun k hk =>
    have hne : k ≠ h := fun he => hn (he ▸ hk)
    have hl := hh.isLive k hk
    ⟨(hs.isLive hne).trans hl, fun _ => hs.link? (nonneg_of_isLive hl) hne⟩

theorem HoldsAll.of_append {head : Option Handle} {us : List Tree}
    (hu : s.HoldsAll (head.toList ++ pending) us) :
    ∃ t ts, s.Holds head t ∧ s.HoldsAll pending ts ∧
      us.flatMap Tree.handles = t.handles ++ ts.flatMap Tree.handles := by
  cases head with
  | none => exact ⟨.empty, us, rfl, hu, rfl⟩
  | some h =>
    cases hu with
    | cons ht hts => exact ⟨_, _, ht, hts, List.flatMap_cons⟩

theorem HoldsAll.append {head : Option Handle} {t : Tree} (ht : s.Holds head t)
    (hts : s.HoldsAll pending ts) :
    ∃ us, s.HoldsAll (head.toList ++ pending) us ∧
      us.flatMap Tree.handles = t.handles ++ ts.flatMap Tree.handles := by
  cases head with
  | none =>
    cases t with
    | empty => exact ⟨ts, hts, rfl⟩
    | node h siblings rest => cases ht.1
  | some h => exact ⟨t :: ts, .cons ht hts, List.flatMap_cons⟩

/-- The pending segments head trees that hold the segments `hs`, in this order and each once. -/
def Pends (s : Store) (pending hs : List Handle) : Prop :=
  ∃ ts, s.HoldsAll pending ts ∧ ts.flatMap Tree.handles = hs ∧ hs.Nodup

theorem not_mem_of_nodup_cons {a b : Tree}
    (hn : ((Tree.node h a b :: ts).flatMap Tree.handles).Nodup) :
    h ∉ a.handles ∧ h ∉ b.handles ∧ h ∉ ts.flatMap Tree.handles := by
  rw [List.flatMap_cons, List.nodup_append] at hn
  obtain ⟨hnode, -, hd⟩ := hn
  obtain ⟨-, -, ha, hb, -⟩ := Tree.nodup_node_iff.mp hnode
  exact ⟨ha, hb, fun hm => hd h (by simp [Tree.handles]) h hm rfl⟩

/-- Cutting a sibling link leaves the same segments pending. -/
theorem pends_of_sibling {hs : List Handle} (hl : s.isLive h) (hk : s.link? .sibling h = some k) :
    s.Pends (h :: pending) hs ↔ (s.withLink .sibling h none).Pends (k :: h :: pending) hs := by
  have h0 := nonneg_of_isLive hl
  have hoff : SameOff h s (s.withLink .sibling h none) := sameOff_withLink h0
  have hnone : (s.withLink .sibling h none).link? .sibling h = none := link?_withLink_self hl
  have hnext : (s.withLink .sibling h none).link? .next h = s.link? .next h := by
    rw [link?_withLink hl h0, if_neg (by simp)]
  have hlist : ∀ (a b : Tree) (ts : List Tree),
      (a :: .node h .empty b :: ts).flatMap Tree.handles =
        (.node h a b :: ts).flatMap Tree.handles := fun a b ts => by simp [Tree.handles]
  constructor
  · rintro ⟨_, hall, rfl, hn⟩
    obtain ⟨t, ts, ht, hts, rfl⟩ := List.forall₂_cons_left_iff.mp hall
    obtain ⟨-, a, b, rfl, ha, hb⟩ := holds_some_iff.mp ht
    obtain ⟨hna, hnb, hnts⟩ := not_mem_of_nodup_cons hn
    refine ⟨_, .cons ?_ (.cons ?_ (HoldsAll.sameOff hts hoff hnts)), hlist a b ts, hn⟩
    · exact (hk ▸ ha).sameOff hoff hna
    · refine holds_some_iff.mpr ⟨?_, .empty, b, rfl, hnone, ?_⟩
      · rw [isLive_withLink h0]; exact hl
      · rw [hnext]; exact hb.sameOff hoff hnb
  · rintro ⟨_, hall, rfl, hn⟩
    obtain ⟨a, _, ha, hrest, rfl⟩ := List.forall₂_cons_left_iff.mp hall
    obtain ⟨t, ts, ht, hts, rfl⟩ := List.forall₂_cons_left_iff.mp hrest
    obtain ⟨-, e, b, rfl, he, hb⟩ := holds_some_iff.mp ht
    rw [hnone, holds_none_iff] at he
    subst he
    rw [hlist] at hn ⊢
    obtain ⟨hna, hnb, hnts⟩ := not_mem_of_nodup_cons hn
    refine ⟨_, .cons ?_ (HoldsAll.sameOff hts hoff.symm hnts), rfl, hn⟩
    refine holds_some_iff.mpr ⟨hl, a, b, rfl, ?_, ?_⟩
    · rw [hk]; exact ha.sameOff hoff.symm hna
    · rw [← hnext]; exact hb.sameOff hoff.symm hnb

/-- Removing a segment without siblings takes it from the front of what is pending. -/
theorem pends_of_no_sibling {hs : List Handle} (hl : s.isLive h)
    (hk : s.link? .sibling h = none) : s.Pends (h :: pending) hs ↔
      ∃ rest, hs = h :: rest ∧ (s.cleared h).Pends ((s.link? .next h).toList ++ pending) rest := by
  have h0 := nonneg_of_isLive hl
  have hoff : SameOff h s (s.cleared h) := sameOff_cleared h0
  constructor
  · rintro ⟨_, hall, rfl, hn⟩
    obtain ⟨t, ts, ht, hts, rfl⟩ := List.forall₂_cons_left_iff.mp hall
    obtain ⟨-, e, b, rfl, he, hb⟩ := holds_some_iff.mp ht
    rw [hk, holds_none_iff] at he
    subst he
    obtain ⟨-, hnb, hnts⟩ := not_mem_of_nodup_cons hn
    obtain ⟨us, hus, hlist⟩ :=
      HoldsAll.append (hb.sameOff hoff hnb) (HoldsAll.sameOff hts hoff hnts)
    have hfront : (Tree.node h .empty b :: ts).flatMap Tree.handles =
        h :: us.flatMap Tree.handles := by
      rw [hlist]
      rfl
    rw [hfront] at hn ⊢
    exact ⟨_, rfl, us, hus, rfl, (List.nodup_cons.mp hn).2⟩
  · rintro ⟨rest, rfl, us, hus, rfl, hn⟩
    have hnot : h ∉ us.flatMap Tree.handles := fun hm => by
      have hlive := hus.isLive h hm
      rw [isLive_cleared h0] at hlive
      simp at hlive
    obtain ⟨b, ts, hb, hts, hlist⟩ := hus.of_append
    rw [hlist] at hnot hn ⊢
    obtain ⟨hnb, hnts⟩ := not_or.mp (List.mem_append.not.mp hnot)
    refine ⟨.node h .empty b :: ts, .cons ?_ (hts.sameOff hoff.symm hnts), rfl,
      List.nodup_cons.mpr ⟨hnot, hn⟩⟩
    refine holds_some_iff.mpr ⟨hl, .empty, b, rfl, ?_, hb.sameOff hoff.symm hnb⟩
    rw [hk]
    rfl

/-! ## How the rounds end -/

theorem Rounds.unique {r r' : EStateM.Result Fault Store Unit} (hr : Rounds pending s r)
    (hr' : Rounds pending s r') : r = r' := by
  induction hr with
  | done s => cases hr'; rfl
  | fault hf =>
    cases hr' with
    | fault hf' => rw [hf] at hf'; cases hf'; rfl
    | round hr' _ => rw [hf] at hr'; cases hr'
  | round hr _ ih =>
    cases hr' with
    | fault hf' => rw [hr] at hf'; cases hf'
    | round hr' hrest => rw [hr] at hr'; cases hr'; exact ih hrest

theorem isLive_of_pends {hs : List Handle} (hp : s.Pends (h :: pending) hs) : s.isLive h := by
  obtain ⟨_, hall, -⟩ := hp
  obtain ⟨t, _, ht, -⟩ := List.forall₂_cons_left_iff.mp hall
  exact (holds_some_iff.mp ht).1

/-- Trees that hold each segment once are worked off without a fault. -/
theorem Rounds.ok_of_pends {r : EStateM.Result Fault Store Unit} (hr : Rounds pending s r) :
    ∀ hs, s.Pends pending hs → ∃ s', r = .ok () s' := by
  induction hr with
  | done s => exact fun _ _ => ⟨s, rfl⟩
  | @fault h pending s s' f hf =>
    intro hs hp
    have hl := isLive_of_pends hp
    cases hk : s.link? .sibling h with
    | some k => rw [discardRound_of_sibling hl hk] at hf; cases hf
    | none => rw [discardRound_of_no_sibling hl hk] at hf; cases hf
  | @round h pending pending' s s' r hr _ ih =>
    intro hs hp
    have hl := isLive_of_pends hp
    cases hk : s.link? .sibling h with
    | some k =>
      rw [discardRound_of_sibling hl hk] at hr
      cases hr
      exact ih hs ((pends_of_sibling hl hk).mp hp)
    | none =>
      rw [discardRound_of_no_sibling hl hk] at hr
      cases hr
      obtain ⟨rest, -, hrest⟩ := (pends_of_no_sibling hl hk).mp hp
      exact ih rest hrest

theorem Removed.of_sibling {hs : List Handle} {d : Direction} {target : Option Handle} (h0 : 0 ≤ h)
    (hm : h ∈ hs) (hr : Removed (s.withLink d h target) hs s') : Removed s hs s' where
  vacant := hr.vacant
  size := by rw [hr.size, size_cells_withLink]
  dead := hr.dead
  kept k hk hn := by
    rw [hr.kept k hk hn]
    exact sameOff_withLink h0 k hk fun he => hn (he ▸ hm)

theorem Removed.of_cleared {hs : List Handle} (h0 : 0 ≤ h) (hnot : h ∉ hs)
    (hr : Removed (s.cleared h) hs s') : Removed s (h :: hs) s' where
  vacant := by rw [hr.vacant, vacant_cleared]; simp
  size := by rw [hr.size, size_cells_cleared]
  dead k hk := by
    rcases List.mem_cons.mp hk with rfl | hk
    · rw [isLive_congr (hr.kept k h0 hnot), isLive_cleared h0]
      simp
    · exact hr.dead k hk
  kept k hk hn := by
    rw [List.mem_cons, not_or] at hn
    rw [hr.kept k hk hn.2]
    exact sameOff_cleared h0 k hk hn.1

/-- Rounds that end without a fault have worked off trees, each segment in its turn. -/
theorem Rounds.removed {r : EStateM.Result Fault Store Unit} (hr : Rounds pending s r) :
    ∀ s', r = .ok () s' → ∃ hs, s.Pends pending hs ∧ Removed s hs s' := by
  induction hr with
  | done s =>
    rintro _ ⟨⟩
    exact ⟨[], ⟨[], .nil, rfl, List.nodup_nil⟩, rfl, rfl, nofun, fun _ _ _ => rfl⟩
  | fault _ => exact fun _ he => nomatch he
  | @round h pending pending' s t r hr _ ih =>
    intro s' he
    obtain ⟨hs, hp, hrem⟩ := ih s' he
    cases hl : s.isLive h with
    | false => rw [discardRound_of_not_isLive hl] at hr; cases hr
    | true =>
      have h0 := nonneg_of_isLive hl
      cases hk : s.link? .sibling h with
      | some k =>
        rw [discardRound_of_sibling hl hk] at hr
        cases hr
        refine ⟨hs, (pends_of_sibling hl hk).mpr hp, hrem.of_sibling h0 ?_⟩
        obtain ⟨_, hall, rfl, -⟩ := hp
        obtain ⟨a, _, -, hrest, rfl⟩ := List.forall₂_cons_left_iff.mp hall
        obtain ⟨t, ts, ht, -, rfl⟩ := List.forall₂_cons_left_iff.mp hrest
        obtain ⟨-, e, b, rfl, -, -⟩ := holds_some_iff.mp ht
        simp [Tree.handles]
      | none =>
        rw [discardRound_of_no_sibling hl hk] at hr
        cases hr
        refine ⟨h :: hs, (pends_of_no_sibling hl hk).mpr ⟨hs, rfl, hp⟩, hrem.of_cleared h0 ?_⟩
        intro hm
        obtain ⟨us, hus, rfl, -⟩ := hp
        have hlive := hus.isLive h hm
        rw [isLive_cleared h0] at hlive
        simp at hlive

theorem Sound.cleared (hs : s.Sound) (hl : s.isLive h) : (s.cleared h).Sound := by
  have h0 := nonneg_of_isLive hl
  have hl1 : (s.withLink .sibling h none).isLive h := by rw [isLive_withLink h0]; exact hl
  refine ((hs.withLink hl).withLink hl1).vacate (by rw [isLive_withLink h0]; exact hl1) fun d => ?_
  rw [link?_withLink hl1 h0, link?_withLink hl h0]
  cases d <;> simp

theorem Rounds.sound {r : EStateM.Result Fault Store Unit} (hr : Rounds pending s r)
    (hs : s.Sound) : ∀ s', r = .ok () s' → s'.Sound := by
  induction hr with
  | done s => rintro _ ⟨⟩; exact hs
  | fault _ => exact fun _ he => nomatch he
  | @round h pending pending' s t r hr _ ih =>
    refine ih ?_
    cases hl : s.isLive h with
    | false => rw [discardRound_of_not_isLive hl] at hr; cases hr
    | true =>
      cases hk : s.link? .sibling h with
      | some k =>
        rw [discardRound_of_sibling hl hk] at hr
        cases hr
        exact hs.withLink hl
      | none =>
        rw [discardRound_of_no_sibling hl hk] at hr
        cases hr
        exact hs.cleared hl

/-! ## Discarding -/

theorem pends_singleton_iff {hs : List Handle} :
    s.Pends [h] hs ↔ ∃ t, s.Holds (some h) t ∧ t.handles = hs ∧ hs.Nodup := by
  constructor
  · rintro ⟨_, hall, rfl, hn⟩
    obtain ⟨t, _, ht, hnil, rfl⟩ := List.forall₂_cons_left_iff.mp hall
    cases hnil
    exact ⟨t, ht, by simp, hn⟩
  · rintro ⟨t, ht, rfl, hn⟩
    exact ⟨[t], .cons ht .nil, by simp, hn⟩

/-- A tree is discarded without a fault. -/
theorem discard_of_holds {t : Tree} (ht : s.Holds (some h) t) (hn : t.handles.Nodup) :
    ∃ s', discard (some h) s = .ok () s' := by
  have hl := (holds_some_iff.mp ht).1
  exact (rounds_discard hl).ok_of_pends _ (pends_singleton_iff.mpr ⟨t, ht, rfl, hn⟩)

theorem removed_of_discard (hl : s.isLive h) (hd : discard (some h) s = .ok () s') :
    ∃ t, s.Holds (some h) t ∧ t.handles.Nodup ∧ Removed s t.handles s' := by
  obtain ⟨hs, hp, hrem⟩ := (rounds_discard hl).removed s' hd
  obtain ⟨t, ht, rfl, hn⟩ := pends_singleton_iff.mp hp
  exact ⟨t, ht, hn, hrem⟩

theorem Removed.size_add {hs : List Handle} (hr : Removed s hs s') (hs' : s'.Sound) :
    s'.size + hs.length = s.size := by
  have hle := hs'.length_vacant_le
  rw [hr.vacant, hr.size, List.length_append, List.length_reverse] at hle
  unfold Store.size
  rw [hr.vacant, hr.size, List.length_append, List.length_reverse]
  omega

/-- **Discarding is exact.**  The rounds from a live segment end; they end without a fault if and
only if the segment heads a tree; and then they have removed the segments of this tree, the siblings
of each before it and what comes after it last, and nothing else has changed. -/
theorem discard_exact (hr : s.Reachable) (hl : s.isLive h) :
    (∀ r, Rounds [h] s r ↔ r = discard (some h) s) ∧
    ((∃ s', discard (some h) s = .ok () s') ↔ s.IsTree h) ∧
    ∀ s', discard (some h) s = .ok () s' → ∃ t,
      s.Holds (some h) t ∧ t.handles.Nodup ∧
      (∀ k, k ∈ t.handles ↔ ∃ path, s.trace (some h) path = some k) ∧
      Removed s t.handles s' ∧ s'.size + t.handles.length = s.size := by
  have hrounds := rounds_discard hl
  refine ⟨fun r => ⟨fun hx => hx.unique hrounds, fun he => he ▸ hrounds⟩, ?_, fun s' hd => ?_⟩
  · rw [isTree_iff]
    constructor
    · rintro ⟨s', hd⟩
      obtain ⟨t, ht, hn, -⟩ := removed_of_discard hl hd
      exact ⟨t, ht, hn⟩
    · rintro ⟨t, ht, hn⟩
      exact discard_of_holds ht hn
  · obtain ⟨t, ht, hn, hrem⟩ := removed_of_discard hl hd
    refine ⟨t, ht, hn, fun k => ?_, hrem, hrem.size_add (hrounds.sound hr.sound s' hd)⟩
    rw [Tree.mem_handles_iff]
    simp only [ht.trace_eq]

/-- A segment with a sibling and a segment after it. -/
def forked : Store where
  cells := #[⟨some (.ofText ['a'] .bare), some 2, some 1⟩, ⟨some (.ofText ['b'] .bare), none, none⟩,
    ⟨some (.ofText ['c'] .bare), none, none⟩]

theorem reachable_forked : forked.Reachable :=
  .tail (.tail (.tail (.tail (.tail .refl ⟨.insert (.ofText ['a'] .bare), 0, rfl⟩)
    ⟨.insert (.ofText ['b'] .bare), 1, rfl⟩) ⟨.insert (.ofText ['c'] .bare), 2, rfl⟩)
    ⟨.connect .sibling 0 (some 1), rfl⟩) ⟨.connect .next 0 (some 2), rfl⟩

theorem isTree_forked : forked.Reachable ∧ forked.isLive 0 ∧ forked.IsTree 0 ∧
    ∃ (s' : Store) (t : Tree), discard (some 0) forked = .ok () s' ∧ Removed forked t.handles s' ∧
      s'.size + t.handles.length = 3 := by
  obtain ⟨-, htree, hremoved⟩ := discard_exact (h := 0) reachable_forked rfl
  obtain ⟨t, -, -, -, hr, hsize⟩ := hremoved _ rfl
  exact ⟨reachable_forked, rfl, htree.mp ⟨_, rfl⟩, _, t, rfl, hr, hsize⟩

end Store

end XPathAssembly
