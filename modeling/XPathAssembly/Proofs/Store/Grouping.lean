import XPathAssembly.Proofs.Store.Splicing

/-!
# Concatenations of concatenations

A head that is put into a concatenation may carry one already.  It is walked to its last expression
first, so the concatenation has all expressions of all heads, in order.  It therefore makes no
difference whether some of the heads were concatenated before, nor some of those before that.

    s.Line .sibling head hs for each head → no expression in two of them →
      concatenate heads s  and  g.concatenate s  for each grouping g of the heads
        both flatten hss.flatten                                     (concatenate_flattens)
-/

namespace XPathAssembly

namespace Store

/-! ## Groupings -/

/-- A list of heads in which neighbours are put together in groups, and groups again in groups. -/
inductive Grouping where
  | empty
  | head (h : Option Handle) (rest : Grouping)
  | group (inner rest : Grouping)
deriving DecidableEq, Repr

namespace Grouping

/-- The heads without the groups. -/
def heads : Grouping → List (Option Handle)
  | empty => []
  | head h rest => h :: rest.heads
  | group inner rest => inner.heads ++ rest.heads

/-- The heads in which each group is replaced by its concatenation. -/
def results : Grouping → Call Store (List (Option Handle))
  | empty => return []
  | head h rest => return h :: (← rest.results)
  | group inner rest => do
    let made ← Store.concatenate (← inner.results)
    return made :: (← rest.results)

/-- Each group is concatenated first, and then what they have become. -/
def concatenate (g : Grouping) : Call Store (Option Handle) := do
  Store.concatenate (← g.results)

end Grouping

/-- What comes of a concatenation of the expressions `hs`: the walk along the siblings visits them,
and nothing but sibling links was set. -/
structure Flattened (s : Store) (hs : List Handle) (answer : Option Handle) (s' : Store) :
    Prop where
  line : s'.Line .sibling answer hs
  walk : s'.walkFrom .sibling answer = .ok hs
  segments : ∀ k : Handle, s'.get? k = s.get? k
  next : ∀ k : Int, 0 ≤ k → s'.link? .next k = s.link? .next k

/-! ## Lemmas -/

variable {s s' : Store} {heads : List (Option Handle)} {hs tails : List Handle}
  {hss : List (List Handle)} {answer : Option Handle}

theorem forall₂_append_left {α β : Type} {R : α → β → Prop} {as as' : List α} {bs : List β}
    (h : List.Forall₂ R (as ++ as') bs) : ∃ left right, bs = left ++ right ∧
      List.Forall₂ R as left ∧ List.Forall₂ R as' right := by
  have hflip : List.Forall₂ (flip R) bs (as ++ as') := List.Forall₂.flip h
  exact ⟨_, _, (List.take_append_drop as.length bs).symm,
    (List.forall₂_take_append bs as as' hflip).flip,
    (List.forall₂_drop_append bs as as' hflip).flip⟩

theorem Relinked.flattened (hr : s.Relinked .sibling tails s') (hl : s'.Line .sibling answer hs) :
    s.Flattened hs answer s' where
  line := hl
  walk := hl.walkFrom_eq
  segments := hr.found
  next k hk := hr.kept .next k hk nofun

/-- The lines at the heads are put end to end. -/
theorem concatenate_lines (hl : List.Forall₂ (s.Line .sibling) heads hss)
    (hn : hss.flatten.Nodup) : ∃ s', concatenate heads s = .ok hss.flatten.head? s' ∧
      s'.Line .sibling hss.flatten.head? hss.flatten ∧ s.Relinked .sibling hss.flatten s' := by
  obtain ⟨s', hrun, hline, hr⟩ := extendAll_none_lines hl hn
  refine ⟨s', ?_, hline, hr.mono fun k hk => ?_⟩
  · unfold concatenate
    simp only [Call.bind_apply, Call.get_apply, all_isChain hl, Bool.not_true, Bool.false_eq_true,
      if_false, hrun, Call.pure_apply, Ends.map_first_of?]
  · obtain ⟨ks, hm, hlast⟩ := List.mem_filterMap.mp hk
    exact List.mem_flatten.mpr ⟨ks, hm, List.mem_of_getLast? hlast⟩

/-- The groups leave heads at whose lines, put end to end, are the same expressions. -/
theorem Grouping.results_lines (g : Grouping) (hl : List.Forall₂ (s.Line .sibling) g.heads hss)
    (hn : hss.flatten.Nodup) : ∃ tops kss s', g.results s = .ok tops s' ∧
      List.Forall₂ (s'.Line .sibling) tops kss ∧ kss.flatten = hss.flatten ∧
      s.Relinked .sibling hss.flatten s' := by
  induction g generalizing s hss with
  | empty => exact ⟨[], hss, s, rfl, hl, rfl, .refl s _ _⟩
  | head h rest ih =>
    obtain ⟨hs, hss, hh, hrest, rfl⟩ := List.forall₂_cons_left_iff.mp hl
    rw [List.flatten_cons] at hn ⊢
    have hd := List.disjoint_of_nodup_append hn
    obtain ⟨tops, kss, s', hrun, htops, hflat, hr⟩ := ih hrest hn.of_append_right
    refine ⟨h :: tops, hs :: kss, s', ?_, .cons (hr.line hh fun _ => hd) htops,
      by rw [List.flatten_cons, hflat], hr.mono (List.subset_append_right _ _)⟩
    unfold results
    rw [Call.bind_apply, hrun]
    rfl
  | group inner rest ihi ihr =>
    obtain ⟨hss, hss', rfl, hinner, hrest⟩ := forall₂_append_left hl
    rw [List.flatten_append] at hn ⊢
    have hd := List.disjoint_of_nodup_append hn
    have hni := hn.of_append_left
    obtain ⟨tops, kss, s1, hrun, htops, hflat, hr⟩ := ihi hinner hni
    obtain ⟨s2, hmade, hline, hr'⟩ := concatenate_lines htops (hflat ▸ hni)
    rw [hflat] at hmade hline hr'
    -- The group has set links of its own expressions only, and so will the rest.
    have hrest' : List.Forall₂ (s2.Line .sibling) rest.heads hss' :=
      (hr.trans hr').lines hrest fun _ => List.disjoint_symm hd
    obtain ⟨tops', kss', s3, hrun', htops', hflat', hr''⟩ := ihr hrest' hn.of_append_right
    refine ⟨_ :: tops', hss.flatten :: kss', s3, ?_, .cons (hr''.line hline fun _ => hd) htops',
      by rw [List.flatten_cons, hflat'],
      ((hr.trans hr').mono (List.subset_append_left _ _)).trans
        (hr''.mono (List.subset_append_right _ _))⟩
    unfold results
    rw [Call.bind_apply, hrun]
    show (Store.concatenate tops >>= fun made => rest.results >>= fun tops => pure (made :: tops))
      s1 = _
    rw [Call.bind_apply, hmade]
    show (rest.results >>= fun tops => pure (_ :: tops)) s2 = _
    rw [Call.bind_apply, hrun']
    rfl

theorem Grouping.concatenate_lines (g : Grouping)
    (hl : List.Forall₂ (s.Line .sibling) g.heads hss) (hn : hss.flatten.Nodup) :
    ∃ s', g.concatenate s = .ok hss.flatten.head? s' ∧
      s.Flattened hss.flatten hss.flatten.head? s' := by
  obtain ⟨tops, kss, s1, hrun, htops, hflat, hr⟩ := g.results_lines hl hn
  obtain ⟨s2, hmade, hline, hr'⟩ := Store.concatenate_lines htops (hflat ▸ hn)
  rw [hflat] at hmade hline hr'
  refine ⟨s2, ?_, (hr.trans hr').flattened hline⟩
  unfold concatenate
  rw [Call.bind_apply, hrun]
  exact hmade

/-- **Concatenation flattens and is associative.**  The concatenation of heads has the expressions
of all their sibling chains, in order; and it has the same ones, in the same order, if the heads
are concatenated group by group first, however the groups lie in one another. -/
theorem concatenate_flattens (hl : List.Forall₂ (s.Line .sibling) heads hss)
    (hd : hss.Pairwise List.Disjoint) :
    (∃ answer s', concatenate heads s = .ok answer s' ∧ s.Flattened hss.flatten answer s') ∧
      ∀ g : Grouping, g.heads = heads →
        ∃ answer s', g.concatenate s = .ok answer s' ∧ s.Flattened hss.flatten answer s' := by
  have hn := nodup_flatten_of_lines hl hd
  constructor
  · obtain ⟨s', hrun, hline, hr⟩ := concatenate_lines hl hn
    exact ⟨_, s', hrun, hr.flattened hline⟩
  · rintro g rfl
    obtain ⟨s', hrun, hflat⟩ := g.concatenate_lines hl hn
    exact ⟨_, s', hrun, hflat⟩

/-- A concatenation of two expressions, the first of two segments, and two expressions alone. -/
def twoAndTwo : Store where
  cells := #[⟨some (.ofText ['a'] .bare), some 1, some 2⟩, ⟨some (.ofText ['b'] .bare), none, none⟩,
    ⟨some (.ofText ['c'] .bare), none, none⟩, ⟨some (.ofText ['d'] .bare), none, none⟩,
    ⟨some (.ofText ['e'] .bare), none, none⟩]

/-- The second group holds a head that is absent, and another group. -/
def nestedGroups : Grouping :=
  .head (some 4) (.group (.head none (.group (.head (some 0) (.head (some 3) .empty)) .empty))
    .empty)

theorem flattened_nestedGroups :
    (∃ answer s', concatenate [some 4, none, some 0, some 3] twoAndTwo = .ok answer s' ∧
      twoAndTwo.Flattened [4, 0, 2, 3] answer s') ∧
    ∃ answer s', nestedGroups.concatenate twoAndTwo = .ok answer s' ∧
      twoAndTwo.Flattened [4, 0, 2, 3] answer s' := by
  have hl : List.Forall₂ (twoAndTwo.Line .sibling) [some 4, none, some 0, some 3]
      [[4], [], [0, 2], [3]] :=
    .cons ⟨rfl, rfl, rfl⟩ (.cons rfl (.cons ⟨rfl, rfl, rfl, rfl, rfl⟩ (.cons ⟨rfl, rfl, rfl⟩ .nil)))
  have hflat := concatenate_flattens hl (by simp [List.Disjoint])
  exact ⟨hflat.1, hflat.2 nestedGroups rfl⟩

end Store

end XPathAssembly
