import XPathAssembly.Collapse
import XPathAssembly.Proofs.Store.Growth
import XPathAssembly.Proofs.Token

/-!
# Calls as runs of actions

A composite call changes the store by the four actions alone, each of them accepted, and so does
one that stops midway: what it leaves is what a run of accepted actions makes.  Of two sorts of runs
more is known.  One that only builds keeps every segment, and one that only clears makes none, so
that neither puts another segment behind a handle that stays live.

    Leads P s t → s.Sound → t.Sound                                        (Leads.sound)
    x.ActsBy view P → (∀ a, (f a).ActsBy view P) → (x >>= f).ActsBy view P    (ActsBy.bind)
    Leads Builds s t ∨ Leads Clears s t → s.isLive k → t.isLive k → t.get? k = s.get? k
-/

namespace XPathAssembly

namespace Store

/-! ## Runs of accepted actions -/

/-- `t` is what accepted actions of a sort make of `s`. -/
def Leads (P : Action → Prop) : Store → Store → Prop :=
  Relation.ReflTransGen fun s t => ∃ a, P a ∧ Accepts s a t

/-- Actions that lose no segment. -/
def Action.Builds : Action → Prop
  | remove _ => False
  | _ => True

/-- Actions that make no segment. -/
def Action.Clears : Action → Prop
  | insert _ => False
  | _ => True

/-- The sort allows all that a call does which builds chains: it sets and cuts links, and puts in
segments with the marks of their texts. -/
structure Action.AllowsBuilding (P : Action → Prop) : Prop where
  connect : ∀ d h target, P (.connect d h target)
  cut : ∀ d h, P (.cut d h)
  insert : ∀ text kind, P (.insert (.ofBytes text kind))

/-- The sort allows all that a call does which clears: it cuts links and removes segments. -/
structure Action.AllowsClearing (P : Action → Prop) : Prop where
  cut : ∀ d h, P (.cut d h)
  remove : ∀ h, P (.remove h)

theorem Action.allowsBuilding_builds : AllowsBuilding Builds :=
  ⟨fun _ _ _ => trivial, fun _ _ => trivial, fun _ _ => trivial⟩

theorem Action.allowsClearing_clears : AllowsClearing Clears :=
  ⟨fun _ _ => trivial, fun _ => trivial⟩

/-- Each segment of `t` was in `s` as it is. -/
def Cleared (s t : Store) : Prop := ∀ k : Int, t.isLive k → t.get? k = s.get? k

section
variable {P : Action → Prop} {s t u : Store} {a : Action} {d : Direction} {h k : Int}
  {target : Option Handle}

theorem Leads.single (hp : P a) (ha : Accepts s a t) : Leads P s t :=
  Relation.ReflTransGen.single ⟨a, hp, ha⟩

theorem Leads.sound (h : Leads P s t) (hs : s.Sound) : t.Sound := by
  induction h with
  | refl => exact hs
  | tail _ hstep ih =>
    obtain ⟨a, -, ha⟩ := hstep
    exact ih.accepts ha

/-- All that an accepted action can do: put a segment in, set a link, or vacate a cell. -/
theorem Accepts.cases (ha : Accepts s a t) :
    (∃ g h, a = .insert g ∧ insert g s = .ok h t) ∨
    (∃ d h target, s.isLive h ∧ t = s.withLink d h target) ∨
    ∃ h, a = .remove h ∧ s.isLive h ∧ t = s.vacate h := by
  cases a with
  | insert g =>
    obtain ⟨h, hrun⟩ := ha
    exact .inl ⟨g, h, rfl, hrun⟩
  | connect d h target =>
    obtain ⟨hl, -, he⟩ := connect_eq_ok_iff.1 ha
    exact .inr (.inl ⟨d, h, target, hl, he⟩)
  | cut d h =>
    obtain ⟨answer, hrun⟩ := ha
    obtain ⟨hl, -, he⟩ := cut_eq_ok_iff.1 hrun
    exact .inr (.inl ⟨d, h, none, hl, he⟩)
  | remove h =>
    obtain ⟨hl, -, he⟩ := remove_eq_ok_iff.1 ha
    exact .inr (.inr ⟨h, rfl, hl, he⟩)

/-- An action other than a removal keeps every segment. -/
theorem Accepts.preserved (hs : s.Sound) (hp : a.Builds) (ha : Accepts s a t) : Preserved s t := by
  rcases ha.cases with ⟨g, h, -, hrun⟩ | ⟨d, h, target, hl, rfl⟩ | ⟨h, rfl, -, -⟩
  · exact (inserted_of_insert hs hrun).1.preserved
  · exact fun k _ => get?_withLink (nonneg_of_isLive hl)
  · exact hp.elim

theorem get?_vacate_of_ne (hh : 0 ≤ h) (hne : k ≠ h) : (s.vacate h).get? k = s.get? k := by
  unfold get?
  split
  · next hk => rw [cell?_vacate hh hk, if_neg hne]
  · rfl

/-- A segment that is live after an action was there before it, unless it is the one put in. -/
theorem Accepts.get?_or_insert (hs : s.Sound) (ha : Accepts s a t) {g : Segment}
    (hg : t.get? k = some g) : s.get? k = some g ∨ a = .insert g := by
  rcases ha.cases with ⟨g', h, rfl, hrun⟩ | ⟨d, h, target, hl, rfl⟩ | ⟨h, -, hl, rfl⟩
  · obtain ⟨hi, -⟩ := inserted_of_insert hs hrun
    by_cases he : k = h
    · subst he
      obtain rfl := Option.some.inj (hi.found.symm.trans hg)
      exact .inr rfl
    · have h0 := nonneg_of_isLive (isLive_iff.2 ⟨g, hg⟩)
      exact .inl (by rwa [get?_congr (hi.kept k h0 he)] at hg)
  · exact .inl (by rwa [get?_withLink (nonneg_of_isLive hl)] at hg)
  · have hlive : (s.vacate h).isLive k := isLive_iff.2 ⟨g, hg⟩
    have h0 := nonneg_of_isLive hl
    rw [get?_vacate_of_ne h0] at hg
    · exact .inl hg
    · rintro rfl
      rw [isLive_vacate h0] at hlive
      simp at hlive

/-- An action other than an insertion makes no segment. -/
theorem Accepts.cleared (hp : a.Clears) (ha : Accepts s a t) : Cleared s t := by
  rcases ha.cases with ⟨g, h, rfl, -⟩ | ⟨d, h, target, hl, rfl⟩ | ⟨h, -, hl, rfl⟩
  · exact hp.elim
  · exact fun k _ => get?_withLink (nonneg_of_isLive hl)
  · intro k hk
    have h0 := nonneg_of_isLive hl
    refine get?_vacate_of_ne h0 ?_
    rintro rfl
    rw [isLive_vacate h0] at hk
    simp at hk

theorem Cleared.isLive (h : Cleared s t) (hk : t.isLive k) : s.isLive k := by
  unfold Store.isLive
  rw [← h k hk]
  exact hk

theorem Cleared.trans (h : Cleared s t) (h' : Cleared t u) : Cleared s u :=
  fun k hk => (h' k hk).trans (h k (h'.isLive hk))

theorem Leads.preserved (h : Leads Action.Builds s t) (hs : s.Sound) : Preserved s t := by
  induction h with
  | refl => exact .refl s
  | tail hrun hstep ih =>
    obtain ⟨a, hp, ha⟩ := hstep
    exact ih.trans (ha.preserved (Leads.sound hrun hs) hp)

theorem Leads.cleared (h : Leads Action.Clears s t) : Cleared s t := by
  induction h with
  | refl => exact fun _ _ => rfl
  | tail _ hstep ih =>
    obtain ⟨a, hp, ha⟩ := hstep
    exact ih.trans (ha.cleared hp)

/-- No cell is ever given up. -/
theorem Accepts.size_cells_le (ha : Accepts s a t) : s.cells.size ≤ t.cells.size := by
  rcases ha.cases with ⟨g, h, -, hrun⟩ | ⟨d, h, target, -, rfl⟩ | ⟨h, -, -, rfl⟩
  · unfold insert at hrun
    split at hrun
    · cases hrun
      exact Nat.le_of_eq (size_cells_modifyCell _).symm
    · cases hrun
      show s.cells.size ≤ (s.cells.push _).size
      rw [Array.size_push]
      exact Nat.le_succ _
  · exact Nat.le_of_eq size_cells_withLink.symm
  · exact Nat.le_of_eq size_cells_vacate.symm

theorem Leads.size_cells_le (h : Leads P s t) : s.cells.size ≤ t.cells.size := by
  induction h with
  | refl => exact Nat.le_refl _
  | tail _ hstep ih =>
    obtain ⟨a, -, ha⟩ := hstep
    exact Nat.le_trans ih ha.size_cells_le

/-- Only a removal makes a handle vacant. -/
theorem Accepts.vacant_or_remove (ha : Accepts s a t) (hk : k ∈ t.vacant) :
    k ∈ s.vacant ∨ (s.isLive k ∧ a = .remove k) := by
  rcases ha.cases with ⟨g, h, -, hrun⟩ | ⟨d, h, target, -, rfl⟩ | ⟨h, rfl, hl, rfl⟩
  · left
    unfold insert at hrun
    split at hrun
    · next hv =>
      cases hrun
      rw [hv]
      exact List.mem_cons_of_mem _ hk
    · cases hrun
      exact hk
  · exact .inl hk
  · rw [vacant_vacate] at hk
    rcases List.mem_cons.1 hk with rfl | hk
    · exact .inr ⟨hl, rfl⟩
    · exact .inl hk

/-- What is vacant after a run of one sort was vacant before it, or live. -/
theorem Leads.vacant_or_isLive (h : Leads Action.Builds s t ∨ Leads Action.Clears s t)
    (hk : k ∈ t.vacant) : k ∈ s.vacant ∨ s.isLive k := by
  rcases h with h | h
  · induction h with
    | refl => exact .inl hk
    | tail _ hstep ih =>
      obtain ⟨a, hp, ha⟩ := hstep
      rcases ha.vacant_or_remove hk with hk | ⟨-, rfl⟩
      · exact ih hk
      · exact hp.elim
  · induction h with
    | refl => exact .inl hk
    | tail hrun hstep ih =>
      obtain ⟨a, -, ha⟩ := hstep
      rcases ha.vacant_or_remove hk with hk | ⟨hl, -⟩
      · exact ih hk
      · exact .inr ((Leads.cleared hrun).isLive hl)

/-- A handle that stays live keeps its segment. -/
theorem Leads.get?_eq (h : Leads Action.Builds s t ∨ Leads Action.Clears s t) (hs : s.Sound)
    (hk : s.isLive k) (hk' : t.isLive k) : t.get? k = s.get? k := by
  rcases h with h | h
  · exact h.preserved hs k hk
  · exact h.cleared k hk'

end

end Store

/-! ## Calls -/

namespace Call

section
variable {σ α β : Type} {x y : Call σ α} {f : α → Call σ β} {s : σ}

/-- The state that a call leaves, be it with an answer or with a fault. -/
def left (x : Call σ α) (s : σ) : σ :=
  match x s with
  | .ok _ t => t
  | .error _ t => t

/-- The call leaves a store that accepted actions of a sort lead to. -/
def ActsBy (view : σ → Store) (P : Store.Action → Prop) (x : Call σ α) : Prop :=
  ∀ s, Store.Leads P (view s) (view (x.left s))

theorem left_of_ok {a : α} {t : σ} (h : x s = .ok a t) : x.left s = t := by
  unfold left
  rw [h]

theorem left_of_error {e : Fault} {t : σ} (h : x s = .error e t) : x.left s = t := by
  unfold left
  rw [h]

namespace ActsBy

variable {view : σ → Store} {P : Store.Action → Prop}

theorem of_unchanged (h : ∀ s, view (x.left s) = view s) : ActsBy view P x := by
  intro s
  rw [h s]
  exact Relation.ReflTransGen.refl

theorem pure (a : α) : ActsBy view P (pure a : Call σ α) := of_unchanged fun _ => rfl

theorem throw (e : Fault) : ActsBy view P (throw e : Call σ α) := of_unchanged fun _ => rfl

theorem get : ActsBy view P (get : Call σ σ) := of_unchanged fun _ => rfl

/-- A call that fails midway has acted as its first part, and otherwise its second part goes on. -/
theorem bind (hx : ActsBy view P x) (hf : ∀ a, ActsBy view P (f a)) :
    ActsBy view P (x >>= f) := by
  intro s
  have hleft := hx s
  cases hrun : x s with
  | ok a t =>
    rw [left_of_ok hrun] at hleft
    have hnext : (x >>= f).left s = (f a).left t := by
      unfold left
      rw [bind_apply, hrun]
    rw [hnext]
    exact hleft.trans (hf a t)
  | error e t =>
    rw [left_of_error hrun] at hleft
    have hstop : (x >>= f).left s = t := by
      unfold left
      rw [bind_apply, hrun]
    rw [hstop]
    exact hleft

theorem map (g : α → β) (hx : ActsBy view P x) : ActsBy view P (g <$> x) := by
  rw [map_eq_pure_bind]
  exact hx.bind fun a => pure (g a)

theorem ite {c : Prop} {_ : Decidable c} (hx : ActsBy view P x) (hy : ActsBy view P y) :
    ActsBy view P (if c then x else y) := by
  split
  · exact hx
  · exact hy

/-- A condition that stops the call if it is not met. -/
theorem check {c : Prop} {_ : Decidable c} {e : Fault} {f : Unit → Call σ α}
    (hf : ActsBy view P (f ())) :
    ActsBy view P (if c then (MonadExcept.throw e : Call σ Unit) >>= f else f ()) := by
  split
  · exact .of_unchanged fun _ => rfl
  · exact hf

end ActsBy

end

end Call

/-! ## The calls of the store -/

namespace Store

open Call

section
variable {P : Action → Prop} {s s' : Store} {d : Direction} {h : Int} {target : Option Handle}
  {f : Fault}

theorem actsBy_require : ActsBy id P (require h) := by
  refine .of_unchanged fun s => ?_
  cases hl : s.isLive h with
  | true => exact left_of_ok (require_of_isLive hl)
  | false => exact left_of_error (require_of_not_isLive hl)

/-- A link that is refused leaves the store as it is. -/
theorem eq_of_connect_eq_error (he : connect d h target s = .error f s') : s' = s := by
  have hset (he : (do require h; modify (·.withLink d h target) : Call Store Unit) s =
      .error f s') : s' = s := by
    rw [require_bind] at he
    split at he
    · cases he
    · cases he; rfl
  unfold connect at he
  cases target with
  | none => exact hset he
  | some t =>
    simp only [Call.bind_apply, Call.get_apply] at he
    cases hc : s.checkAcyclic d h t with
    | error f => rw [hc] at he; cases he; rfl
    | ok u =>
      rw [hc] at he
      replace he : (require t >>= fun _ =>
        (do require h; modify (·.withLink d h (some t)))) s = .error f s' := he
      rw [require_bind] at he
      split at he
      · exact hset he
      · cases he; rfl

theorem eq_of_cut_eq_error (he : cut d h s = .error f s') : s' = s := by
  unfold cut at he
  rw [require_bind] at he
  split at he
  · cases he
  · cases he; rfl

theorem eq_of_remove_eq_error (he : remove h s = .error f s') : s' = s := by
  unfold remove at he
  rw [require_bind] at he
  split at he
  · simp only [Call.bind_apply, Call.get_apply] at he
    split at he
    · cases he; rfl
    · cases he
  · cases he; rfl

/-- A call that is an action if it is accepted, and nothing otherwise. -/
theorem actsBy_of_accepts {α : Type} {x : Call Store α} {a : Action} (hp : P a)
    (hok : ∀ s r t, x s = .ok r t → Accepts s a t) (herror : ∀ s f t, x s = .error f t → t = s) :
    ActsBy id P x := by
  intro s
  cases hrun : x s with
  | ok r t =>
    rw [left_of_ok hrun]
    exact Leads.single hp (hok s r t hrun)
  | error f t =>
    rw [left_of_error hrun, herror s f t hrun]
    exact Relation.ReflTransGen.refl

theorem actsBy_insert (g : Segment) (hp : P (.insert g)) : ActsBy id P (insert g) := by
  refine actsBy_of_accepts hp (fun s h t hrun => ⟨h, hrun⟩) fun s f t hrun => ?_
  unfold insert at hrun
  split at hrun <;> cases hrun

theorem actsBy_connect (hp : P (.connect d h target)) : ActsBy id P (connect d h target) :=
  actsBy_of_accepts hp (fun _ _ _ hrun => hrun) fun _ _ _ => eq_of_connect_eq_error

theorem actsBy_cut (hp : P (.cut d h)) : ActsBy id P (cut d h) :=
  actsBy_of_accepts hp (fun _ answer _ hrun => ⟨answer, hrun⟩) fun _ _ _ => eq_of_cut_eq_error

theorem actsBy_remove (hp : P (.remove h)) : ActsBy id P (remove h) :=
  actsBy_of_accepts hp (fun _ _ _ hrun => hrun) fun _ _ _ => eq_of_remove_eq_error

end

/-! ## Composite calls -/

section
variable {P : Action → Prop} {d : Direction} {h : Int}

theorem actsBy_extend (hp : Action.AllowsBuilding P) (ends : Option Ends) :
    ActsBy id P (extend d ends h) := by
  cases ends with
  | none => exact .bind .get fun _ => .pure _
  | some e => exact .bind (actsBy_connect (hp.connect _ _ _)) fun _ => .bind .get fun s => .pure _

theorem actsBy_extendAll (hp : Action.AllowsBuilding P) (ends : Option Ends)
    (heads : List Handle) : ActsBy id P (extendAll d ends heads) := by
  induction heads generalizing ends with
  | nil => exact .pure ends
  | cons h rest ih => exact .bind (actsBy_extend hp ends) fun e => ih (some e)

theorem actsBy_concatenate (hp : Action.AllowsBuilding P) (heads : List (Option Handle)) :
    ActsBy id P (concatenate heads) :=
  .bind .get fun _ => .check <| .bind (actsBy_extendAll hp _ _) fun _ => .pure _

theorem actsBy_insertText (hp : Action.AllowsBuilding P) (t : Text) (kind : Kind) :
    ActsBy id P (insertText t kind) :=
  .ite (.throw _) (actsBy_insert _ (hp.insert _ _))

theorem actsBy_insertPoints (hp : Action.AllowsBuilding P) (t : List Point) (kind : Kind) :
    ActsBy id P (insertPoints t kind) := by
  unfold insertPoints
  cases Point.toText? t with
  | ok t => exact actsBy_insertText hp t kind
  | error index => exact .throw _

theorem actsBy_insertToken (hp : Action.AllowsBuilding P) (source : Text) (r : Token.Range)
    (kind : Kind) : ActsBy id P (insertToken source r kind) := by
  unfold insertToken
  split
  · exact .throw _
  · exact .pure _
  · next g hg =>
    obtain ⟨text, rfl⟩ := Token.exists_ofBytes_of_segment? hg
    exact .map _ (actsBy_insert _ (hp.insert text kind))

theorem actsBy_collapse_make (hp : Action.AllowsBuilding P) (head : Option Handle) (s : Store)
    (kind : Kind) : ActsBy id P (collapse.make head s kind) := by
  unfold collapse.make
  split
  · exact .throw _
  · exact .bind (actsBy_insert _ (hp.insert _ _)) fun h => .pure _

theorem actsBy_collapse (hp : Action.AllowsBuilding P) (head : Option Handle) (kind : Kind) :
    ActsBy id P (collapse head kind) := by
  unfold collapse
  refine .check ?_
  refine .bind .get fun s => .check ?_
  split
  · exact .ite (actsBy_collapse_make hp _ _ _) (.pure _)
  · exact actsBy_collapse_make hp _ _ _

theorem actsBy_attach (hp : Action.AllowsBuilding P) (c : Cursor) (h : Handle) :
    ActsBy id P (c.attach h) := by
  refine .bind actsBy_require fun _ => ?_
  cases c.ends with
  | none => exact .pure _
  | some e => exact .bind (actsBy_connect (hp.connect _ _ _)) fun _ => .pure _

theorem actsBy_discardRound (hp : Action.AllowsClearing P) (h : Handle) (pending : List Handle) :
    ActsBy id P (discardRound h pending) := by
  refine .bind (actsBy_cut (hp.cut _ _)) fun sibling => ?_
  cases sibling with
  | some k => exact .pure _
  | none =>
    exact .bind (actsBy_cut (hp.cut _ _)) fun next =>
      .bind (actsBy_remove (hp.remove _)) fun _ => .pure _

theorem actsBy_discardFrom (hp : Action.AllowsClearing P) (n : Nat) (pending : List Handle) :
    ActsBy id P (discardFrom n pending) := by
  induction n generalizing pending with
  | zero => exact .pure _
  | succ n ih =>
    cases pending with
    | nil => exact .pure _
    | cons h pending => exact .bind (actsBy_discardRound hp h pending) ih

theorem actsBy_discard (hp : Action.AllowsClearing P) (head : Option Handle) :
    ActsBy id P (discard head) := by
  cases head with
  | none => exact .pure _
  | some h => exact .bind actsBy_require fun _ => .bind .get fun s => actsBy_discardFrom hp _ _

end

end Store

end XPathAssembly
