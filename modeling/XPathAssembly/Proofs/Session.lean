import Mathlib.Data.List.Induction
import XPathAssembly.Proofs.Store.Rows
import XPathAssembly.Proofs.Store.Runs
import XPathAssembly.Session

/-!
# The store through a session

Whatever the steps of a session are, and however they end, each of them changes the store as a run
of accepted actions does.  So the store is consistent after every step and in the midst of one, and
no step puts another segment behind a handle that is live before and after it.

    (run step).left s = t → s.store leads to t.store          (run_actsBy)
    (after {} steps).store.Consistent                          (consistent_after)
-/

namespace XPathAssembly

open Call

/-! ## Calls of the bench -/

namespace Bench

variable {P : Store.Action → Prop} {α : Type}

theorem actsBy_onStore {call : Call Store α} (h : ActsBy id P call) :
    ActsBy Bench.store P (onStore call) := by
  intro b
  have hstore : ((onStore call).left b).store = call.left b.store := by
    unfold left onStore
    cases call b.store <;> rfl
  rw [hstore]
  exact h b.store

theorem actsBy_slot (i : Nat) : ActsBy Bench.store P (slot i) := by
  refine .bind .get fun b => ?_
  cases b.slots[i]? with
  | none => exact .throw _
  | some slot => exact .pure _

theorem actsBy_setSlot (i : Nat) (slot : Slot) : ActsBy Bench.store P (setSlot i slot) :=
  .of_unchanged fun _ => rfl

theorem actsBy_take (i : Nat) : ActsBy Bench.store P (take i) :=
  .bind (actsBy_slot i) fun _ => .bind (actsBy_setSlot i none) fun _ => .pure _

theorem actsBy_addSlot (slot : Slot) : ActsBy Bench.store P (addSlot slot) :=
  .of_unchanged fun _ => rfl

theorem actsBy_slotList (is : List Nat) : ActsBy Bench.store P (slotList is) := by
  induction is with
  | nil => exact .pure _
  | cons i rest ih => exact .bind (actsBy_slot i) fun _ => .bind ih fun _ => .pure _

theorem actsBy_joinFrom (hp : Store.Action.AllowsBuilding P) (ends : Option Ends)
    (is : List Nat) : ActsBy Bench.store P (joinFrom ends is) := by
  induction is generalizing ends with
  | nil => exact .pure _
  | cons i rest ih =>
    refine .bind (actsBy_take i) fun held => ?_
    cases held with
    | none => exact ih ends
    | some h => exact .bind (actsBy_onStore (Store.actsBy_extend hp ends)) fun e => ih (some e)

theorem actsBy_join (hp : Store.Action.AllowsBuilding P) (is : List Nat) :
    ActsBy Bench.store P (join is) :=
  .bind (actsBy_slotList is) fun _ => .bind .get fun _ => .check <|
    .bind (actsBy_joinFrom hp none is) fun _ => .pure _

theorem actsBy_cursor (i : Nat) : ActsBy Bench.store P (cursor i) := by
  refine .bind .get fun b => ?_
  cases b.cursors[i]? with
  | none => exact .throw _
  | some c => exact .pure _

theorem actsBy_addCursor : ActsBy Bench.store P addCursor := .of_unchanged fun _ => rfl

theorem actsBy_attach (hp : Store.Action.AllowsBuilding P) (i : Nat) (h : Handle) :
    ActsBy Bench.store P (attach i h) :=
  .bind (actsBy_cursor i) fun c => .bind (actsBy_onStore (Store.actsBy_attach hp c h)) fun _ =>
    .of_unchanged fun _ => rfl

theorem actsBy_attachNew (hp : Store.Action.AllowsBuilding P) (i : Nat)
    {make : Call Store Handle} (hm : ActsBy id P make) :
    ActsBy Bench.store P (attachNew i make) :=
  .bind (actsBy_onStore hm) fun h => .bind (actsBy_attach hp i h) fun _ => .pure _

theorem actsBy_attachText (hp : Store.Action.AllowsBuilding P) (i : Nat) (t : Text)
    (kind : Kind) : ActsBy Bench.store P (attachText i t kind) :=
  actsBy_attachNew hp i (Store.actsBy_insertText hp t kind)

theorem actsBy_separate (hp : Store.Action.AllowsBuilding P) (i : Nat) :
    ActsBy Bench.store P (separate i) := by
  refine .bind (actsBy_cursor i) fun c => ?_
  cases c.ends with
  | none => exact .pure _
  | some e =>
    refine .bind .get fun b => .check <| .check ?_
    exact .map _ (actsBy_attachText hp i _ _)

theorem actsBy_append (hp : Store.Action.AllowsBuilding P) (i : Nat) (t : Text) (kind : Kind) :
    ActsBy Bench.store P (append i t kind) :=
  .bind (actsBy_separate hp i) fun _ => actsBy_attachText hp i t kind

theorem actsBy_appendPoints (hp : Store.Action.AllowsBuilding P) (i : Nat) (t : List Point)
    (kind : Kind) : ActsBy Bench.store P (appendPoints i t kind) :=
  .bind (actsBy_separate hp i) fun _ =>
    actsBy_attachNew hp i (Store.actsBy_insertPoints hp t kind)

theorem actsBy_collapse (hp : Store.Action.AllowsBuilding P) (i : Nat) (kind : Kind) :
    ActsBy Bench.store P (collapse i kind) :=
  .bind (actsBy_slot i) fun held =>
    .bind (actsBy_onStore (Store.actsBy_collapse hp held kind)) fun c =>
      .bind (actsBy_setSlot i c.left) fun _ => .pure _

end Bench

/-! ## Steps of a session -/

namespace Session

/-- The store that a session works on. -/
def store (s : Session) : Store := s.bench.store

variable {P : Store.Action → Prop} {α : Type}

theorem actsBy_onBench {call : Call Bench α} (h : ActsBy Bench.store P call) :
    ActsBy store P (onBench call) := by
  intro s
  have hstore : ((onBench call).left s).store = (call.left s.bench).store := by
    unfold left onBench
    cases call s.bench <;> rfl
  rw [hstore]
  exact h s.bench

theorem actsBy_onStore {call : Call Store α} (h : ActsBy id P call) :
    ActsBy store P (onStore call) :=
  actsBy_onBench (Bench.actsBy_onStore h)

theorem actsBy_ofStore (f : Store → Except Fault α) : ActsBy store P (ofStore f) := by
  refine .bind .get fun s => ?_
  split
  · exact .pure _
  · exact .throw _

theorem actsBy_onBuffer (i : Nat) (call : Call Buffer α) : ActsBy store P (onBuffer i call) := by
  refine .of_unchanged fun s => ?_
  unfold left onBuffer
  cases s.buffers[i]? with
  | none => rfl
  | some b =>
    cases hrun : call b with
    | ok a b' => simp only [hrun]; rfl
    | error f b' => simp only [hrun]; rfl

theorem actsBy_addBuffer (capacity : Int) : ActsBy store P (addBuffer capacity) := by
  refine .of_unchanged fun s => ?_
  unfold left addBuffer
  cases Buffer.ofCapacity capacity <;> rfl

/-- A step that puts in no segment given as such keeps to any sort that allows building, or to any
that allows clearing, whether it ends with a reply or a fault. -/
theorem run_actsBy_of_allows {Q : Store.Action → Prop} (hp : Store.Action.AllowsBuilding P)
    (hq : Store.Action.AllowsClearing Q) (step : Step)
    (hi : ∀ g, step = .insert g → P (.insert g)) :
    ActsBy store P (run step) ∨ ActsBy store Q (run step) := by
  cases step with
  | remove h => exact .inr (.map _ (actsBy_onStore (Store.actsBy_remove (hq.remove h))))
  | discard head => exact .inr (.map _ (actsBy_onStore (Store.actsBy_discard hq head)))
  | insertToken source range kind =>
    exact .inl (.map _ (actsBy_onStore (Store.actsBy_insertToken hp source range kind)))
  | insertText text kind =>
    exact .inl (.map _ (actsBy_onStore (Store.actsBy_insertText hp text kind)))
  | insertPoints text kind =>
    exact .inl (.map _ (actsBy_onStore (Store.actsBy_insertPoints hp text kind)))
  | insert segment => exact .inl (.map _ (actsBy_onStore (Store.actsBy_insert _ (hi _ rfl))))
  | connect d h target =>
    exact .inl (.map _ (actsBy_onStore (Store.actsBy_connect (hp.connect d h target))))
  | cut d h => exact .inl (.map _ (actsBy_onStore (Store.actsBy_cut (hp.cut d h))))
  | concatenate heads => exact .inl (.map _ (actsBy_onStore (Store.actsBy_concatenate hp heads)))
  | addSlot head => exact .inl (.map _ (actsBy_onBench (Bench.actsBy_addSlot head)))
  | take slot => exact .inl (.map _ (actsBy_onBench (Bench.actsBy_take slot)))
  | join slots => exact .inl (.map _ (actsBy_onBench (Bench.actsBy_join hp slots)))
  | addCursor => exact .inl (.map _ (actsBy_onBench Bench.actsBy_addCursor))
  | cursor i => exact .inl (.map _ (actsBy_onBench (Bench.actsBy_cursor i)))
  | append i text kind =>
    exact .inl (.map _ (actsBy_onBench (Bench.actsBy_append hp i text kind)))
  | appendPoints i text kind =>
    exact .inl (.map _ (actsBy_onBench (Bench.actsBy_appendPoints hp i text kind)))
  | attach i h => exact .inl (.map _ (actsBy_onBench (Bench.actsBy_attach hp i h)))
  | collapse slot kind =>
    exact .inl (.map _ (actsBy_onBench (Bench.actsBy_collapse hp slot kind)))
  | addBuffer capacity => exact .inl (.map _ (actsBy_addBuffer capacity))
  | write i data | dropLast i => exact .inl (.map _ (actsBy_onBuffer i _))
  | byteAt i position | buffer i =>
    unfold run
    exact .inl (actsBy_onBuffer i _)
  | layOut i head style => exact .inl (.bind .get fun _ => .map _ (actsBy_onBuffer i _))
  | slots | cells => exact .inl (.bind .get fun _ => .pure _)
  | segment h | describe h | isLive h | linkOf d h | walk d head | tailOf h | measure head style
  | expression head style | concatCall head style | template head style | isLone h kind
  | listing head => exact .inl (.map _ (actsBy_ofStore _))

/-- A step builds or clears. -/
theorem run_actsBy (step : Step) :
    ActsBy store Store.Action.Builds (run step) ∨ ActsBy store Store.Action.Clears (run step) :=
  run_actsBy_of_allows Store.Action.allowsBuilding_builds Store.Action.allowsClearing_clears step
    fun _ _ => trivial

/-- The session after some steps, each of which goes on from the state the one before has left. -/
def after (s : Session) : List Step → Session
  | [] => s
  | step :: rest => ((run step).left s).after rest

theorem after_append (s : Session) (steps more : List Step) :
    s.after (steps ++ more) = (s.after steps).after more := by
  induction steps generalizing s with
  | nil => rfl
  | cons step rest ih => exact ih _

theorem play_cons (s : Session) (step : Step) (rest : List Step) :
    s.play (step :: rest) = s.play [step] ++ ((run step).left s).play rest := by
  cases hrun : run step s with
  | ok r t => simp only [play, hrun, left_of_ok hrun, List.singleton_append]
  | error f t => simp only [play, hrun, left_of_error hrun, List.singleton_append]

/-- The turns after some steps are those of the session that they leave. -/
theorem play_append (s : Session) (steps more : List Step) :
    s.play (steps ++ more) = s.play steps ++ (s.after steps).play more := by
  induction steps generalizing s with
  | nil => rfl
  | cons step rest ih =>
    calc s.play (step :: (rest ++ more))
        = s.play [step] ++ ((run step).left s).play (rest ++ more) := play_cons s step _
      _ = s.play [step] ++ (((run step).left s).play rest ++
            (((run step).left s).after rest).play more) := by rw [ih]
      _ = s.play (step :: rest) ++ (s.after (step :: rest)).play more := by
          rw [← List.append_assoc, ← play_cons, after]

/-- The store that steps leave is what actions of a sort make of the first one, if the sort allows
all that they put in. -/
theorem leads_after_of_allows (hb : Store.Action.AllowsBuilding P)
    (hc : Store.Action.AllowsClearing P) (s : Session) {steps : List Step}
    (hi : ∀ g, .insert g ∈ steps → P (.insert g)) :
    Store.Leads P s.store (s.after steps).store := by
  induction steps generalizing s with
  | nil => exact Relation.ReflTransGen.refl
  | cons step rest ih =>
    have hstep : Store.Leads P s.store ((run step).left s).store :=
      (run_actsBy_of_allows hb hc step fun g hg => hi g (hg ▸ List.mem_cons_self)).elim
        (· s) (· s)
    exact hstep.trans (ih _ fun g hg => hi g (List.mem_cons_of_mem _ hg))

/-- Whatever the steps, the store they leave is what accepted actions make of the first one. -/
theorem leads_after (s : Session) (steps : List Step) :
    Store.Leads (fun _ => True) s.store (s.after steps).store :=
  leads_after_of_allows ⟨fun _ _ _ => trivial, fun _ _ => trivial, fun _ _ => trivial⟩
    ⟨fun _ _ => trivial, fun _ => trivial⟩ s fun _ _ => trivial

end Session

/-! ## Consistency -/

namespace Store

variable {s : Store}

/-- The handles of the live segments. -/
def liveHandles (s : Store) : List Handle :=
  ((List.range s.cells.size).map Int.ofNat).filter s.isLive

theorem mem_liveHandles_iff {h : Handle} : h ∈ s.liveHandles ↔ s.isLive h := by
  unfold liveHandles
  rw [List.mem_filter]
  constructor
  · exact And.right
  · intro hl
    have h0 := nonneg_of_isLive hl
    have hlt := lt_size_of_isLive hl
    refine ⟨List.mem_map.2 ⟨h.toNat, List.mem_range.2 (by omega), ?_⟩, hl⟩
    exact Int.toNat_of_nonneg h0

theorem nodup_liveHandles : s.liveHandles.Nodup :=
  (List.nodup_range.map fun _ _ => Int.ofNat.inj).filter _

/-- Everything that the recycling of handles relies on. -/
structure Consistent (s : Store) : Prop where
  /-- No handle is vacant twice. -/
  nodup : s.vacant.Nodup
  /-- Vacant are the handles of cells without a segment. -/
  mem_vacant : ∀ h : Handle, h ∈ s.vacant ↔ (0 ≤ h ∧ h < s.cells.size) ∧ s.isLive h = false
  unlinked : ∀ (h : Handle) (d : Direction), 0 ≤ h → s.isLive h = false → s.link? d h = none
  size_eq : s.size = s.liveHandles.length
  /-- A new segment gets a handle that was not live. -/
  insert : ∀ g, ∃ h t, insert g s = .ok h t ∧ s.isLive h = false ∧ t.get? h = some g

theorem Sound.consistent (hs : s.Sound) : s.Consistent where
  nodup := hs.nodup
  mem_vacant := hs.mem_vacant
  unlinked := hs.unlinked
  size_eq := hs.size_eq nodup_liveHandles fun _ => mem_liveHandles_iff
  insert g := by
    obtain ⟨h, t, hrun, hi, -⟩ := insert_spec hs g
    exact ⟨h, t, hrun, hi.fresh, hi.found⟩

end Store

namespace Session

theorem sound_after (steps : List Step) : (after {} steps).store.Sound :=
  (leads_after {} steps).sound Store.sound_empty

/-- A handle that no step takes away keeps its segment. -/
theorem get?_after {s : Session} (hs : s.store.Sound) {h : Handle} {steps : List Step}
    (hl : ∀ done, done <+: steps → (s.after done).store.isLive h) :
    (s.after steps).store.get? h = s.store.get? h := by
  induction steps generalizing s with
  | nil => rfl
  | cons step rest ih =>
    have hstep : Store.Leads Store.Action.Builds s.store ((run step).left s).store ∨
        Store.Leads Store.Action.Clears s.store ((run step).left s).store :=
      (run_actsBy step).imp (· s) (· s)
    have hs' : ((run step).left s).store.Sound := (leads_after s [step]).sound hs
    have hfirst : s.store.isLive h := hl [] List.nil_prefix
    have hsecond : ((run step).left s).store.isLive h :=
      hl [step] (List.prefix_append [step] rest)
    calc (s.after (step :: rest)).store.get? h
        = ((run step).left s).store.get? h :=
          ih hs' fun done hd => hl (step :: done) (List.prefix_cons_inj step |>.2 hd)
      _ = s.store.get? h := Store.Leads.get?_eq hstep hs hfirst hsecond

/-- A vacant handle was live after some of the steps. -/
theorem exists_isLive_of_mem_vacant {steps : List Step} {h : Handle}
    (hv : h ∈ (after {} steps).store.vacant) :
    ∃ done, done <+: steps ∧ (after {} done).store.isLive h := by
  induction steps using List.reverseRecOn with
  | nil => cases hv
  | append_singleton steps step ih =>
    rw [after_append] at hv
    have hstep : Store.Leads Store.Action.Builds (after {} steps).store _ ∨
        Store.Leads Store.Action.Clears (after {} steps).store _ :=
      (run_actsBy step).imp (· _) (· _)
    rcases Store.Leads.vacant_or_isLive hstep hv with hv | hl
    · obtain ⟨done, hd, hl⟩ := ih hv
      exact ⟨done, hd.trans (List.prefix_append steps [step]), hl⟩
    · exact ⟨steps, List.prefix_append steps [step], hl⟩

/-- Vacant are the handles that were live after some of the steps and are not live any more. -/
theorem mem_vacant_after_iff {steps : List Step} {h : Handle} :
    h ∈ (after {} steps).store.vacant ↔
      (∃ done, done <+: steps ∧ (after {} done).store.isLive h) ∧
        (after {} steps).store.isLive h = false := by
  have hs := sound_after steps
  constructor
  · intro hv
    exact ⟨exists_isLive_of_mem_vacant hv, ((hs.mem_vacant h).1 hv).2⟩
  · rintro ⟨⟨done, ⟨more, rfl⟩, hl⟩, hdead⟩
    refine (hs.mem_vacant h).2 ⟨⟨Store.nonneg_of_isLive hl, ?_⟩, hdead⟩
    have hlt := Store.lt_size_of_isLive hl
    have hle := (leads_after (after {} done) more).size_cells_le
    rw [← after_append] at hle
    omega

/-- After any steps of a session, accepted or not, the store is consistent, and so is every store
that a next call goes through; vacant are the handles that were given out and taken back; and a
handle keeps its segment as long as it is live. -/
theorem consistent_after (steps : List Step) :
    (after {} steps).store.Consistent ∧
      (∀ t, Store.Leads (fun _ => True) (after {} steps).store t → t.Consistent) ∧
      (∀ h, h ∈ (after {} steps).store.vacant ↔
        (∃ done, done <+: steps ∧ (after {} done).store.isLive h) ∧
          (after {} steps).store.isLive h = false) ∧
      ∀ more, Store.Leads (fun _ => True) (after {} steps).store (after {} (steps ++ more)).store ∧
        ∀ h, (∀ done, done <+: more → (after {} (steps ++ done)).store.isLive h) →
          (after {} (steps ++ more)).store.get? h = (after {} steps).store.get? h := by
  have hs := sound_after steps
  refine ⟨hs.consistent, fun t ht => (ht.sound hs).consistent, fun h => mem_vacant_after_iff,
    fun more => ⟨?_, fun h hl => ?_⟩⟩
  · rw [after_append]
    exact leads_after _ more
  · simp only [after_append] at hl ⊢
    exact get?_after hs hl

end Session

end XPathAssembly
