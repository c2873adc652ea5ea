import XPathAssembly.Proofs.Bench.Calls
import XPathAssembly.Proofs.Token

/-!
# Ownership

A compilation moves chains about: it puts new segments into new slots, joins what slots hold, lets
an expression grow at a cursor, collapses it and discards it.  Whatever the moves and however many,
every live segment has one owner and one place in the chain of this owner, and no move meets a
fault.

    b.Reachable → b.IsForest ∧ ∀ m, m.Allowed b → ∃ answer b', m.run b = .ok answer b' ∧ …

What carries the induction is that a bench keeps the trees of its owners and has nothing in hand.
-/

namespace XPathAssembly

namespace Bench

/-! ## Moves -/

/-- A call whose answer goes into a new slot. -/
def keep (call : Call Bench (Option Handle)) : Call Bench (Option Handle) := do
  let head ← call
  discard <| addSlot head
  return head

/-- Answers the head of what a cursor holds; the cursor is given up and begins anew. -/
def giveUp (i : Nat) : Call Bench (Option Handle) := do
  let c ← cursor i
  modify fun b => { b with cursors := b.cursors.setIfInBounds i {} }
  return c.ends.map Ends.first

/-- What is done with the chains.  The slots of a concatenation are emptied before it is made. -/
inductive Move where
  | token (source : Text) (range : Token.Range) (kind : Kind)
  | text (t : Text) (kind : Kind)
  | join (slots : List Nat)
  | concatenate (slots : List Nat)
  | append (cursor : Nat) (t : Text) (kind : Kind)
  | settle (cursor : Nat)
  | collapse (slot : Nat) (kind : Kind)
  | discard (slot : Nat)

namespace Move

def run : Move → Call Bench (Option Handle)
  | .token source range kind => keep (onStore (Store.insertToken source range kind))
  | .text t kind => keep (some <$> onStore (Store.insertText t kind))
  | .join slots => keep (Bench.join slots)
  | .concatenate slots => keep do
    let heads ← takeAll slots
    onStore (Store.concatenate heads)
  | .append cursor t kind => some <$> Bench.append cursor t kind
  | .settle cursor => keep (giveUp cursor)
  | .collapse slot kind => keep (some <$> Bench.collapse slot kind)
  | .discard slot => do
    let head ← take slot
    onStore (Store.discard head)
    return none

/-- The moves that the owners of a bench allow; the slots that are joined are all different. -/
def Allowed (b : Bench) : Move → Prop
  | .token source range kind => kind ≠ .eos ∧ Token.IsValid source range kind
  | .text _ kind => kind ≠ .eos
  | .join slots => slots.Nodup ∧ ∀ i ∈ slots, i < b.slots.size
  | .concatenate slots => slots.Nodup ∧ ∀ i ∈ slots, i < b.slots.size
  | .append cursor _ kind => cursor < b.cursors.size ∧ kind ≠ .eos
  | .settle cursor => cursor < b.cursors.size
  | .collapse slot kind => slot < b.slots.size ∧ kind ≠ .eos
  | .discard slot => slot < b.slots.size

/-- What each move promises of its answer and of the bench after it. -/
def Promise (answer : Option Handle) (b : Bench) : Move → Prop
  | .token .. | .text .. => ∃ h, answer = some h ∧ b.store.isLive h ∧ ∀ d, b.store.link? d h = none
  | .join slots | .concatenate slots => ∀ i ∈ slots, b.slots[i]? = some none
  | .append cursor .. => ∃ first h, answer = some h ∧
      b.cursors[cursor]? = some ⟨some ⟨first, h⟩⟩ ∧ b.store.link? .next h = none
  | .settle cursor => b.cursors[cursor]? = some {}
  | .collapse .. => ∃ h, answer = some h ∧ b.store.isLive h ∧ b.store.link? .next h = none
  | .discard slot => b.slots[slot]? = some none

end Move

/-- What allowed moves make of empty slots and cursors. -/
inductive Reachable : Bench → Prop
  | start (slots cursors : Nat) :
    Reachable { slots := Array.replicate slots none, cursors := Array.replicate cursors {} }
  | move {b b' : Bench} {m : Move} {answer : Option Handle} (hr : Reachable b) (ha : m.Allowed b)
    (hm : m.run b = .ok answer b') : Reachable b'

/-- Each live segment is at the end of one path from one owner, no owner and no link of a live
segment leads to one that is not live, and each cursor knows the last segment of its chain. -/
structure IsForest (b : Bench) : Prop where
  owned : ∀ h, b.store.isLive h → ∃! place : Owner × List Direction,
    b.store.trace (b.head? place.1) place.2 = some h
  head_live : ∀ o h, b.head? o = some h → b.store.isLive h
  link_live : ∀ h d k, b.store.isLive h → b.store.link? d h = some k → b.store.isLive k
  cursor_last : ∀ c ∈ b.cursors, ∀ e, c.ends = some e →
    b.store.tailOf e.first = .ok e.last ∧ b.store.isLive e.last ∧ b.store.link? .next e.last = none

/-- Nothing is in hand. -/
def AtRest (b : Bench) : Prop := ∃ T, b.Keeps T ∧ T none = .empty

variable {b b' : Bench} {T : Option Owner → Tree} {m : Move}

theorem AtRest.isForest (hb : b.AtRest) : b.IsForest := by
  obtain ⟨T, hk, hnone⟩ := hb
  have hf := hk.forest
  have htrace : ∀ o path, b.store.trace (b.head? o) path = (T (some o)).reach path := by
    intro o path
    rw [← hk.head?_eq o]
    exact (hf.holds _).trace_eq path
  refine ⟨fun h hl => ?_, fun o h hh => ?_, fun h d k hl hd => ?_, fun c hc e he => ?_⟩
  · obtain ⟨o, ho⟩ := hf.covers h hl
    cases o with
    | none => rw [hnone] at ho; cases ho
    | some o =>
      obtain ⟨path, hp⟩ := Tree.mem_handles_iff.mp ho
      refine ⟨(o, path), (htrace o path).trans hp, ?_⟩
      rintro ⟨o', path'⟩ (hp' : b.store.trace (b.head? o') path' = some h)
      rw [htrace] at hp'
      have hsame := hf.disjoint _ _ h (Tree.mem_handles_iff.mpr ⟨path', hp'⟩) ho
      obtain rfl : o' = o := Option.some.inj hsame
      rw [Tree.reach_inj (hf.nodup _) hp' hp]
  · exact hf.isLive (Tree.mem_handles_iff.mpr ⟨[], (htrace o []).symm.trans hh⟩)
  · exact hf.isLive_of_link? hl hd
  · obtain ⟨i, hi, rfl⟩ := Array.mem_iff_getElem.mp hc
    have hends : (T (some (.cursor i))).ends .next = some e := by
      rw [hk.cursor, Array.getElem?_eq_getElem hi]
      exact he
    have hheld : b.store.Holds (some e.first) (T (some (.cursor i))) :=
      (Tree.ends_eq_some_iff.mp hends).1 ▸ hf.holds _
    have hlast : b.store.last .next e.first = e.last := by
      rw [hheld.ends_eq] at hends
      exact congrArg Ends.last (Option.some.inj hends)
    refine ⟨?_, hf.isLive (Tree.last_mem_handles hends), hheld.link?_last hends⟩
    unfold Store.tailOf
    rw [if_pos (Store.holds_some_iff.mp hheld).1, hlast]

theorem atRest_start (slots cursors : Nat) : AtRest
    { slots := Array.replicate slots none, cursors := Array.replicate cursors {} } := by
  refine ⟨fun _ => .empty, ⟨Store.sound_empty, Store.forest_empty, fun i => ?_, fun i => ?_⟩, rfl⟩
  · show none = (Array.replicate slots (none : Slot))[i]?.join
    rw [Array.getElem?_replicate]
    split <;> rfl
  · show none = (Array.replicate cursors ({} : Cursor))[i]?.bind Cursor.ends
    rw [Array.getElem?_replicate]
    split <;> rfl

/-! ## The moves one by one -/

/-- What a call leaves in hand goes into a new slot; the store and the other slots stay. -/
theorem keep_ok {call : Call Bench (Option Handle)} {answer : Option Handle}
    (hc : call b = .ok answer b') (hk : b'.Keeps T) (hh : (T none).head? = answer) :
    ∃ b'' : Bench, keep call b = .ok answer b'' ∧ b''.AtRest ∧ b''.store = b'.store ∧
      b''.cursors = b'.cursors ∧
      ∀ (i : Nat) (held : Slot), b'.slots[i]? = some held → b''.slots[i]? = some held := by
  subst hh
  refine ⟨_, ?_, ⟨_, hk.addSlot, Store.joined_emptied⟩, rfl, rfl, fun i held hi => ?_⟩
  · unfold keep
    rw [Call.bind_apply, hc]
    rfl
  · obtain ⟨hlt, -⟩ := Array.getElem?_eq_some_iff.mp hi
    show (b'.slots.push _)[i]? = _
    rw [Array.getElem?_push, if_neg (Nat.ne_of_lt hlt)]
    exact hi

/-- A new segment goes into a new slot. -/
theorem insert_ok (hb : b.AtRest) {g : Segment} {call : Call Bench (Option Handle)}
    (hcall : ∀ h s, Store.insert g b.store = .ok h s →
      call b = .ok (some h) { b with store := s }) :
    ∃ answer b', keep call b = .ok answer b' ∧ b'.AtRest ∧
      ∃ h, answer = some h ∧ b'.store.isLive h ∧ ∀ d, b'.store.link? d h = none := by
  obtain ⟨T, hk, hnone⟩ := hb
  obtain ⟨h, s, hrun, hi, hk'⟩ := hk.insert hnone g
  obtain ⟨b', hkeep, hrest, hstore, -, -⟩ :=
    keep_ok (hcall h s hrun) hk' (by rw [Function.update_self]; rfl)
  refine ⟨some h, b', hkeep, hrest, h, rfl, ?_⟩
  rw [hstore]
  exact ⟨hi.isLive, hi.unlinked⟩

theorem Keeps.all_isChain (hk : b.Keeps T) (slots : List Nat) :
    (slots.map fun i => b.slots[i]?.join).all b.store.isChain = true := by
  rw [List.all_map, List.all_eq_true]
  intro i _
  show b.store.isChain b.slots[i]?.join = true
  rw [← hk.slot]
  exact hk.isChain _

/-- What the slots hold is joined into a new slot, and they are empty. -/
theorem join_ok (hb : b.AtRest) {is : List Nat} (hn : is.Nodup) (hi : ∀ i ∈ is, i < b.slots.size) :
    ∃ answer b', keep (Bench.join is) b = .ok answer b' ∧ b'.AtRest ∧
      ∀ i ∈ is, b'.slots[i]? = some none := by
  obtain ⟨T, hk, hnone⟩ := hb
  obtain ⟨T', s, hrun, hk'⟩ := hk.gather hnone hn .next
  have hjoin : Bench.join is b =
      .ok (T' none).head? { b with store := s, slots := emptied b.slots is } := by
    rw [join_eq (namedOnce_of_nodup hn) hi (hk.all_isChain is) hrun, Tree.map_first_ends]
  obtain ⟨b', hkeep, hrest, -, -, hslots⟩ := keep_ok hjoin hk' rfl
  exact ⟨_, b', hkeep, hrest, fun i hm => hslots i none (getElem?_emptied_of_mem hi i hm)⟩

/-- What the slots hold is concatenated into a new slot, and they are empty. -/
theorem concatenate_ok (hb : b.AtRest) {is : List Nat} (hn : is.Nodup)
    (hi : ∀ i ∈ is, i < b.slots.size) :
    ∃ answer b', (Move.concatenate is).run b = .ok answer b' ∧ b'.AtRest ∧
      ∀ i ∈ is, b'.slots[i]? = some none := by
  obtain ⟨T, hk, hnone⟩ := hb
  obtain ⟨T', s, hrun, hk'⟩ := hk.gather hnone hn .sibling
  have hconc : Store.concatenate (is.map fun i => b.slots[i]?.join) b.store =
      .ok (T' none).head? s := by
    unfold Store.concatenate
    simp only [Call.bind_apply, Call.get_apply, hk.all_isChain, Bool.not_true, Bool.false_eq_true,
      if_false, hrun, Call.pure_apply, Tree.map_first_ends]
  have hcall : (takeAll is >>= fun heads => onStore (Store.concatenate heads)) b =
      .ok (T' none).head? { b with store := s, slots := emptied b.slots is } := by
    rw [Call.bind_apply, takeAll_eq (namedOnce_of_nodup hn) hi]
    exact onStore_of_ok (b := { b with slots := emptied b.slots is }) hconc
  obtain ⟨b', hkeep, hrest, -, -, hslots⟩ := keep_ok hcall hk' rfl
  exact ⟨_, b', hkeep, hrest, fun i hm => hslots i none (getElem?_emptied_of_mem hi i hm)⟩

/-- What a cursor holds goes into a new slot. -/
theorem settle_ok (hb : b.AtRest) {i : Nat} (hi : i < b.cursors.size) :
    ∃ answer b', keep (giveUp i) b = .ok answer b' ∧ b'.AtRest ∧ b'.cursors[i]? = some {} := by
  obtain ⟨T, hk, hnone⟩ := hb
  obtain ⟨c, hc⟩ := exists_cursor hi
  have hgive : giveUp i b =
      .ok (c.ends.map Ends.first) (b.without (.cursor i)) := by
    unfold giveUp
    rw [Call.bind_apply, cursor_eq hc]
    rfl
  have hhead : (Store.joined T .next none (some (.cursor i)) none).head? =
      c.ends.map Ends.first := by
    rw [Store.joined_of (Option.some_ne_none _).symm, hnone, Tree.empty_graft, hk.head?_eq]
    show (b.cursors[i]?.bind Cursor.ends).map Ends.first = _
    rw [hc]
    rfl
  obtain ⟨b', hkeep, hrest, -, hcursors, -⟩ := keep_ok hgive (hk.take hnone (.cursor i)) hhead
  refine ⟨_, b', hkeep, hrest, ?_⟩
  rw [hcursors]
  exact Array.getElem?_setIfInBounds_self_of_lt hi

/-- A chunk is appended to what a cursor holds, and the answer is its last segment. -/
theorem append_ok (hb : b.AtRest) {i : Nat} (hi : i < b.cursors.size) (t : Text) {kind : Kind}
    (hkind : kind ≠ .eos) :
    ∃ answer b', (some <$> Bench.append i t kind) b = .ok answer b' ∧ b'.AtRest ∧
      ∃ first h, answer = some h ∧ b'.cursors[i]? = some ⟨some ⟨first, h⟩⟩ ∧
        b'.store.link? .next h = none := by
  obtain ⟨T, hk, hnone⟩ := hb
  obtain ⟨h, b', T', first, hrun, hk', hnone', hc⟩ := hk.append hnone hi t hkind
  refine ⟨some h, b', Call.map_of_ok _ _ _ some hrun, ⟨T', hk', hnone'⟩, first, h, rfl, hc, ?_⟩
  have hends : (T' (some (.cursor i))).ends .next = some ⟨first, h⟩ := by
    rw [hk'.cursor, hc]
    rfl
  exact (hk'.forest.holds _).link?_last hends

/-- What a slot holds is collapsed into a segment in a new slot. -/
theorem collapse_ok (hb : b.AtRest) {i : Nat} (hi : i < b.slots.size) {kind : Kind}
    (hkind : kind ≠ .eos) :
    ∃ answer b', keep (some <$> Bench.collapse i kind) b = .ok answer b' ∧ b'.AtRest ∧
      ∃ h, answer = some h ∧ b'.store.isLive h ∧ b'.store.link? .next h = none := by
  obtain ⟨T, hk, hnone⟩ := hb
  obtain ⟨h, b1, T', hrun, hk', hhead, hlink⟩ := hk.collapse hnone hi hkind
  obtain ⟨b', hkeep, hrest, hstore, -, -⟩ := keep_ok (Call.map_of_ok _ _ _ some hrun) hk' hhead
  have hl : b1.store.isLive h := by
    have hchain := hk'.isChain none
    rw [hhead] at hchain
    exact hchain
  refine ⟨some h, b', hkeep, hrest, h, rfl, ?_⟩
  rw [hstore]
  exact ⟨hl, hlink⟩

/-- What a slot holds is discarded, and the slot is empty. -/
theorem discard_ok (hb : b.AtRest) {i : Nat} (hi : i < b.slots.size) :
    ∃ answer b', (Move.discard i).run b = .ok answer b' ∧ b'.AtRest ∧ b'.slots[i]? = some none := by
  obtain ⟨T, hk, hnone⟩ := hb
  obtain ⟨s, hrun, hk'⟩ := hk.discard hi
  refine ⟨none, { b.without (.slot i) with store := s }, ?_,
    ⟨_, hk', by rw [Function.update_of_ne (Option.some_ne_none _).symm]; exact hnone⟩,
    Array.getElem?_setIfInBounds_self_of_lt hi⟩
  show (take i >>= fun head => onStore (Store.discard head) >>= fun _ => pure none) b = _
  rw [← bind_assoc, Call.bind_apply, hrun]
  rfl

/-! ## Runs -/

/-- An allowed move meets no fault, keeps its promise and leaves nothing in hand. -/
theorem AtRest.move (hb : b.AtRest) (ha : m.Allowed b) :
    ∃ answer b', m.run b = .ok answer b' ∧ b'.AtRest ∧ m.Promise answer b' := by
  cases m with
  | token source range kind =>
    obtain ⟨g, hg⟩ := Token.exists_segment ha.2 ha.1
    refine insert_ok (g := g) hb fun h s hrun => onStore_of_ok ?_
    unfold Store.insertToken
    rw [hg]
    exact Call.map_of_ok _ _ _ some hrun
  | text t kind =>
    refine insert_ok (g := .ofText t kind) hb fun h s hrun =>
      Call.map_of_ok _ _ _ some (onStore_of_ok ?_)
    unfold Store.insertText
    rw [if_neg ha]
    exact hrun
  | join slots => exact join_ok hb ha.1 ha.2
  | concatenate slots => exact concatenate_ok hb ha.1 ha.2
  | append cursor t kind => exact append_ok hb ha.1 t ha.2
  | settle cursor => exact settle_ok hb ha
  | collapse slot kind => exact collapse_ok hb ha.1 ha.2
  | discard slot => exact discard_ok hb ha

theorem Reachable.atRest (hr : b.Reachable) : b.AtRest := by
  induction hr with
  | start slots cursors => exact atRest_start slots cursors
  | move _ ha hm ih =>
    obtain ⟨answer, b', hrun, hrest, -⟩ := ih.move ha
    rw [hm] at hrun
    cases hrun
    exact hrest

/-- **Ownership is a forest.**  After any run of allowed moves each live segment has one owner and
one place, and each move that is allowed then ends without a fault and keeps its promise. -/
theorem forest_of_reachable (hr : b.Reachable) :
    b.IsForest ∧ ∀ m : Move, m.Allowed b →
      ∃ answer b', m.run b = .ok answer b' ∧ m.Promise answer b' := by
  refine ⟨hr.atRest.isForest, fun m ha => ?_⟩
  obtain ⟨answer, b', hrun, -, hpromise⟩ := hr.atRest.move ha
  exact ⟨answer, b', hrun, hpromise⟩

/-- Two chunks at a cursor, with the operator between them. -/
def twoChunks : Bench where
  store :=
    { cells := #[⟨some (.ofText ['a'] .bare), some 1, none⟩,
        ⟨some (.ofText ['_'] .underscore), some 2, none⟩,
        ⟨some (.ofText ['b'] .bare), none, none⟩] }
  cursors := #[⟨some ⟨0, 2⟩⟩]

theorem reachable_twoChunks : twoChunks.Reachable := by
  have h0 := Reachable.start 0 1
  have h1 := h0.move (m := .append 0 ['a'] .bare) ⟨by decide, nofun⟩ rfl
  exact h1.move (m := .append 0 ['b'] .bare) ⟨by decide, nofun⟩ rfl

theorem forest_of_twoChunks : twoChunks.IsForest ∧
    ∃ answer b', (Move.settle 0).run twoChunks = .ok answer b' ∧ b'.cursors[0]? = some ⟨none⟩ :=
  have hf := forest_of_reachable reachable_twoChunks
  ⟨hf.1, hf.2 (.settle 0) (by decide : 0 < 1)⟩

end Bench

end XPathAssembly
