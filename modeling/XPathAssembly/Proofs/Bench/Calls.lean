import XPathAssembly.Collapse
import XPathAssembly.Proofs.Layout.Laid
import XPathAssembly.Proofs.Store.Forest

/-!
# What the calls of the bench do

The owners of a bench are its slots and its cursors.  Between taking a chain from one owner and
giving it to another a call has it in hand, which is an owner too.  A bench keeps the trees of its
owners if its store is a forest of them, each slot holds the head of its tree and each cursor the
ends of its line.
-/

namespace XPathAssembly

namespace Store

/-! ## Collapsing -/

variable {s : Store} {head : Option Handle} {t : Tree} {kind : Kind}

theorem link?_of_loneKind? {h : Handle} (hk : s.loneKind? (some h) = some kind) :
    s.link? .next h = none := by
  obtain ⟨g, -, hg⟩ := Option.bind_eq_some_iff.mp hk
  cases hl : s.link? .next h with
  | none => rfl
  | some k =>
    rw [hl] at hg
    cases hg

/-- Collapsing hands over the only segment of an expression, or puts its text into a new one. -/
theorem collapse_cases (ht : s.Holds head t) (hkind : kind ≠ .eos) :
    (∃ h, head = some h ∧ s.link? .next h = none ∧ collapse head kind s = .ok ⟨h, none⟩ s) ∨
    ∃ g, ∀ h s', insert g s = .ok h s' → collapse head kind s = .ok ⟨h, head⟩ s' := by
  obtain ⟨gs, he⟩ := (ht.line .next).isExpression
  have hmake : ∀ kind', ∃ g, ∀ h s', insert g s = .ok h s' →
      collapse.make head s kind' s = .ok ⟨h, head⟩ s' := by
    intro kind'
    refine ⟨.ofBytes (Layout.laid { quotes := true } gs) kind', fun h s' hi => ?_⟩
    unfold collapse.make
    rw [expression_eq he]
    show (do return ⟨← insert _, head⟩ : Call Store Collapsed) s = _
    rw [Call.bind_apply, hi]
    rfl
  have hchain := (ht.line .next).isChain
  unfold collapse
  simp only [if_neg hkind, Call.bind_apply, Call.get_apply, hchain, Bool.not_true,
    Bool.false_eq_true, if_false]
  cases head with
  | none => exact .inr (hmake kind)
  | some h =>
    cases hlone : s.loneKind? (some h) with
    | none => exact .inr (hmake kind)
    | some lone =>
      by_cases hq : lone = .quoted
      · simp only [if_pos hq]
        exact .inr (hmake .quoted)
      · simp only [if_neg hq]
        exact .inl ⟨h, rfl, link?_of_loneKind? hlone, rfl⟩

end Store

/-! ## Owners -/

/-- What owns a chain. -/
inductive Owner where
  | slot (i : Nat)
  | cursor (i : Nat)
deriving DecidableEq, Repr

namespace Bench

/-- The head of the chain of an owner. -/
def head? (b : Bench) : Owner → Option Handle
  | .slot i => b.slots[i]?.join
  | .cursor i => (b.cursors[i]?.bind Cursor.ends).map Ends.first

/-- The trees of the owners of a bench, and of `none`, what is in hand. -/
structure Keeps (b : Bench) (T : Option Owner → Tree) : Prop where
  sound : b.store.Sound
  forest : b.store.Forest T
  slot : ∀ i, (T (some (.slot i))).head? = b.slots[i]?.join
  cursor : ∀ i, (T (some (.cursor i))).ends .next = b.cursors[i]?.bind Cursor.ends

/-- The bench after what an owner holds was taken away. -/
def without (b : Bench) : Owner → Bench
  | .slot i => { b with slots := b.slots.setIfInBounds i none }
  | .cursor i => { b with cursors := b.cursors.setIfInBounds i {} }

/-- The slots with those at the numbers emptied. -/
def emptied (slots : Array Slot) : List Nat → Array Slot
  | [] => slots
  | i :: rest => emptied (slots.setIfInBounds i none) rest

/-- What the slots hold, all taken at once. -/
def takeAll : List Nat → Call Bench (List Slot)
  | [] => return []
  | i :: rest => do
    let held ← take i
    return held :: (← takeAll rest)

/-- A slot that is named twice holds nothing. -/
def NamedOnce (b : Bench) (is : List Nat) : Prop :=
  is.Pairwise fun i j => i = j → b.slots[i]?.join = none

/-! ## Lemmas -/

variable {b : Bench} {i : Nat} {is : List Nat} {d : Direction} {h : Handle} {held : Slot}

theorem getElem?_emptied (slots : Array Slot) (is : List Nat) (i : Nat) :
    (emptied slots is)[i]? = if i ∈ is then slots[i]?.map fun _ => none else slots[i]? := by
  induction is generalizing slots with
  | nil => rfl
  | cons j rest ih =>
    show (emptied (slots.setIfInBounds j none) rest)[i]? = _
    rw [ih, Array.getElem?_setIfInBounds]
    by_cases hj : j = i
    · subst hj
      by_cases hlt : j < slots.size
      · simp [hlt]
      · simp [hlt]
    · simp [hj, Ne.symm hj]

theorem getElem?_emptied_of_mem {slots : Array Slot}
    (hi : ∀ i ∈ is, i < slots.size) : ∀ i ∈ is, (emptied slots is)[i]? = some none := by
  intro i hm
  rw [getElem?_emptied, if_pos hm, Array.getElem?_eq_getElem (hi i hm)]
  rfl

theorem onStore_of_ok {α : Type} {call : Call Store α} {a : α} {s : Store}
    (hc : call b.store = .ok a s) : onStore call b = .ok a { b with store := s } := by
  unfold onStore
  rw [hc]

theorem slot_eq (hi : b.slots[i]? = some held) : slot i b = .ok held b := by
  unfold slot
  simp only [Call.bind_apply, Call.get_apply, hi, Call.pure_apply]

/-- A slot that is given back what it held is as it was. -/
theorem setIfInBounds_slots (hi : b.slots[i]? = some held) :
    b.slots.setIfInBounds i held = b.slots := by
  obtain ⟨hlt, rfl⟩ := Array.getElem?_eq_some_iff.mp hi
  unfold Array.setIfInBounds
  rw [dif_pos hlt, Array.set_getElem_self]

theorem take_eq (hi : b.slots[i]? = some held) :
    take i b = .ok held (b.without (.slot i)) := by
  unfold take
  rw [Call.bind_apply, slot_eq hi]
  rfl

theorem cursor_eq {c : Cursor} (hi : b.cursors[i]? = some c) : cursor i b = .ok c b := by
  unfold cursor
  simp only [Call.bind_apply, Call.get_apply, hi, Call.pure_apply]

theorem exists_slot (hi : i < b.slots.size) : ∃ held, b.slots[i]? = some held :=
  ⟨_, Array.getElem?_eq_getElem hi⟩

theorem exists_cursor (hi : i < b.cursors.size) : ∃ c, b.cursors[i]? = some c :=
  ⟨_, Array.getElem?_eq_getElem hi⟩

theorem namedOnce_of_nodup (hn : is.Nodup) : b.NamedOnce is :=
  List.Pairwise.imp (fun hne he => absurd he hne) hn

/-- Without what a slot holds the slots that follow are as before. -/
theorem slots_without (hn : b.NamedOnce (i :: is)) (hi : ∀ j ∈ i :: is, j < b.slots.size) :
    (∀ j ∈ is, j < (b.without (.slot i)).slots.size) ∧
      (is.map fun j => (b.without (.slot i)).slots[j]?.join) =
        (is.map fun j => b.slots[j]?.join) ∧
      (b.without (.slot i)).NamedOnce is := by
  obtain ⟨hfirst, hn⟩ := List.pairwise_cons.mp hn
  have hsame : ∀ j ∈ is, (b.without (.slot i)).slots[j]?.join = b.slots[j]?.join := by
    intro j hj
    show (b.slots.setIfInBounds i none)[j]?.join = _
    by_cases he : i = j
    · subst he
      rw [hfirst i hj rfl, Array.getElem?_setIfInBounds_self]
      split <;> rfl
    · rw [Array.getElem?_setIfInBounds_ne he]
  refine ⟨fun j hj => ?_, List.map_congr_left hsame, ?_⟩
  · show j < (b.slots.setIfInBounds i none).size
    rw [Array.size_setIfInBounds]
    exact hi j (List.mem_cons_of_mem _ hj)
  · refine hn.imp_of_mem fun hj _ hnone he => ?_
    rw [hsame _ hj]
    exact hnone he

theorem slotList_eq (hi : ∀ i ∈ is, i < b.slots.size) :
    slotList is b = .ok (is.map fun i => b.slots[i]?.join) b := by
  induction is with
  | nil => rfl
  | cons i rest ih =>
    obtain ⟨held, hheld⟩ := exists_slot (hi i List.mem_cons_self)
    unfold slotList
    rw [Call.bind_apply, slot_eq hheld]
    show (slotList rest >>= fun held' => pure (held :: held')) b = _
    rw [Call.bind_apply, ih fun i hm => hi i (List.mem_cons_of_mem _ hm), List.map_cons, hheld]
    rfl

/-- Joined one by one, the chains of the slots are joined as a list of heads is. -/
theorem joinFrom_eq {ends ends' : Option Ends} {s : Store} {heads : List Slot}
    (hn : b.NamedOnce is) (hi : ∀ i ∈ is, i < b.slots.size)
    (hh : (is.map fun i => b.slots[i]?.join) = heads)
    (hx : Store.extendAll .next ends (heads.filterMap id) b.store = .ok ends' s) :
    joinFrom ends is b = .ok ends' { b with store := s, slots := emptied b.slots is } := by
  induction is generalizing b ends heads with
  | nil =>
    subst hh
    cases hx
    rfl
  | cons i rest ih =>
    obtain ⟨held, hheld⟩ := exists_slot (hi i List.mem_cons_self)
    obtain ⟨hrest, hmap, hn⟩ := slots_without hn hi
    rw [List.map_cons, hheld] at hh
    subst hh
    unfold joinFrom
    rw [Call.bind_apply, take_eq hheld]
    cases held with
    | none =>
      exact ih hn hrest hmap hx
    | some h =>
      -- Taking looks at the slots only, and attaching at the store only.
      obtain ⟨e, s1, hext, hx⟩ := (Call.bind_eq_ok_iff _ _ _).mp hx
      show (onStore (Store.extend .next ends h) >>= fun e => joinFrom (some e) rest) _ = _
      rw [Call.bind_apply, onStore_of_ok (b := b.without (.slot i)) hext]
      exact ih hn hrest hmap hx

/-- Chains of live heads are joined as a list of heads is, and their slots are left empty. -/
theorem join_eq {ends : Option Ends} {s : Store} (hn : b.NamedOnce is)
    (hi : ∀ i ∈ is, i < b.slots.size)
    (hc : (is.map fun i => b.slots[i]?.join).all b.store.isChain = true)
    (hx : Store.extendAll .next none ((is.map fun i => b.slots[i]?.join).filterMap id) b.store =
      .ok ends s) :
    join is b = .ok (ends.map Ends.first) { b with store := s, slots := emptied b.slots is } := by
  unfold join
  rw [Call.bind_apply, slotList_eq hi]
  simp only [Call.bind_apply, Call.get_apply, hc, Bool.not_true, Bool.false_eq_true, if_false,
    joinFrom_eq hn hi rfl hx, Call.pure_apply]

theorem takeAll_eq (hn : b.NamedOnce is) (hi : ∀ i ∈ is, i < b.slots.size) :
    takeAll is b =
      .ok (is.map fun i => b.slots[i]?.join) { b with slots := emptied b.slots is } := by
  induction is generalizing b with
  | nil => rfl
  | cons i rest ih =>
    obtain ⟨held, hheld⟩ := exists_slot (hi i List.mem_cons_self)
    obtain ⟨hrest, hmap, hn⟩ := slots_without hn hi
    unfold takeAll
    rw [Call.bind_apply, take_eq hheld]
    show (takeAll rest >>= fun held' => pure (held :: held')) _ = _
    rw [Call.bind_apply, ih hn hrest, hmap, List.map_cons, hheld]
    rfl

/-- A cursor attaches one segment as a chain of one is attached. -/
theorem attach_of_extend {c : Cursor} {e : Ends} {s s' : Store} (hl : s.isLive h)
    (hx : Store.extend .next c.ends h s = .ok e s') (he : e.last = h) :
    c.attach h s = .ok ⟨some e⟩ s' := by
  unfold Cursor.attach
  rw [Store.require_bind, if_pos hl]
  obtain ⟨_ | e0⟩ := c
  · cases hx
    show EStateM.Result.ok (⟨some ⟨h, h⟩⟩ : Cursor) s = _
    rw [show s.last .next h = h from he]
    rfl
  · obtain ⟨_, _, hconnect, hx⟩ := (Call.bind_eq_ok_iff _ _ _).mp hx
    cases hx
    show (do
      Store.connect .next e0.last (some h)
      return ⟨some ⟨e0.first, h⟩⟩ : Call Store Cursor) s = _
    rw [Call.bind_apply, hconnect]
    show EStateM.Result.ok (⟨some ⟨e0.first, h⟩⟩ : Cursor) s' = _
    rw [show s'.last .next h = h from he]
    rfl

theorem attach_of_cursor {c c' : Cursor} {s : Store} (hc : b.cursors[i]? = some c)
    (hx : c.attach h b.store = .ok c' s) :
    attach i h b = .ok () { b with store := s, cursors := b.cursors.setIfInBounds i c' } := by
  unfold attach
  rw [Call.bind_apply, cursor_eq hc]
  show (onStore (c.attach h) >>= fun c => modify fun b =>
    { b with cursors := b.cursors.setIfInBounds i c }) b = _
  rw [Call.bind_apply, onStore_of_ok hx]
  rfl

theorem attach_eq {c : Cursor} {e : Ends} {s : Store} (hc : b.cursors[i]? = some c)
    (hl : b.store.isLive h) (hx : Store.extend .next c.ends h b.store = .ok e s)
    (he : e.last = h) :
    attach i h b =
      .ok () { b with store := s, cursors := b.cursors.setIfInBounds i ⟨some e⟩ } :=
  attach_of_cursor hc (attach_of_extend hl hx he)

section
variable {t : Text} {kind : Kind} {b' : Bench} {s : Store}

theorem attachNew_eq {make : Call Store Handle} (hm : make b.store = .ok h s)
    (ha : attach i h { b with store := s } = .ok () b') : attachNew i make b = .ok h b' := by
  unfold attachNew
  rw [Call.bind_apply, onStore_of_ok hm]
  show (attach i h >>= fun _ => pure h) _ = _
  rw [Call.bind_apply, ha]
  rfl

theorem attachText_eq (hkind : kind ≠ .eos)
    (hi : Store.insert (.ofText t kind) b.store = .ok h s)
    (ha : attach i h { b with store := s } = .ok () b') : attachText i t kind b = .ok h b' := by
  have hm : Store.insertText t kind b.store = .ok h s := by
    unfold Store.insertText
    rwa [if_neg hkind]
  exact attachNew_eq hm ha

theorem separate_of_none (hc : b.cursors[i]? = some ⟨none⟩) : separate i b = .ok () b := by
  unfold separate
  rw [Call.bind_apply, cursor_eq hc]
  rfl

theorem separate_of_attachText {e : Ends} {k : Handle} (hc : b.cursors[i]? = some ⟨some e⟩)
    (hlive : b.store.isLive e.last) (hlink : b.store.link? .next e.last = none)
    (ho : attachText i Cursor.operator .underscore b = .ok k b') : separate i b = .ok () b' := by
  unfold separate
  rw [Call.bind_apply, cursor_eq hc]
  simp only [Call.bind_apply, Call.get_apply, hlive, hlink, Bool.not_true, Bool.false_eq_true,
    if_false, Option.isSome_none]
  exact Call.discard_of_ok _ _ _ ho

/-- The first chunk of a cursor has no operator before it. -/
theorem append_eq_attachText (hc : b.cursors[i]? = some ⟨none⟩) :
    append i t kind b = attachText i t kind b := by
  unfold append
  rw [Call.bind_apply, separate_of_none hc]

/-- A chunk that is not the first is attached after an operator. -/
theorem append_of_attachText {e : Ends} {k : Handle} (hc : b.cursors[i]? = some ⟨some e⟩)
    (hlive : b.store.isLive e.last) (hlink : b.store.link? .next e.last = none)
    (ho : attachText i Cursor.operator .underscore b = .ok k b') :
    append i t kind b = attachText i t kind b' := by
  unfold append
  rw [Call.bind_apply, separate_of_attachText hc hlive hlink ho]

end

/-! ## Trees of the owners -/

namespace Keeps

variable {T T' : Option Owner → Tree} {o : Option Owner} {s : Store}

theorem head?_eq (hk : b.Keeps T) (o : Owner) : (T (some o)).head? = b.head? o := by
  cases o with
  | slot i => exact hk.slot i
  | cursor i =>
    show _ = (b.cursors[i]?.bind Cursor.ends).map Ends.first
    rw [← hk.cursor, Tree.map_first_ends]

theorem isChain (hk : b.Keeps T) (o : Option Owner) : b.store.isChain (T o).head? :=
  ((hk.forest.holds o).line .next).isChain

/-- A chain in hand goes into a new slot. -/
theorem addSlot (hk : b.Keeps T) : Keeps { b with slots := b.slots.push (T none).head? }
    (Store.joined T .next (some (.slot b.slots.size)) none) := by
  have hfresh : T (some (.slot b.slots.size)) = .empty := by
    rw [← Tree.head?_eq_none_iff, hk.slot, Array.getElem?_eq_none (Nat.le_refl _)]
    rfl
  refine ⟨hk.sound, hk.forest.move nofun hfresh, fun i => ?_, fun i => ?_⟩
  · show _ = (b.slots.push (T none).head?)[i]?.join
    rw [Array.getElem?_push]
    by_cases he : i = b.slots.size
    · subst he
      rw [Store.joined_of (Option.some_ne_none _), hfresh, if_pos rfl]
      rfl
    · rw [Store.joined_of_ne (by simpa using he) (Option.some_ne_none _), if_neg he]
      exact hk.slot i
  · rw [Store.joined_of_ne (by simp) (Option.some_ne_none _)]
    exact hk.cursor i

/-- The chains of slots are joined in hand, whatever the direction. -/
theorem gather (hk : b.Keeps T) (hnone : T none = .empty) (hn : is.Nodup) (d : Direction) :
    ∃ T' s, Store.extendAll d none ((is.map fun i => b.slots[i]?.join).filterMap id) b.store =
        .ok ((T' none).ends d) s ∧ Keeps { b with store := s, slots := emptied b.slots is } T' := by
  have hheads : (is.map fun i => b.slots[i]?.join).filterMap id =
      (is.map fun i => some (Owner.slot i)).filterMap fun p => (T p).head? := by
    rw [List.filterMap_map, List.filterMap_map]
    exact List.filterMap_congr fun i _ => (hk.slot i).symm
  have hos : (is.map fun i => some (Owner.slot i)).Nodup :=
    hn.map fun i j he => Owner.slot.inj (Option.some.inj he)
  obtain ⟨T', s, hrun, hf, hs, -, hempty, hkept⟩ :=
    Store.extendAll_spec (d := d) (o := none) hos hk.forest hk.sound (by simp) hheads
  rw [hnone] at hrun
  refine ⟨T', s, hrun, hs, hf, fun i => ?_, fun i => ?_⟩
  · show _ = (emptied b.slots is)[i]?.join
    rw [getElem?_emptied]
    by_cases hi : i ∈ is
    · rw [hempty _ (List.mem_map.mpr ⟨i, hi, rfl⟩), if_pos hi]
      cases b.slots[i]? <;> rfl
    · rw [hkept _ (by simpa using hi) (Option.some_ne_none _), if_neg hi]
      exact hk.slot i
  · rw [hkept _ (by simp) (Option.some_ne_none _)]
    exact hk.cursor i

/-- A new segment is in hand. -/
theorem insert (hk : b.Keeps T) (hnone : T none = .empty) (g : Segment) :
    ∃ (h : Int) (s : Store), Store.insert g b.store = .ok h s ∧ Store.Inserted b.store g h s ∧
      Keeps { b with store := s } (Function.update T none (.node h .empty .empty)) := by
  obtain ⟨h, s, hrun, hi, hs⟩ := Store.insert_spec hk.sound g
  refine ⟨h, s, hrun, hi, hs, hk.forest.inserted hi hnone, fun i => ?_, fun i => ?_⟩
  · rw [Function.update_of_ne (Option.some_ne_none _)]
    exact hk.slot i
  · rw [Function.update_of_ne (Option.some_ne_none _)]
    exact hk.cursor i

/-- An owner without a tree holds nothing, and the others hold what they held. -/
theorem without (hk : b.Keeps T) {o : Owner} (hs : s.Sound) (hf : s.Forest T')
    (ho : T' (some o) = .empty) (hkept : ∀ p, p ≠ o → T' (some p) = T (some p)) :
    Keeps { b.without o with store := s } T' := by
  refine ⟨hs, hf, fun j => ?_, fun j => ?_⟩
  · by_cases he : .slot j = o
    · subst he
      rw [ho]
      show none = (b.slots.setIfInBounds j none)[j]?.join
      rw [Array.getElem?_setIfInBounds_self]
      split <;> rfl
    · rw [hkept _ he, hk.slot]
      cases o with
      | slot i =>
        show _ = (b.slots.setIfInBounds i none)[j]?.join
        rw [Array.getElem?_setIfInBounds_ne (by rintro rfl; exact he rfl)]
      | cursor i => rfl
  · by_cases he : .cursor j = o
    · subst he
      rw [ho]
      show none = (b.cursors.setIfInBounds j {})[j]?.bind Cursor.ends
      rw [Array.getElem?_setIfInBounds_self]
      split <;> rfl
    · rw [hkept _ he, hk.cursor]
      cases o with
      | slot i => rfl
      | cursor i =>
        show _ = (b.cursors.setIfInBounds i {})[j]?.bind Cursor.ends
        rw [Array.getElem?_setIfInBounds_ne (by rintro rfl; exact he rfl)]

/-- What an owner holds is taken in hand. -/
theorem take (hk : b.Keeps T) (hnone : T none = .empty) (o : Owner) :
    (b.without o).Keeps (Store.joined T .next none (some o)) := by
  have hstore : b.without o = { b.without o with store := b.store } := by cases o <;> rfl
  rw [hstore]
  refine hk.without hk.sound (hk.forest.move (Option.some_ne_none _).symm hnone)
    Store.joined_emptied fun p hp => ?_
  exact Store.joined_of_ne (Option.some_ne_none _) (by simpa using hp)

/-- A single segment in hand is attached to the chain of a cursor. -/
theorem attach (hk : b.Keeps T) (hi : i < b.cursors.size) (ht : T none = .node h .empty .empty) :
    ∃ e s, Bench.attach i h b =
        .ok () { b with store := s, cursors := b.cursors.setIfInBounds i ⟨some e⟩ } ∧ e.last = h ∧
      Keeps { b with store := s, cursors := b.cursors.setIfInBounds i ⟨some e⟩ }
        (Store.joined T .next (some (.cursor i)) none) := by
  have hne : some (Owner.cursor i) ≠ none := Option.some_ne_none _
  obtain ⟨c, hc⟩ := exists_cursor hi
  have hends : (T (some (.cursor i))).ends .next = c.ends := by rw [hk.cursor, hc]; rfl
  obtain ⟨e, s, hext, hf, hs, he⟩ :=
    Store.extend_spec (d := .next) (h := h) hk.forest hk.sound hne (by rw [ht]; rfl)
  have hlast : e.last = h := by
    rw [ht, Tree.ends_graft rfl] at he
    exact congrArg Ends.last (Option.some.inj he).symm
  have hl : b.store.isLive h := hk.forest.isLive (o := none) (by rw [ht]; simp [Tree.handles])
  rw [hends] at hext
  refine ⟨e, s, attach_eq hc hl hext hlast, hlast, hs, hf, fun j => ?_, fun j => ?_⟩
  · rw [Store.joined_of_ne (by simp) (Option.some_ne_none _)]
    exact hk.slot j
  · show _ = (b.cursors.setIfInBounds i ⟨some e⟩)[j]?.bind Cursor.ends
    rw [Array.getElem?_setIfInBounds]
    by_cases hj : i = j
    · subst hj
      rw [Store.joined_of hne, he, if_pos rfl, if_pos hi]
      rfl
    · rw [Store.joined_of_ne (by simpa using Ne.symm hj) (Option.some_ne_none _), if_neg hj]
      exact hk.cursor j

/-- A new segment is attached to the chain of a cursor, which then ends with it. -/
theorem attachText (hk : b.Keeps T) (hnone : T none = .empty) (hi : i < b.cursors.size) (t : Text)
    {kind : Kind} (hkind : kind ≠ .eos) :
    ∃ h b' T' first, Bench.attachText i t kind b = .ok h b' ∧ b'.Keeps T' ∧ T' none = .empty ∧
      b'.cursors[i]? = some ⟨some ⟨first, h⟩⟩ := by
  obtain ⟨h, s, hrun, -, hk1⟩ := hk.insert hnone (.ofText t kind)
  obtain ⟨e, s', hattach, rfl, hk2⟩ := hk1.attach hi (Function.update_self ..)
  refine ⟨e.last, _, _, e.first, attachText_eq hkind hrun hattach, hk2, Store.joined_emptied, ?_⟩
  show (b.cursors.setIfInBounds i ⟨some e⟩)[i]? = _
  rw [Array.getElem?_setIfInBounds_self_of_lt hi]

/-- A chunk is appended to the chain of a cursor, after an operator if it is not the first. -/
theorem append (hk : b.Keeps T) (hnone : T none = .empty) (hi : i < b.cursors.size) (t : Text)
    {kind : Kind} (hkind : kind ≠ .eos) :
    ∃ h b' T' first, Bench.append i t kind b = .ok h b' ∧ b'.Keeps T' ∧ T' none = .empty ∧
      b'.cursors[i]? = some ⟨some ⟨first, h⟩⟩ := by
  obtain ⟨c, hc⟩ := exists_cursor hi
  have hends : (T (some (.cursor i))).ends .next = c.ends := by rw [hk.cursor, hc]; rfl
  obtain ⟨_ | e⟩ := c
  · rw [append_eq_attachText hc]
    exact hk.attachText hnone hi t hkind
  · have hlive : b.store.isLive e.last := hk.forest.isLive (Tree.last_mem_handles hends)
    have hlink : b.store.link? .next e.last = none := (hk.forest.holds _).link?_last hends
    obtain ⟨k, b1, T1, first, hrun, hk1, hnone1, hi1⟩ :=
      hk.attachText hnone hi Cursor.operator (nofun : Kind.underscore ≠ .eos)
    obtain ⟨hi1, -⟩ := Array.getElem?_eq_some_iff.mp hi1
    obtain ⟨h, b2, T2, first, hrun', hk2, hnone2, hi2⟩ := hk1.attachText hnone1 hi1 t hkind
    exact ⟨h, b2, T2, first, (append_of_attachText hc hlive hlink hrun).trans hrun',
      hk2, hnone2, hi2⟩

/-- What a slot holds is collapsed into one segment, which is in hand. -/
theorem collapse (hk : b.Keeps T) (hnone : T none = .empty) (hi : i < b.slots.size) {kind : Kind}
    (hkind : kind ≠ .eos) : ∃ h b' T', Bench.collapse i kind b = .ok h b' ∧ b'.Keeps T' ∧
      (T' none).head? = some h ∧ b'.store.link? .next h = none := by
  obtain ⟨held, hheld⟩ := exists_slot hi
  have hhead : (T (some (.slot i))).head? = held := by rw [hk.slot, hheld]; rfl
  unfold Bench.collapse
  rw [Call.bind_apply, slot_eq hheld]
  rcases Store.collapse_cases (hhead ▸ hk.forest.holds (some (.slot i))) hkind with
    ⟨h, rfl, hlink, hrun⟩ | ⟨g, hrun⟩
  · refine ⟨h, _, _, ?_, hk.take hnone (.slot i), ?_, hlink⟩
    · simp only [Call.bind_apply, onStore_of_ok hrun]
      rfl
    · rw [Store.joined_of (Option.some_ne_none _).symm, hnone]
      exact hhead
  · obtain ⟨h, s, hinsert, hnew, hk'⟩ := hk.insert hnone g
    refine ⟨h, _, _, ?_, hk', by rw [Function.update_self]; rfl, hnew.unlinked .next⟩
    simp only [Call.bind_apply, onStore_of_ok (hrun h s hinsert)]
    show EStateM.Result.ok h { b with store := s, slots := b.slots.setIfInBounds i held } = _
    rw [setIfInBounds_slots hheld]

/-- What a slot holds is discarded. -/
theorem discard (hk : b.Keeps T) (hi : i < b.slots.size) :
    ∃ s, (Bench.take i >>= fun head => onStore (Store.discard head)) b =
        .ok () { b.without (.slot i) with store := s } ∧
      Keeps { b.without (.slot i) with store := s }
        (Function.update T (some (.slot i)) .empty) := by
  obtain ⟨held, hheld⟩ := exists_slot hi
  have hhead : (T (some (.slot i))).head? = held := by rw [hk.slot, hheld]; rfl
  obtain ⟨s, hrun, hf, hs⟩ := Store.discard_spec hk.forest hk.sound (some (.slot i))
  rw [hhead] at hrun
  refine ⟨s, ?_, hk.without hs hf (Function.update_self ..) fun p hp => ?_⟩
  · rw [Call.bind_apply, take_eq hheld]
    exact onStore_of_ok (b := b.without (.slot i)) hrun
  · exact Function.update_of_ne (by simpa using hp) ..

end Keeps

end Bench

end XPathAssembly
