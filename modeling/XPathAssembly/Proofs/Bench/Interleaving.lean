import XPathAssembly.Proofs.Bench.Calls
import XPathAssembly.Proofs.Store.Splicing

/-!
# Cursors side by side

Expressions grow at several cursors in turn, while other chains are made and taken apart.  All of
them take their cells from one store, and a cell that one of them gives back is the next one that
another one gets.  Still each expression consists of the chunks that were appended at its cursor.

    b.Tended hss gss → the cells of all hss i are as before →
      Tended { b with store := s } hss gss                                 (Tended.of_cells)
    b.Tended hss gss → attachText i t kind b = .ok h b' →
      b'.Tended (hss with h at the end of hss i) …                       (Tended.attachText)

`Tended` is the invariant: what each cursor has grown, and no cell in two expressions.
-/

namespace XPathAssembly

namespace Store

variable {s : Store} {a : Action}

/-! ## Single actions -/

/-- The call of an action; the answer is the new segment, or where the link led that is cut. -/
def Action.run : Action → Call Store (Option Handle)
  | .insert g => some <$> Store.insert g
  | .connect d h target => do Store.connect d h target; return none
  | .cut d h => Store.cut d h
  | .remove h => do Store.remove h; return none

/-- The conditions of an action. -/
def Action.Admissible (s : Store) : Action → Prop
  | .insert _ => True
  | .connect d h target => s.isLive h ∧ ∀ k, target = some k → s.isLive k ∧ h ∉ s.walk d (some k)
  | .cut _ h => s.isLive h
  | .remove h => s.isLive h ∧ ∀ d, s.link? d h = none

/-- The segment that an action is about, if it is not a new one. -/
def Action.subject? : Action → Option Handle
  | .insert _ => none
  | .connect _ h _ | .cut _ h | .remove h => some h

/-- An action whose conditions are met runs without a fault, and leaves all segments that it is not
about as they are. -/
theorem Sound.run_admissible (hs : s.Sound) (ha : a.Admissible s) :
    ∃ answer t, a.run s = .ok answer t ∧ t.Sound ∧
      ∀ k, s.isLive k → a.subject? ≠ some k → t.cell? k = s.cell? k := by
  cases a with
  | insert g =>
    obtain ⟨h, t, hrun, hi, ht⟩ := insert_spec hs g
    exact ⟨some h, t, Call.map_of_ok _ _ _ some hrun, ht, fun k hk _ => hi.cell?_eq hk⟩
  | connect d h target =>
    obtain ⟨hl, ht⟩ := ha
    have hrun : connect d h target s = .ok () (s.withLink d h target) :=
      connect_eq_ok_iff.mpr ⟨hl, ht, rfl⟩
    refine ⟨none, _, (Call.bind_eq_ok_iff _ _ _).mpr ⟨(), _, hrun, rfl⟩, hs.withLink hl,
      fun k hk hne => ?_⟩
    exact sameOff_withLink (nonneg_of_isLive hl) k (nonneg_of_isLive hk) fun he => hne (he ▸ rfl)
  | cut d h =>
    have hl : s.isLive h := ha
    refine ⟨_, _, cut_eq_ok_iff.mpr ⟨hl, rfl, rfl⟩, hs.withLink hl, fun k hk hne => ?_⟩
    exact sameOff_withLink (nonneg_of_isLive hl) k (nonneg_of_isLive hk) fun he => hne (he ▸ rfl)
  | remove h =>
    obtain ⟨hl, hn⟩ := ha
    have hrun : remove h s = .ok () (s.vacate h) := remove_eq_ok_iff.mpr ⟨hl, hn, rfl⟩
    refine ⟨none, _, (Call.bind_eq_ok_iff _ _ _).mpr ⟨(), _, hrun, rfl⟩, hs.vacate hl hn,
      fun k hk hne => ?_⟩
    have hkh : k ≠ h := fun he => hne (he ▸ rfl)
    rw [cell?_vacate (nonneg_of_isLive hl) (nonneg_of_isLive hk), if_neg hkh]

/-- A tree is discarded without a fault, and all other segments stay as they are. -/
theorem Sound.discard_tree (hs : s.Sound) {h : Handle} (ht : s.IsTree h) :
    ∃ t, discard (some h) s = .ok () t ∧ t.Sound ∧
      ∀ k, s.isLive k → (∀ path, s.trace (some h) path ≠ some k) → t.cell? k = s.cell? k := by
  have hl : s.isLive h := ht.live [] h rfl
  obtain ⟨_, hheld, hn⟩ := isTree_iff.mp ht
  obtain ⟨t, hrun⟩ := discard_of_holds hheld hn
  obtain ⟨tree, hheld, -, hremoved⟩ := removed_of_discard hl hrun
  refine ⟨t, hrun, (rounds_discard hl).sound hs t hrun, fun k hk hne => ?_⟩
  refine hremoved.kept k (nonneg_of_isLive hk) fun hm => ?_
  obtain ⟨path, hp⟩ := Tree.mem_handles_iff.mp hm
  exact hne path ((hheld.trace_eq path).trans hp)

end Store

namespace Bench

/-! ## Deeds -/

/-- The segment is in the expression of no cursor. -/
def IsApart (b : Bench) (h : Handle) : Prop := ∀ i, h ∉ b.store.walk .next (b.head? (.cursor i))

/-- What may be done in any order: a new cursor, a chunk at a cursor, and the calls that make other
chains and take them apart. -/
inductive Deed where
  | newCursor
  | append (i : Nat) (t : Text) (kind : Kind)
  | store (a : Store.Action)
  | discard (h : Handle)

namespace Deed

def run : Deed → Call Bench (Option Handle)
  | .newCursor => do
    let _ ← addCursor
    return none
  | .append i t kind => some <$> Bench.append i t kind
  | .store a => onStore a.run
  | .discard h => do
    onStore (Store.discard (some h))
    return none

/-- Chunks may be of any kind but the terminator; all else keeps apart from the cursors. -/
def Allowed (b : Bench) : Deed → Prop
  | .newCursor => True
  | .append i _ kind => i < b.cursors.size ∧ kind ≠ .eos
  | .store a => a.Admissible b.store ∧ ∀ h, a.subject? = some h → b.IsApart h
  | .discard h => b.store.IsTree h ∧
      ∀ path k, b.store.trace (some h) path = some k → b.IsApart k

/-- The answer to a chunk is the new last segment at its cursor. -/
def Promise (answer : Option Handle) (b : Bench) : Deed → Prop
  | .append i .. => ∃ first h, answer = some h ∧ b.cursors[i]? = some ⟨some ⟨first, h⟩⟩
  | _ => True

/-- The chunk that is appended at cursor `i`. -/
def chunk? (i : Nat) : Deed → Option (Text × Kind)
  | .append j t kind => if j = i then some (t, kind) else none
  | _ => none

end Deed

/-- The chunks that were appended at cursor `i`. -/
def chunks (i : Nat) (done : List Deed) : List (Text × Kind) := done.filterMap (Deed.chunk? i)

/-- The segments of chunks, with the operator between every two. -/
def spelled (cs : List (Text × Kind)) : List Segment :=
  (cs.map fun c => .ofText c.1 c.2).intersperse (.ofText Cursor.operator .underscore)

/-- The expression of cursor `i` consists of the chunks, and the cursor knows its two ends. -/
def Grown (b : Bench) (i : Nat) (cs : List (Text × Kind)) : Prop :=
  ∃ ends hs, b.cursors[i]? = some ⟨ends⟩ ∧ b.store.Line .next (ends.map Ends.first) hs ∧
    b.store.walkFrom .next (ends.map Ends.first) = .ok hs ∧
    hs.map b.store.get? = (spelled cs).map some ∧ ends.map Ends.last = hs.getLast?

/-- The deeds, each allowed when its turn came, have led from one bench to another. -/
inductive Follows (b₀ : Bench) : List Deed → Bench → Prop
  | start : Follows b₀ [] b₀
  | step {b b' : Bench} {done : List Deed} {x : Deed} {answer : Option Handle}
    (hf : Follows b₀ done b) (ha : x.Allowed b) (hr : x.run b = .ok answer b') :
    Follows b₀ (done ++ [x]) b'

/-- The expressions of the cursors: their handles and segments, no handle in two of them. -/
structure Tended (b : Bench) (hss : Nat → List Handle) (gss : Nat → List Segment) : Prop where
  sound : b.store.Sound
  ends : ∀ i, b.cursors[i]?.bind Cursor.ends = Ends.of? (hss i)
  line : ∀ i, b.store.Line .next (hss i).head? (hss i)
  segments : ∀ i, (hss i).map b.store.get? = (gss i).map some
  unshared : ∀ i j, ∀ k ∈ hss i, k ∈ hss j → i = j

/-! ## Lemmas -/

variable {b b₀ : Bench} {hss : Nat → List Handle} {gss : Nat → List Segment} {i : Nat}
  {h : Handle} {s : Store} {t : Text} {kind : Kind} {cs : List (Text × Kind)} {x : Deed}
  {done : List Deed}

theorem chunks_concat (i : Nat) (done : List Deed) (x : Deed) :
    chunks i (done ++ [x]) = chunks i done ++ (x.chunk? i).toList := by
  unfold chunks
  rw [List.filterMap_append, List.filterMap_cons, List.filterMap_nil]
  cases x.chunk? i <;> rfl

theorem spelled_chunks_of_none (done : List Deed) (hx : ∀ i, x.chunk? i = none) :
    (fun i => spelled (chunks i (done ++ [x]))) = fun i => spelled (chunks i done) := by
  funext i
  rw [chunks_concat, hx, Option.toList_none, List.append_nil]

/-- A chunk is added where it is appended. -/
theorem spelled_chunks_append (done : List Deed) (i : Nat) (t : Text) (kind : Kind) :
    (fun j => spelled (chunks j (done ++ [.append i t kind]))) =
      Function.update (fun j => spelled (chunks j done)) i
        (spelled (chunks i done ++ [(t, kind)])) := by
  funext j
  rw [chunks_concat]
  by_cases hj : j = i
  · subst hj
    rw [Function.update_self]
    simp [Deed.chunk?]
  · rw [Function.update_of_ne hj]
    simp [Deed.chunk?, Ne.symm hj]

/-- A chunk that is not the first comes after an operator. -/
theorem spelled_concat (hcs : cs ≠ []) (c : Text × Kind) :
    spelled (cs ++ [c]) =
      spelled cs ++ [.ofText Cursor.operator .underscore] ++ [.ofText c.1 c.2] := by
  induction cs with
  | nil => exact absurd rfl hcs
  | cons c' rest ih =>
    cases rest with
    | nil => rfl
    | cons c'' rest =>
      have hrec : ∀ cs, spelled (c' :: c'' :: cs) =
          .ofText c'.1 c'.2 :: .ofText Cursor.operator .underscore :: spelled (c'' :: cs) :=
        fun _ => rfl
      rw [List.cons_append, List.cons_append, hrec, hrec, ← List.cons_append, ih (by simp)]
      rfl

theorem spelled_eq_nil_iff : spelled cs = [] ↔ cs = [] := by
  match cs with
  | [] => exact iff_of_true rfl rfl
  | [c] => exact iff_of_false nofun nofun
  | c :: c' :: rest => exact iff_of_false nofun nofun

theorem mem_update_append_iff {j : Nat} {k : Handle} :
    k ∈ Function.update hss i (hss i ++ [h]) j ↔ k ∈ hss j ∨ j = i ∧ k = h := by
  by_cases hj : j = i
  · subst hj
    simp
  · simp [hj]

namespace Tended

theorem head?_eq (ht : b.Tended hss gss) (i : Nat) : b.head? (.cursor i) = (hss i).head? := by
  show (b.cursors[i]?.bind Cursor.ends).map Ends.first = _
  rw [ht.ends, Ends.map_first_of?]

theorem isApart_iff (ht : b.Tended hss gss) : b.IsApart h ↔ ∀ i, h ∉ hss i := by
  unfold IsApart
  simp only [ht.head?_eq, (ht.line _).walk_eq]

theorem isLive (ht : b.Tended hss gss) : ∀ k ∈ hss i, b.store.isLive k := (ht.line i).isLive

theorem grown (ht : b.Tended hss gss) (hi : i < b.cursors.size) (hg : gss i = spelled cs) :
    b.Grown i cs := by
  obtain ⟨⟨ends⟩, hc⟩ := exists_cursor hi
  have hends := ht.ends i
  rw [hc] at hends
  obtain rfl : ends = Ends.of? (hss i) := hends
  have hline := ht.line i
  refine ⟨_, hss i, hc, ?_, ?_, hg ▸ ht.segments i, Ends.map_last_of? _⟩
  · rw [Ends.map_first_of?]
    exact hline
  · rw [Ends.map_first_of?]
    exact hline.walkFrom_eq

/-- What leaves the cells of the cursors as they are leaves their expressions as they are. -/
theorem of_cells (ht : b.Tended hss gss) (hs : s.Sound)
    (hc : ∀ i, ∀ k ∈ hss i, s.cell? k = b.store.cell? k) :
    Tended { b with store := s } hss gss where
  sound := hs
  ends := ht.ends
  line i := (ht.line i).congr fun k hk =>
    ⟨(Store.isLive_congr (hc i k hk)).trans (ht.isLive k hk), Store.link?_congr (hc i k hk)⟩
  segments i := by
    rw [← ht.segments i]
    exact List.map_congr_left fun k hk => Store.get?_congr (hc i k hk)
  unshared := ht.unshared

/-- One more segment at the end of one expression; its link is set where only this one ends. -/
theorem extended {g : Segment} {e : Ends} (ht : b.Tended hss gss) (hi : i < b.cursors.size)
    (hfresh : ∀ j, h ∉ hss j) (hg : b.store.get? h = some g)
    (hr : b.store.Relinked .next (hss i).getLast?.toList s)
    (hline : s.Line .next (hss i ++ [h]).head? (hss i ++ [h]))
    (hends : Ends.of? (hss i ++ [h]) = some e) :
    Tended { b with store := s, cursors := b.cursors.setIfInBounds i ⟨some e⟩ }
      (Function.update hss i (hss i ++ [h])) (Function.update gss i (gss i ++ [g])) where
  sound := hr.sound ht.sound fun k hk => ht.isLive k (Store.tail_subset _ hk)
  ends j := by
    show (b.cursors.setIfInBounds i ⟨some e⟩)[j]?.bind Cursor.ends = _
    rw [Array.getElem?_setIfInBounds]
    by_cases hj : i = j
    · subst hj
      rw [Function.update_self, hends, if_pos rfl, if_pos hi]
      rfl
    · rw [Function.update_of_ne (Ne.symm hj), if_neg hj]
      exact ht.ends j
  line j := by
    by_cases hj : j = i
    · subst hj
      rw [Function.update_self]
      exact hline
    · rw [Function.update_of_ne hj]
      exact hr.line (ht.line j) fun _ k hk hm =>
        hj (ht.unshared j i k hk (Store.tail_subset _ hm))
  segments j := by
    show (Function.update hss i _ j).map s.get? = _
    rw [funext hr.found]
    by_cases hj : j = i
    · subst hj
      rw [Function.update_self, Function.update_self, List.map_append, List.map_append,
        ht.segments, List.map_singleton, List.map_singleton, hg]
    · rw [Function.update_of_ne hj, Function.update_of_ne hj]
      exact ht.segments j
  unshared j j' k hk hk' := by
    rw [mem_update_append_iff] at hk hk'
    rcases hk with hk | ⟨rfl, rfl⟩
    · rcases hk' with hk' | ⟨rfl, rfl⟩
      · exact ht.unshared j j' k hk hk'
      · exact absurd hk (hfresh j)
    · rcases hk' with hk' | ⟨rfl, -⟩
      · exact absurd hk' (hfresh j')
      · rfl

/-- A new segment is attached to the expression of one cursor. -/
theorem attachText (ht : b.Tended hss gss) (hi : i < b.cursors.size) (t : Text)
    (hkind : kind ≠ .eos) : ∃ h b' first, Bench.attachText i t kind b = .ok h b' ∧
      b'.cursors[i]? = some ⟨some ⟨first, h⟩⟩ ∧
      b'.Tended (Function.update hss i (hss i ++ [h]))
        (Function.update gss i (gss i ++ [.ofText t kind])) := by
  obtain ⟨⟨ends⟩, hc⟩ := exists_cursor hi
  obtain rfl : ends = Ends.of? (hss i) := by
    have hends := ht.ends i
    rwa [hc] at hends
  obtain ⟨h, s1, hinsert, hnew, hs1⟩ := Store.insert_spec ht.sound (.ofText t kind)
  have hfresh : ∀ j, h ∉ hss j := fun _ hm => hnew.ne_of_isLive (ht.isLive h hm) rfl
  -- The cell may have been in use before, but not in an expression that is growing.
  have ht1 : Tended { b with store := s1 } hss gss :=
    ht.of_cells hs1 fun _ k hk => hnew.cell?_eq (ht.isLive k hk)
  have hline : s1.Line .next (some h) [h] := ⟨rfl, hnew.isLive, hnew.unlinked .next⟩
  have hn : (hss i ++ [h]).Nodup :=
    List.Nodup.append (ht1.line i).nodup (List.nodup_singleton h) (by simpa using hfresh i)
  obtain ⟨e, s2, hext, hends, hline2, hr⟩ := Store.extend_line (ht1.line i) hline hn
  obtain rfl : e.last = h := by
    rw [Ends.of?_append_cons] at hends
    exact congrArg Ends.last (Option.some.inj hends).symm
  exact ⟨e.last, _, e.first,
    attachText_eq hkind hinsert (attach_eq hc hnew.isLive hext rfl),
    Array.getElem?_setIfInBounds_self_of_lt hi,
    ht1.extended hi hfresh hnew.found hr hline2 hends⟩

/-- A chunk is appended to the expression of one cursor, and the cursor ends with it. -/
theorem append (ht : b.Tended hss gss) (hi : i < b.cursors.size) (hg : gss i = spelled cs)
    (t : Text) (hkind : kind ≠ .eos) : ∃ h b' hss', Bench.append i t kind b = .ok h b' ∧
      b'.Tended hss' (Function.update gss i (spelled (cs ++ [(t, kind)]))) ∧
      (Deed.append i t kind).Promise (some h) b' := by
  obtain ⟨⟨ends⟩, hc⟩ := exists_cursor hi
  have hends : ends = Ends.of? (hss i) := by
    have hends := ht.ends i
    rwa [hc] at hends
  have hlength : (hss i).length = (spelled cs).length := by
    have hlength := congrArg List.length (ht.segments i)
    rwa [List.length_map, List.length_map, hg] at hlength
  cases ends with
  | none =>
    have hnil : hss i = [] := List.head?_eq_none_iff.mp (Option.map_eq_none_iff.mp hends.symm)
    obtain rfl : cs = [] :=
      spelled_eq_nil_iff.mp (List.length_eq_zero_iff.mp (by rw [← hlength, hnil]; rfl))
    obtain ⟨h, b', first, hrun, hlast, ht'⟩ := ht.attachText hi t hkind
    rw [hg] at ht'
    exact ⟨h, b', _, (append_eq_attachText hc).trans hrun, ht', first, h, rfl, hlast⟩
  | some e =>
    have hlast : (hss i).getLast? = some e.last := by
      rw [← Ends.map_last_of?, ← hends]
      rfl
    have hcs : cs ≠ [] := by
      rintro rfl
      rw [List.length_eq_zero_iff.mp hlength] at hlast
      cases hlast
    have hlive := ht.isLive e.last (List.mem_of_getLast? hlast)
    have hlink := (ht.line i).link?_of_getLast? hlast
    obtain ⟨k, b1, first1, hrun1, hc1, ht1⟩ :=
      ht.attachText hi Cursor.operator (nofun : Kind.underscore ≠ .eos)
    obtain ⟨hi1, -⟩ := Array.getElem?_eq_some_iff.mp hc1
    obtain ⟨h, b2, first, hrun2, hc2, ht2⟩ := ht1.attachText hi1 t hkind
    rw [Function.update_idem, Function.update_self, Function.update_idem, Function.update_self, hg,
      ← spelled_concat hcs (t, kind)] at ht2
    exact ⟨h, b2, _, (append_of_attachText hc hlive hlink hrun1).trans hrun2, ht2,
      first, h, rfl, hc2⟩

/-- A cursor without an expression changes none. -/
theorem newCursor (ht : b.Tended hss gss) :
    Tended { b with cursors := b.cursors.push {} } hss gss where
  sound := ht.sound
  ends i := by
    show (b.cursors.push {})[i]?.bind Cursor.ends = _
    rw [← ht.ends, Array.getElem?_push]
    by_cases hi : i = b.cursors.size
    · rw [if_pos hi, hi, Array.getElem?_eq_none (Nat.le_refl _)]
      rfl
    · rw [if_neg hi]
  line := ht.line
  segments := ht.segments
  unshared := ht.unshared

/-- An allowed deed meets no fault, and at each cursor there is what was appended there. -/
theorem step (ht : b.Tended hss fun i => spelled (chunks i done)) (ha : x.Allowed b) :
    ∃ answer b' hss', x.run b = .ok answer b' ∧ x.Promise answer b' ∧
      b'.Tended hss' fun i => spelled (chunks i (done ++ [x])) := by
  cases x with
  | newCursor =>
    rw [spelled_chunks_of_none done (x := .newCursor) fun _ => rfl]
    exact ⟨none, _, hss, rfl, trivial, ht.newCursor⟩
  | append i t kind =>
    obtain ⟨h, b', hss', hrun, ht', hpromise⟩ := ht.append ha.1 rfl t ha.2
    rw [spelled_chunks_append]
    exact ⟨some h, b', hss', Call.map_of_ok _ _ _ some hrun, hpromise, ht'⟩
  | store a =>
    rw [spelled_chunks_of_none done (x := .store a) fun _ => rfl]
    obtain ⟨hadmissible, hapart⟩ := ha
    obtain ⟨answer, s, hrun, hs, hkept⟩ := ht.sound.run_admissible hadmissible
    refine ⟨answer, _, hss, onStore_of_ok hrun, trivial, ht.of_cells hs fun i k hk => ?_⟩
    exact hkept k (ht.isLive k hk) fun he => ht.isApart_iff.mp (hapart k he) i hk
  | discard h =>
    rw [spelled_chunks_of_none done (x := .discard h) fun _ => rfl]
    obtain ⟨htree, hapart⟩ := ha
    obtain ⟨s, hrun, hs, hkept⟩ := ht.sound.discard_tree htree
    refine ⟨none, _, hss, (Call.bind_eq_ok_iff _ _ _).mpr ⟨(), _, onStore_of_ok hrun, rfl⟩, trivial,
      ht.of_cells hs fun i k hk => ?_⟩
    exact hkept k (ht.isLive k hk) fun path hp => ht.isApart_iff.mp (hapart path k hp) i hk

end Tended

/-! ## Interleavings -/

/-- Cursors without expressions are tended. -/
theorem tended_start (hs : b₀.store.Sound) (hc : ∀ c ∈ b₀.cursors, c = {}) :
    b₀.Tended (fun _ => []) fun i => spelled (chunks i []) where
  sound := hs
  ends i := by
    cases hi : b₀.cursors[i]? with
    | none => rfl
    | some c =>
      obtain rfl := hc c (Array.mem_of_getElem? hi)
      rfl
  line _ := rfl
  segments _ := rfl
  unshared _ _ _ hk := nomatch hk

theorem Follows.tended (hf : Follows b₀ done b) (hs : b₀.store.Sound)
    (hc : ∀ c ∈ b₀.cursors, c = {}) :
    ∃ hss, b.Tended hss fun i => spelled (chunks i done) := by
  induction hf with
  | start => exact ⟨_, tended_start hs hc⟩
  | step _ ha hr ih =>
    obtain ⟨hss, ht⟩ := ih
    obtain ⟨answer, b', hss', hrun, -, ht'⟩ := ht.step ha
    rw [hr] at hrun
    cases hrun
    exact ⟨hss', ht'⟩

/-- **Cursors do not disturb each other.**  However chunks at any number of cursors and calls on
other chains follow one another, no call that is allowed meets a fault; and after each of them every
cursor has the chunks appended there, in order, with one operator between every two, and ends with
the last one. -/
theorem grown_of_follows (hs : b₀.store.Reachable) (hc : ∀ c ∈ b₀.cursors, c = {})
    (hf : Follows b₀ done b) :
    (∀ x : Deed, x.Allowed b → ∃ answer b', x.run b = .ok answer b' ∧ x.Promise answer b') ∧
    ∀ i < b.cursors.size, b.Grown i (chunks i done) := by
  obtain ⟨hss, ht⟩ := hf.tended hs.sound hc
  constructor
  · intro x ha
    obtain ⟨answer, b', -, hrun, hpromise, -⟩ := ht.step ha
    exact ⟨answer, b', hrun, hpromise⟩
  · exact fun i hi => ht.grown hi rfl

/-- A chunk at each of two cursors, and a chain of one segment beside them. -/
def beside : Bench where
  store :=
    { cells := #[⟨some (.ofText ['x'] .bare), none, none⟩,
        ⟨some (.ofText ['a'] .bare), none, none⟩, ⟨some (.ofText ['b'] .quoted), none, none⟩] }
  cursors := #[⟨some ⟨1, 1⟩⟩, ⟨some ⟨2, 2⟩⟩]

/-- The chain is discarded, and its cell gets the operator before the next chunk. -/
def reusing : Bench where
  store :=
    { cells := #[⟨some (.ofText ['_'] .underscore), some 3, none⟩,
        ⟨some (.ofText ['a'] .bare), some 0, none⟩, ⟨some (.ofText ['b'] .quoted), none, none⟩,
        ⟨some (.ofText ['c'] .bare), none, none⟩] }
  cursors := #[⟨some ⟨1, 3⟩⟩, ⟨some ⟨2, 2⟩⟩]

theorem allowed_discard_beside : (Deed.discard 0).Allowed beside := by
  have hheld : beside.store.Holds (some 0) (.node 0 .empty .empty) := ⟨rfl, rfl, rfl, rfl⟩
  have hapart : beside.IsApart 0
    | 0 | 1 => by decide
    | _ + 2 => nofun
  refine ⟨Store.isTree_iff.mpr ⟨_, hheld, List.nodup_singleton 0⟩, fun path k hp => ?_⟩
  rw [hheld.trace_eq] at hp
  obtain rfl : k = 0 := List.mem_singleton.mp (Tree.mem_handles_iff.mpr ⟨path, hp⟩)
  exact hapart

/-- The deeds that lead to `reusing`. -/
def reuse : List Deed :=
  [.store (.insert (.ofText ['x'] .bare)), .append 0 ['a'] .bare, .append 1 ['b'] .quoted,
    .discard 0, .append 0 ['c'] .bare]

theorem follows_reuse : Follows { cursors := #[{}, {}] } reuse reusing := by
  have hinsert : (Deed.store (.insert (.ofText ['x'] .bare))).Allowed { cursors := #[{}, {}] } :=
    ⟨trivial, nofun⟩
  have hchunk := (Follows.start.step hinsert rfl).step (x := .append 0 ['a'] .bare)
    ⟨by decide, nofun⟩ rfl
  have hbeside : Follows { cursors := #[{}, {}] } (reuse.take 3) beside :=
    hchunk.step (x := .append 1 ['b'] .quoted) ⟨by decide, nofun⟩ rfl
  exact (hbeside.step allowed_discard_beside rfl).step (x := .append 0 ['c'] .bare)
    ⟨by decide, nofun⟩ rfl

theorem grown_reusing : Follows { cursors := #[{}, {}] } reuse reusing ∧
    reusing.Grown 0 [(['a'], .bare), (['c'], .bare)] ∧ reusing.Grown 1 [(['b'], .quoted)] ∧
    ∃ answer b', (Deed.append 1 ['d'] .bare).run reusing = .ok answer b' ∧
      (Deed.append 1 ['d'] .bare).Promise answer b' := by
  have hempty : Store.Reachable {} := Relation.ReflTransGen.refl
  obtain ⟨hruns, hgrown⟩ := grown_of_follows hempty (by decide) follows_reuse
  exact ⟨follows_reuse, hgrown 0 (by decide), hgrown 1 (by decide), hruns _ ⟨by decide, nofun⟩⟩

end Bench

end XPathAssembly
