import XPathAssembly.Proofs.Bench.Calls
import XPathAssembly.Proofs.Store.Splicing

/-!
# Refused chunks

A chunk is refused if it is a terminator or cannot be encoded, and this is found out only after the
operator before it has been attached.  So a refused chunk leaves nothing at a cursor without an
expression, and an operator at any other one; the next chunk then comes after two of them.

    b.IsOpen i ends → appendPoints i points kind b = .error f b' →
      (b' = b ↔ ends = none) ∧ …                                  (refused_interrupted)

`IsOpen` is what has to hold of a cursor before a chunk is appended.  It says nothing of the
segments before the last one; `Shows` does.
-/

namespace XPathAssembly

/-- The segment of the operator between two chunks. -/
def Segment.operator : Segment := .ofText Cursor.operator .underscore

namespace Store

/-! ## One more segment -/

/-- The store with a link from the last of the ends, if there are any, to `h`. -/
def linkedAfter (s : Store) (ends : Option Ends) (h : Handle) : Store :=
  match ends with
  | none => s
  | some e => s.withLink .next e.last (some h)

section
variable {s : Store} {ends : Option Ends} {h : Handle} {hs : List Handle}

theorem relinked_linkedAfter (hl : ∀ e, ends = some e → s.isLive e.last ∧ e.last ≠ h) :
    s.Relinked .next (ends.map Ends.last).toList (s.linkedAfter ends h) := by
  cases ends with
  | none => exact .refl s .next _
  | some e => exact relinked_withLink (hl e rfl).1 List.mem_cons_self

/-- A segment without a next link is attached wherever it is not the last one already. -/
theorem attach_linkedAfter (hh : s.Line .next (some h) [h])
    (hl : ∀ e, ends = some e → s.isLive e.last ∧ e.last ≠ h) :
    Cursor.attach ⟨ends⟩ h s =
      .ok ⟨some ⟨(ends.map Ends.first).getD h, h⟩⟩ (s.linkedAfter ends h) := by
  have hlive : s.isLive h := hh.isLive h List.mem_cons_self
  unfold Cursor.attach
  rw [require_bind, if_pos hlive]
  cases ends with
  | none => rfl
  | some e =>
    obtain ⟨hlast, hne⟩ := hl e rfl
    have hconnect : connect .next e.last (some h) s = .ok () (s.linkedAfter (some e) h) := by
      refine connect_eq_ok_iff.mpr ⟨hlast, ?_, rfl⟩
      rintro _ ⟨⟩
      rw [hh.walk_eq, List.mem_singleton]
      exact ⟨hlive, hne⟩
    show (do
      connect .next e.last (some h)
      return ⟨some ⟨e.first, h⟩⟩ : Call Store Cursor) s = _
    rw [Call.bind_apply, hconnect]
    rfl

theorem Line.linkedAfter (hl : s.Line .next hs.head? hs) (hh : s.Line .next (some h) [h])
    (hn : h ∉ hs) : (s.linkedAfter (Ends.of? hs) h).Line .next (hs ++ [h]).head? (hs ++ [h]) := by
  cases hs with
  | nil => exact hh
  | cons k rest =>
    have hlast : (k :: rest).getLast? = some ((k :: rest).getLastD k) := by
      rw [List.getLastD_eq_getLast?, List.getLast?_cons]
      rfl
    exact hl.splice hlast hh (by simpa using hn)

end

/-! ## Segments of any text -/

/-- A segment is made of a text that can be encoded, and of any kind but a terminator. -/
def IsChunk (points : List Point) (kind : Kind) : Prop :=
  kind ≠ .eos ∧ ∃ t, Point.toText? points = .ok t

theorem insertPoints_of_isChunk {points : List Point} {kind : Kind} (hc : IsChunk points kind) :
    ∃ t, insertPoints points kind = insert (.ofText t kind) := by
  obtain ⟨hkind, t, ht⟩ := hc
  refine ⟨t, ?_⟩
  unfold insertPoints
  rw [ht]
  exact if_neg hkind

/-- The making of a segment is refused before the store is changed. -/
theorem insertPoints_of_not_isChunk {points : List Point} {kind : Kind}
    (hc : ¬ IsChunk points kind) : ∃ f, ∀ s, insertPoints points kind s = .error f s := by
  unfold insertPoints
  cases ht : Point.toText? points with
  | error index => exact ⟨if kind = .eos then .terminator else .encoding index, fun _ => rfl⟩
  | ok t =>
    have hkind : kind = .eos := by
      by_contra hkind
      exact hc ⟨hkind, t, ht⟩
    refine ⟨.terminator, fun s => ?_⟩
    show insertText t kind s = _
    unfold insertText
    rw [if_pos hkind]
    rfl

end Store

namespace Bench

open Store

/-- A chunk can be appended at the cursor, which has these ends: its last segment is live and has no
next link. -/
structure IsOpen (b : Bench) (i : Nat) (ends : Option Ends) : Prop where
  cursor : b.cursors[i]? = some ⟨ends⟩
  last : ∀ e, ends = some e → b.store.isLive e.last ∧ b.store.link? .next e.last = none

/-- The expression of the cursor consists of the segments. -/
def Shows (b : Bench) (i : Nat) (gs : List Segment) : Prop :=
  ∃ hs, b.cursors[i]? = some ⟨Ends.of? hs⟩ ∧ b.store.Line .next hs.head? hs ∧
    hs.map b.store.get? = gs.map some

/-- The segments and one more, with `n` operators before it if it is not the first. -/
def followed (gs : List Segment) (n : Nat) (g : Segment) : List Segment :=
  if gs = [] then [g] else gs ++ List.replicate n .operator ++ [g]

/-- The bench with the segment `h` after the last one at a cursor with these ends. -/
def attached (b : Bench) (i : Nat) (ends : Option Ends) (h : Handle) : Bench :=
  { b with
    store := b.store.linkedAfter ends h
    cursors := b.cursors.setIfInBounds i ⟨some ⟨(ends.map Ends.first).getD h, h⟩⟩ }

/-! ## Open cursors -/

variable {b b' : Bench} {i : Nat} {ends : Option Ends} {t : Text} {kind : Kind} {gs : List Segment}
  {g : Segment} {h : Handle} {s : Store}

theorem IsOpen.ends_eq {ends' : Option Ends} (ho : b.IsOpen i ends)
    (hc : b.cursors[i]? = some ⟨ends'⟩) : ends = ends' := by
  rw [ho.cursor] at hc
  exact congrArg Cursor.ends (Option.some.inj hc)

theorem Shows.ends_eq_none_iff (hsh : b.Shows i gs) (ho : b.IsOpen i ends) :
    ends = none ↔ gs = [] := by
  obtain ⟨hs, hc, -, hg⟩ := hsh
  obtain rfl := ho.ends_eq hc
  have hlength : hs.length = gs.length := by simpa using congrArg List.length hg
  rw [← Option.map_eq_none_iff, Ends.map_first_of?, List.head?_eq_none_iff,
    ← List.length_eq_zero_iff, hlength, List.length_eq_zero_iff]

theorem Shows.isOpen (hsh : b.Shows i gs) : ∃ ends, b.IsOpen i ends := by
  obtain ⟨hs, hc, hline, -⟩ := hsh
  refine ⟨Ends.of? hs, hc, fun e he => ?_⟩
  have hlast : hs.getLast? = some e.last := by
    rw [← Ends.map_last_of?, he]
    rfl
  exact ⟨hline.isLive e.last (List.mem_of_getLast? hlast), hline.link?_of_getLast? hlast⟩

/-- The last segment stays the last one while a new one is made. -/
theorem IsOpen.last_of_inserted (ho : b.IsOpen i ends) (hi : Inserted b.store g h s) :
    ∀ e, ends = some e → s.isLive e.last ∧ e.last ≠ h := by
  intro e he
  have hlive := (ho.last e he).1
  exact ⟨(isLive_congr (hi.cell?_eq hlive)).trans hlive, hi.ne_of_isLive hlive⟩

theorem getElem?_attached (ho : b.IsOpen i ends) (s : Store) :
    (attached { b with store := s } i ends h).cursors[i]? =
      some ⟨some ⟨(ends.map Ends.first).getD h, h⟩⟩ := by
  obtain ⟨hi, -⟩ := Array.getElem?_eq_some_iff.mp ho.cursor
  exact Array.getElem?_setIfInBounds_self_of_lt hi

/-- With the new segment attached the cursor is open again. -/
theorem IsOpen.attached (ho : b.IsOpen i ends) (hi : Inserted b.store g h s) :
    (attached { b with store := s } i ends h).IsOpen i
      (some ⟨(ends.map Ends.first).getD h, h⟩) := by
  have hlast := ho.last_of_inserted hi
  have hr := relinked_linkedAfter hlast
  refine ⟨getElem?_attached ho s, ?_⟩
  rintro _ ⟨⟩
  refine ⟨(hr.isLive h).trans hi.isLive, ?_⟩
  have hnot : h ∉ (ends.map Ends.last).toList := by
    intro hm
    obtain ⟨e, he, hh⟩ := Option.map_eq_some_iff.mp (Option.mem_toList.mp hm)
    exact (hlast e he).2 hh
  exact (hr.kept .next h (nonneg_of_isLive hi.isLive) fun _ => hnot).trans (hi.unlinked .next)

/-- With the new segment attached the expression ends with it. -/
theorem Shows.attached (hsh : b.Shows i gs) (ho : b.IsOpen i ends) (hi : Inserted b.store g h s) :
    (attached { b with store := s } i ends h).Shows i (gs ++ [g]) := by
  have hr := relinked_linkedAfter (ho.last_of_inserted hi)
  obtain ⟨hs, hc, hline, hg⟩ := hsh
  obtain rfl := ho.ends_eq hc
  have hcell : ∀ k ∈ hs, s.cell? k = b.store.cell? k := fun k hk =>
    hi.cell?_eq (hline.isLive k hk)
  have hline' : s.Line .next hs.head? hs := hline.congr fun k hk =>
    ⟨(isLive_congr (hcell k hk)).trans (hline.isLive k hk), link?_congr (hcell k hk)⟩
  have hnew : s.Line .next (some h) [h] := ⟨rfl, hi.isLive, hi.unlinked .next⟩
  refine ⟨hs ++ [h], ?_, hline'.linkedAfter hnew ?_, ?_⟩
  · rw [Ends.of?_append_cons, ← Ends.map_first_of?]
    exact getElem?_attached ho s
  · exact fun hm => hi.ne_of_isLive (hline.isLive h hm) rfl
  · show (hs ++ [h]).map (s.linkedAfter _ h).get? = _
    rw [funext hr.found, List.map_append, List.map_append, ← hg, List.map_singleton, hi.found,
      List.map_congr_left fun k hk => get?_congr (hcell k hk)]
    rfl

/-- At an open cursor a new segment is attached without a fault. -/
theorem IsOpen.attach_eq (ho : b.IsOpen i ends) (hi : Inserted b.store g h s) :
    attach i h { b with store := s } = .ok () (Bench.attached { b with store := s } i ends h) := by
  have hnew : s.Line .next (some h) [h] := ⟨rfl, hi.isLive, hi.unlinked .next⟩
  exact attach_of_cursor ho.cursor (attach_linkedAfter hnew (ho.last_of_inserted hi))

theorem IsOpen.sound_attached (ho : b.IsOpen i ends) (hi : Inserted b.store g h s)
    (hs : s.Sound) : (Bench.attached { b with store := s } i ends h).store.Sound := by
  have hlast := ho.last_of_inserted hi
  refine (relinked_linkedAfter hlast).sound hs fun k hk => ?_
  obtain ⟨e, he, rfl⟩ := Option.map_eq_some_iff.mp (Option.mem_toList.mp hk)
  exact (hlast e he).1

/-! ## Chunks at open cursors -/

/-- A segment more at a cursor: one more is live, and the expression ends with it. -/
structure Extended (b : Bench) (i : Nat) (ends : Option Ends) (g : Segment) (h : Handle)
    (b' : Bench) : Prop where
  sound : b'.store.Sound
  isOpen : b'.IsOpen i (some ⟨(ends.map Ends.first).getD h, h⟩)
  size : b'.store.size = b.store.size + 1
  shows : ∀ gs, b.Shows i gs → b'.Shows i (gs ++ [g])

/-- Whatever makes the segment, it is attached without a fault. -/
theorem IsOpen.extended (ho : b.IsOpen i ends) (hs : b.store.Sound) (g : Segment) :
    ∃ h s b', insert g b.store = .ok h s ∧ attach i h { b with store := s } = .ok () b' ∧
      b.Extended i ends g h b' := by
  obtain ⟨h, s, hinsert, hi, hsound⟩ := insert_spec hs g
  have hr := relinked_linkedAfter (ho.last_of_inserted hi)
  exact ⟨h, s, _, hinsert, ho.attach_eq hi, ho.sound_attached hi hsound, ho.attached hi,
    hr.size.trans (size_of_insert hs hinsert), fun gs hsh => hsh.attached ho hi⟩

theorem IsOpen.attachText (ho : b.IsOpen i ends) (hs : b.store.Sound) (t : Text)
    (hkind : kind ≠ .eos) : ∃ h b', Bench.attachText i t kind b = .ok h b' ∧
      b.Extended i ends (.ofText t kind) h b' := by
  obtain ⟨h, s, b', hinsert, hattach, hb'⟩ := ho.extended hs (.ofText t kind)
  exact ⟨h, b', attachText_eq hkind hinsert hattach, hb'⟩

/-- Before a chunk nothing happens at a cursor without an expression, and at any other one an
operator is attached. -/
theorem IsOpen.separate (ho : b.IsOpen i ends) (hs : b.store.Sound) :
    (ends = none ∧ Bench.separate i b = .ok () b) ∨
    ∃ e k b', ends = some e ∧ Bench.separate i b = .ok () b' ∧
      Bench.attachText i Cursor.operator .underscore b = .ok k b' ∧
      b.Extended i ends .operator k b' := by
  cases ends with
  | none => exact .inl ⟨rfl, separate_of_none ho.cursor⟩
  | some e =>
    obtain ⟨hlive, hlink⟩ := ho.last e rfl
    obtain ⟨k, b', hrun, hb'⟩ :=
      ho.attachText hs Cursor.operator (nofun : Kind.underscore ≠ .eos)
    exact .inr ⟨e, k, b', rfl, separate_of_attachText ho.cursor hlive hlink hrun, hrun, hb'⟩

/-! ## Refusals -/

theorem onStore_of_error {α : Type} {call : Call Store α} {f : Fault} {s : Store}
    (hc : call b.store = .error f s) : onStore call b = .error f { b with store := s } := by
  unfold onStore
  rw [hc]

/-- The operator is attached before it is known whether the chunk is accepted. -/
theorem appendPoints_of_separate {points : List Point} (hsep : separate i b = .ok () b')
    (ho : b'.IsOpen i ends) (hs : b'.store.Sound) :
    (IsChunk points kind → ∃ h b'', appendPoints i points kind b = .ok h b'') ∧
    (¬ IsChunk points kind → ∃ f, appendPoints i points kind b = .error f b') := by
  have hrest : appendPoints i points kind b = attachNew i (insertPoints points kind) b' := by
    unfold appendPoints
    rw [Call.bind_apply, hsep]
  rw [hrest]
  constructor
  · intro hc
    obtain ⟨t, ht⟩ := insertPoints_of_isChunk hc
    obtain ⟨h, s, b'', hinsert, hattach, -⟩ := ho.extended hs (.ofText t kind)
    refine ⟨h, b'', attachNew_eq ?_ hattach⟩
    rwa [ht]
  · intro hc
    obtain ⟨f, hf⟩ := insertPoints_of_not_isChunk hc
    refine ⟨f, ?_⟩
    unfold attachNew
    rw [Call.bind_apply, onStore_of_error (hf _)]

theorem followed_operator (hgs : gs ≠ []) (n : Nat) (g : Segment) :
    followed (gs ++ [.operator]) n g = followed gs (n + 1) g := by
  unfold followed
  rw [if_neg (List.append_ne_nil_of_left_ne_nil hgs _), if_neg hgs, List.replicate_succ]
  simp

/-- A number of operators too many shows, except before the first chunk. -/
theorem followed_eq_iff {m n : Nat} : followed gs m g = followed gs n g ↔ gs = [] ∨ m = n := by
  unfold followed
  by_cases hgs : gs = []
  · simp [hgs]
  · rw [if_neg hgs, if_neg hgs, or_iff_right hgs]
    refine ⟨fun he => ?_, fun he => by rw [he]⟩
    have hlength := congrArg List.length he
    simp only [List.length_append, List.length_replicate, List.length_singleton] at hlength
    omega

/-- An encodable chunk comes after one operator. -/
theorem Shows.append (hsh : b.Shows i gs) (hs : b.store.Sound) (t : Text) (hkind : kind ≠ .eos) :
    ∃ h b', Bench.append i t kind b = .ok h b' ∧
      b'.Shows i (followed gs 1 (.ofText t kind)) := by
  obtain ⟨ends, ho⟩ := hsh.isOpen
  have hnil := hsh.ends_eq_none_iff ho
  rcases ho.separate hs with ⟨rfl, -⟩ | ⟨e, k, b₁, rfl, hsep, -, hb₁⟩
  · obtain rfl := hnil.mp rfl
    obtain ⟨h, b', hrun, hb'⟩ := ho.attachText hs t hkind
    exact ⟨h, b', (append_eq_attachText ho.cursor).trans hrun, hb'.shows [] hsh⟩
  · have hgs : gs ≠ [] := fun he => nomatch hnil.mpr he
    obtain ⟨h, b', hrun, hb'⟩ := hb₁.isOpen.attachText hb₁.sound t hkind
    refine ⟨h, b', ?_, ?_⟩
    · unfold Bench.append
      rw [Call.bind_apply, hsep]
      exact hrun
    · unfold followed
      rw [if_neg hgs]
      exact hb'.shows _ (hb₁.shows gs hsh)

/-- What is left of a bench if the chunk after the operator is refused: nothing was changed if the
cursor has no expression yet; otherwise one more segment is live, the operator, and the next chunk
comes after two operators instead of one. -/
structure Interrupted (b : Bench) (i : Nat) (ends : Option Ends) (b' : Bench) : Prop where
  unchanged : b' = b ↔ ends = none
  operator : ∀ e, ends = some e → ∃ k, attachText i Cursor.operator .underscore b = .ok k b' ∧
    b'.cursors[i]? = some ⟨some ⟨e.first, k⟩⟩ ∧ b'.store.size = b.store.size + 1
  later : ∀ gs, b.Shows i gs → ∀ t kind, kind ≠ .eos → ∃ h₁ b₁ h₂ b₂,
    append i t kind b = .ok h₁ b₁ ∧ b₁.Shows i (followed gs 1 (.ofText t kind)) ∧
    append i t kind b' = .ok h₂ b₂ ∧ b₂.Shows i (followed gs 2 (.ofText t kind)) ∧
    (followed gs 2 (.ofText t kind) = followed gs 1 (.ofText t kind) ↔ ends = none)

theorem interrupted_of_separate (ho : b.IsOpen i ends) (hs : b.store.Sound)
    (hsep : Bench.separate i b = .ok () b') : b.Interrupted i ends b' := by
  have hnil : ∀ {gs}, b.Shows i gs → ∀ g, followed gs 2 g = followed gs 1 g ↔ ends = none := by
    intro gs hsh g
    rw [followed_eq_iff, hsh.ends_eq_none_iff ho]
    simp
  rcases ho.separate hs with ⟨rfl, hrun⟩ | ⟨e, k, b₁, rfl, hrun, hattach, hb₁⟩
  · rw [hrun] at hsep
    cases hsep
    refine ⟨iff_of_true rfl rfl, nofun, fun gs hsh t kind hkind => ?_⟩
    obtain ⟨h, b₁, happend, hb₁⟩ := hsh.append hs t hkind
    exact ⟨h, b₁, h, b₁, happend, hb₁, happend, ((hnil hsh _).mpr rfl) ▸ hb₁, hnil hsh _⟩
  · rw [hrun] at hsep
    cases hsep
    refine ⟨iff_of_false (fun he => ?_) nofun, ?_, fun gs hsh t kind hkind => ?_⟩
    · have hsize := hb₁.size
      rw [he] at hsize
      omega
    · rintro _ ⟨⟩
      exact ⟨k, hattach, hb₁.isOpen.cursor, hb₁.size⟩
    · have hgs : gs ≠ [] := fun he => nomatch (hsh.ends_eq_none_iff ho).mpr he
      obtain ⟨h₁, b₂, happend, hb₂⟩ := hsh.append hs t hkind
      obtain ⟨h₂, b₃, happend', hb₃⟩ := (hb₁.shows gs hsh).append hb₁.sound t hkind
      rw [followed_operator hgs] at hb₃
      exact ⟨h₁, b₂, h₂, b₃, happend, hb₂, happend', hb₃, hnil hsh _⟩

/-- **What a refused chunk leaves.**  At an open cursor exactly the chunks of encodable texts that
are no terminators are accepted, and the call that refuses a chunk has changed nothing if and only
if the cursor has no expression yet: otherwise it leaves an operator. -/
theorem refused_interrupted (hr : b.store.Reachable) (ho : b.IsOpen i ends) (points : List Point)
    (kind : Kind) :
    ((∃ h b', appendPoints i points kind b = .ok h b') ↔ IsChunk points kind) ∧
    ∀ f b', appendPoints i points kind b = .error f b' → b.Interrupted i ends b' := by
  obtain ⟨b₁, ends₁, hsep, hs₁, ho₁⟩ : ∃ b₁ ends₁, Bench.separate i b = .ok () b₁ ∧
      b₁.store.Sound ∧ b₁.IsOpen i ends₁ := by
    rcases ho.separate hr.sound with ⟨-, hsep⟩ | ⟨e, k, b₁, -, hsep, -, hb₁⟩
    · exact ⟨b, ends, hsep, hr.sound, ho⟩
    · exact ⟨b₁, _, hsep, hb₁.sound, hb₁.isOpen⟩
  obtain ⟨haccepted, hrefused⟩ : (IsChunk points kind → _) ∧ (¬ IsChunk points kind → _) :=
    appendPoints_of_separate hsep ho₁ hs₁
  refine ⟨⟨fun ⟨h, b', hrun⟩ => ?_, haccepted⟩, fun f b' hrun => ?_⟩
  · by_contra hc
    obtain ⟨f, hf⟩ := hrefused hc
    rw [hrun] at hf
    cases hf
  · by_cases hc : IsChunk points kind
    · obtain ⟨h, b'', hok⟩ := haccepted hc
      rw [hrun] at hok
      cases hok
    · obtain ⟨f', hf⟩ := hrefused hc
      rw [hrun] at hf
      cases hf
      exact interrupted_of_separate ho hr.sound hsep

/-- A chunk at the only cursor. -/
def oneChunk : Bench where
  store := { cells := #[⟨some (.ofText ['a'] .bare), none, none⟩] }
  cursors := #[⟨some ⟨0, 0⟩⟩]

theorem reachable_oneChunk : oneChunk.store.Reachable :=
  .single ⟨.insert (.ofText ['a'] .bare), 0, rfl⟩

theorem isOpen_oneChunk : oneChunk.IsOpen 0 (some ⟨0, 0⟩) where
  cursor := rfl
  last := by
    rintro _ ⟨⟩
    exact ⟨rfl, rfl⟩

/-- The chunk with an operator after it. -/
def chunkAndOperator : Bench where
  store :=
    { cells := #[⟨some (.ofText ['a'] .bare), some 1, none⟩, ⟨some .operator, none, none⟩] }
  cursors := #[⟨some ⟨0, 1⟩⟩]

/-- A lone surrogate is refused after the operator. -/
theorem refused_surrogate :
    appendPoints 0 [.surrogate 0] .bare oneChunk = .error (.encoding 0) chunkAndOperator ∧
      oneChunk.Interrupted 0 (some ⟨0, 0⟩) chunkAndOperator ∧ chunkAndOperator ≠ oneChunk := by
  obtain ⟨-, hrefused⟩ :=
    refused_interrupted reachable_oneChunk isOpen_oneChunk [.surrogate 0] .bare
  have hleft : oneChunk.Interrupted 0 (some ⟨0, 0⟩) chunkAndOperator := hrefused (.encoding 0) _ rfl
  refine ⟨rfl, hleft, fun he => ?_⟩
  cases hleft.unchanged.mp he

/-- A terminator is refused after the operator too, and the next chunk comes after a second one. -/
theorem refused_terminator : oneChunk.store.Reachable ∧ oneChunk.IsOpen 0 (some ⟨0, 0⟩) ∧
    appendPoints 0 (Point.ofText ['b']) .eos oneChunk = .error .terminator chunkAndOperator ∧
    chunkAndOperator ≠ oneChunk ∧ chunkAndOperator.store.size = oneChunk.store.size + 1 ∧
    ∃ b₁ b₂ : Bench,
      append 0 ['c'] .bare oneChunk = .ok 2 b₁ ∧ b₁.store.walk .next (some 0) = [0, 1, 2] ∧
      append 0 ['c'] .bare chunkAndOperator = .ok 3 b₂ ∧
      b₂.store.walk .next (some 0) = [0, 1, 2, 3] :=
  ⟨reachable_oneChunk, isOpen_oneChunk, rfl, by decide, rfl, _, _, rfl, rfl, rfl, rfl⟩

end Bench

end XPathAssembly
