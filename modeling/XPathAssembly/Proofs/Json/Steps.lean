import XPathAssembly.Proofs.Json.Limits

/-!
# The steps of the reader

More steps than the bound give no other reading: each step takes a character of the text or goes
into a part of it, and what a part leaves is shorter than the text before it.

    2 * t.length < n → 2 * t.length < m → value n room t = value m room t         (value_stable)
-/

namespace XPathAssembly

namespace Json

variable {α β : Type} {n m room : Nat} {t u : Text}

/-- What is read next may depend on the rest being an end of the text. -/
theorem Within.bind_congr {x : Except Stop (α × Text)} {f g : α × Text → Except Stop β}
    (hx : Within room t x) (hfg : ∀ a rest, rest <:+ t → f (a, rest) = g (a, rest)) :
    x >>= f = x >>= g := by
  match x, hx with
  | .ok (a, rest), hx => exact hfg a rest hx
  | .error _, _ => rfl

theorem length_of_skip {c : Char} {rest : Text} (h : skip t = c :: rest) :
    rest.length < t.length := by
  have hlength := (skip_suffix t).length_le
  rw [h, List.length_cons] at hlength
  exact hlength

/-- One more step changes nothing for the three readers. -/
structure Settled (n : Nat) : Prop where
  value : ∀ room t, 2 * t.length < n → Json.value (n + 1) room t = Json.value n room t
  elements : ∀ room before t, 2 * t.length + 1 < n →
    Json.elements (n + 1) room before t = Json.elements n room before t
  members : ∀ room before t, 2 * t.length + 1 < n →
    Json.members (n + 1) room before t = Json.members n room before t

theorem settled_value (h : Settled n) (ht : 2 * t.length < n + 1) :
    value (n + 2) room t = value (n + 1) room t := by
  unfold value
  split
  · rfl
  · next rest =>
    have hlength := (skip_suffix rest).length_le
    rw [List.length_cons] at ht
    split
    · rfl
    · rfl
    · exact h.elements _ _ _ (by omega)
  · next rest =>
    have hlength := (skip_suffix rest).length_le
    rw [List.length_cons] at ht
    split
    · rfl
    · rfl
    · exact h.members _ _ _ (by omega)
  · rfl

theorem settled_elements (h : Settled n) (before : List Json) (ht : 2 * t.length + 1 < n + 1) :
    elements (n + 2) room before t = elements (n + 1) room before t := by
  rw [elements, elements, h.value room t (by omega)]
  refine ((within_all n).1 room t).bind_congr fun x rest hrest => ?_
  have hlength := hrest.length_le
  simp only
  split
  · rfl
  · next hskip =>
    have hshorter := length_of_skip hskip
    have hnext := (skip_suffix _).length_le.trans_lt hshorter
    exact h.elements _ _ _ (by omega)
  · rfl

theorem settled_members (h : Settled n) (before : List (List Point × Json))
    (ht : 2 * t.length + 1 < n + 1) :
    members (n + 2) room before t = members (n + 1) room before t := by
  unfold members
  split
  · next rest =>
    rw [List.length_cons] at ht
    refine (within_stringAfter room rest).bind_congr fun key rest hrest => ?_
    have hlength := hrest.length_le
    simp only
    split
    · next hcolon =>
      have hshorter := (skip_suffix _).length_le.trans_lt (length_of_skip hcolon)
      rw [h.value room _ (by omega)]
      refine ((within_all n).1 room _).bind_congr fun x rest hrest => ?_
      have hlength := hrest.length_le
      simp only
      split
      · rfl
      · next hskip =>
        have hnext := (skip_suffix _).length_le.trans_lt (length_of_skip hskip)
        exact h.members _ _ _ (by omega)
      · rfl
    · rfl
  · rfl

theorem settled (n : Nat) : Settled n := by
  induction n with
  | zero => exact ⟨nofun, nofun, nofun⟩
  | succ n ih =>
    exact ⟨fun _ _ ht => settled_value ih ht, fun _ before _ ht => settled_elements ih before ht,
      fun _ before _ ht => settled_members ih before ht⟩

/-- Steps beyond twice the length of the text make no difference. -/
theorem value_stable (hn : 2 * t.length < n) (hm : 2 * t.length < m) :
    value n room t = value m room t := by
  have hbound : ∀ k, 2 * t.length < k → value k room t = value (2 * t.length + 1) room t := by
    intro k hk
    induction k, hk using Nat.le_induction with
    | base => rfl
    | succ k hk ih => rw [(settled k).value room t hk, ih]
  rw [hbound n hn, hbound m hm]

end Json

end XPathAssembly
