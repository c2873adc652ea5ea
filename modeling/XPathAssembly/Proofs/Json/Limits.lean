import XPathAssembly.Json.Reader
import XPathAssembly.Proofs.Number.Spelled
import Mathlib.Data.List.Infix
import Mathlib.Data.List.TakeWhile

/-!
# The limits of the reader

A text goes beyond a limit of the reader only by what stands in it: an integer of so many digits, or
more opening brackets than arrays and objects may stand in each other.

    read t = .error (.excess e) → e.OccursIn depthLimit t      (occursIn_of_read)

Each reader leaves the end of the text that it was given.  So what goes wrong in a later part has
gone wrong in the whole, and the room that is left inside a bracket is one less than outside
(`Within`).
-/

namespace XPathAssembly

namespace Json

/-! ## Definitions -/

/-- A character that begins an array or an object, if it stands outside strings. -/
def opens (c : Char) : Bool := c = '[' || c = '\x7b'

/-- What goes beyond a limit stands in the text, where `room` arrays and objects may stand in each
other. -/
def Excess.OccursIn (room : Nat) (t : Text) : Excess → Prop
  | digits n => digitLimit < n ∧ ∃ ds : Text, ds <:+: t ∧ ds.length = n ∧ ∀ d ∈ ds, d.isDigit
  | array | object => room < t.countP opens

/-- The rest of a reading is an end of the text, and an excess stands in the text. -/
def Within {α : Type} (room : Nat) (t : Text) : Except Stop (α × Text) → Prop
  | .ok (_, rest) => rest <:+ t
  | .error (.malformed _ _) => True
  | .error (.excess e) => e.OccursIn room t

section
variable {α β : Type} {room : Nat} {t u rest : Text} {e : Excess} {c : Char}
  {x : Except Stop (α × Text)} {f : α × Text → Except Stop (β × Text)}

/-! ## Parts of a text -/

theorem Excess.OccursIn.of_suffix (he : e.OccursIn room t) (hs : t <:+ u) :
    e.OccursIn room u := by
  cases e with
  | digits n =>
    obtain ⟨hn, ds, hds, hall⟩ := he
    exact ⟨hn, ds, hds.trans hs.isInfix, hall⟩
  | array => exact Nat.lt_of_lt_of_le he (hs.sublist.countP_le)
  | object => exact Nat.lt_of_lt_of_le he (hs.sublist.countP_le)

theorem Excess.OccursIn.opening (he : e.OccursIn room t) (hc : opens c) :
    e.OccursIn (room + 1) (c :: t) := by
  have hcount : (c :: t).countP opens = t.countP opens + 1 := List.countP_cons_of_pos hc
  cases e with
  | digits n => exact Excess.OccursIn.of_suffix he (List.suffix_cons c t)
  | array | object =>
    show room + 1 < (c :: t).countP opens
    rw [hcount]
    exact Nat.succ_lt_succ he

namespace Within

theorem of_suffix (hx : Within room t x) (hs : t <:+ u) : Within room u x := by
  match x, hx with
  | .ok (_, _), hx => exact List.IsSuffix.trans hx hs
  | .error (.malformed _ _), _ => trivial
  | .error (.excess _), hx => exact Excess.OccursIn.of_suffix hx hs

theorem opening (hx : Within room t x) (hc : opens c) : Within (room + 1) (c :: t) x := by
  match x, hx with
  | .ok (_, _), hx => exact List.IsSuffix.trans hx (List.suffix_cons c t)
  | .error (.malformed _ _), _ => trivial
  | .error (.excess _), hx => exact Excess.OccursIn.opening hx hc

/-- What is read next is read of the rest. -/
theorem bind (hx : Within room t x) (hf : ∀ a rest, Within room rest (f (a, rest))) :
    Within room t (x >>= f) := by
  match x, hx with
  | .ok (a, rest), hx => exact (hf a rest).of_suffix hx
  | .error (.malformed _ _), _ => trivial
  | .error (.excess _), hx => exact hx

end Within

theorem skip_suffix (t : Text) : skip t <:+ t := List.dropWhile_suffix _

/-! ## Numbers -/

theorem digitsOf_spec (t : Text) : (Binary.digitsOf t).1 ++ (Binary.digitsOf t).2 = t ∧
    ∀ d ∈ (Binary.digitsOf t).1, d.isDigit := by
  unfold Binary.digitsOf
  rw [List.span_eq_takeWhile_dropWhile]
  exact ⟨List.takeWhile_append_dropWhile, fun d hd => List.mem_takeWhile_imp hd⟩

theorem wholeOf_spec {whole : Text} (h : wholeOf t = (whole, rest)) :
    whole ++ rest = t ∧ ∀ d ∈ whole, d.isDigit := by
  unfold wholeOf at h
  split at h
  · cases h
    exact ⟨rfl, by simp⟩
  · have hspec := digitsOf_spec t
    rwa [h] at hspec

theorem digitsOf_suffix (t : Text) : (Binary.digitsOf t).2 <:+ t :=
  ⟨_, (digitsOf_spec t).1⟩

theorem fractionOf_suffix (t : Text) : (fractionOf t).2 <:+ t := by
  unfold fractionOf
  split
  · next rest =>
    have hd := digitsOf_suffix rest
    split
    · exact List.suffix_rfl
    · next he => rw [he] at hd; exact hd.trans (List.suffix_cons _ _)
  · exact List.suffix_rfl

theorem signOf_suffix (t : Text) : (Binary.signOf t).2 <:+ t := by
  unfold Binary.signOf
  split
  · exact List.suffix_cons _ _
  · exact List.suffix_cons _ _
  · exact List.suffix_rfl

theorem exponentOf_suffix (t : Text) : (exponentOf t).2 <:+ t := by
  unfold exponentOf
  split
  · exact List.suffix_rfl
  · next e rest =>
    have hd := (digitsOf_suffix (Binary.signOf rest).2).trans (signOf_suffix rest)
    split
    next hsign =>
    rw [hsign] at hd
    split
    · exact List.suffix_rfl
    · next he =>
      rw [he] at hd
      split
      · exact hd.trans (List.suffix_cons _ _)
      · exact List.suffix_rfl

theorem within_number (room : Nat) (t : Text) : Within room t (number t) := by
  unfold number
  simp only
  split
  · trivial
  · next whole rest _ hwhole =>
    obtain ⟨hsplit, hdigits⟩ := wholeOf_spec hwhole
    have hbody : whole ++ rest <:+ t := by
      rw [hsplit]
      split
      · exact List.suffix_cons _ _
      · exact List.suffix_rfl
    have hrest : (exponentOf (fractionOf rest).2).2 <:+ t :=
      (exponentOf_suffix _).trans <| (fractionOf_suffix _).trans <|
        (List.suffix_append whole rest).trans hbody
    split
    · split
      · next hlong =>
        exact ⟨hlong, whole, (List.prefix_append whole rest).isInfix.trans hbody.isInfix, rfl,
          hdigits⟩
      · exact hrest
    · exact hrest

theorem within_scalar (room : Nat) (t : Text) : Within room t (scalar t) := by
  fun_cases scalar t with
  | case1 => exact ⟨['n', 'u', 'l', 'l'], rfl⟩
  | case2 => exact ⟨['t', 'r', 'u', 'e'], rfl⟩
  | case3 => exact ⟨['f', 'a', 'l', 's', 'e'], rfl⟩
  | case4 => exact ⟨['N', 'a', 'N'], rfl⟩
  | case5 => exact ⟨['I', 'n', 'f', 'i', 'n', 'i', 't', 'y'], rfl⟩
  | case6 => exact ⟨['-', 'I', 'n', 'f', 'i', 'n', 'i', 't', 'y'], rfl⟩
  | case7 => exact within_number room t

/-! ## Strings -/

theorem within_stringFrom (room : Nat) (start : Text) (before : List Point) (t : Text) :
    Within room t (stringFrom start before t) := by
  fun_induction stringFrom start before t with
  | case2 => exact List.suffix_cons _ _
  | case4 _ a b c d e _ _ _ ih => exact ih.of_suffix ⟨['\\', 'u', a, b, c, d], rfl⟩
  | case7 _ c _ _ _ _ _ ih => exact ih.of_suffix ⟨['\\', c], rfl⟩
  | case10 _ c _ _ _ _ _ _ _ ih => exact ih.of_suffix (List.suffix_cons c _)
  | case1 | case3 | case5 | case6 | case8 | case9 => trivial

theorem within_stringAfter (room : Nat) (t : Text) : Within room t (stringAfter t) :=
  within_stringFrom room t [] t

/-! ## Values -/

theorem suffix_of_skip (h : skip t = c :: rest) : rest <:+ t :=
  (List.suffix_cons c rest).trans (h ▸ skip_suffix t)

section
variable {n : Nat}

theorem within_value (helements : ∀ room before t, Within room t (elements n room before t))
    (hmembers : ∀ room before t, Within room t (members n room before t)) (room : Nat)
    (t : Text) : Within room t (value (n + 1) room t) := by
  unfold value
  split
  · next rest =>
    have hstring := (within_stringAfter room rest).bind (f := fun p => .ok (Json.string p.1, p.2))
      fun _ _ => List.suffix_rfl
    exact hstring.of_suffix (List.suffix_cons _ _)
  · next rest =>
    split
    · exact List.countP_pos_iff.mpr ⟨_, List.mem_cons_self, rfl⟩
    · next hskip => exact (suffix_of_skip hskip).trans (List.suffix_cons _ _)
    · exact ((helements _ _ _).of_suffix (skip_suffix rest)).opening rfl
  · next rest =>
    split
    · exact List.countP_pos_iff.mpr ⟨_, List.mem_cons_self, rfl⟩
    · next hskip => exact (suffix_of_skip hskip).trans (List.suffix_cons _ _)
    · exact ((hmembers _ _ _).of_suffix (skip_suffix rest)).opening rfl
  · exact within_scalar room _

theorem within_elements (hvalue : ∀ room t, Within room t (value n room t))
    (helements : ∀ room before t, Within room t (elements n room before t)) (room : Nat)
    (before : List Json) (t : Text) : Within room t (elements (n + 1) room before t) := by
  unfold elements
  refine (hvalue room t).bind fun x rest => ?_
  simp only
  split
  · next hskip => exact suffix_of_skip hskip
  · next hskip =>
    exact (helements _ _ _).of_suffix ((skip_suffix _).trans (suffix_of_skip hskip))
  · trivial

theorem within_members (hvalue : ∀ room t, Within room t (value n room t))
    (hmembers : ∀ room before t, Within room t (members n room before t)) (room : Nat)
    (before : List (List Point × Json)) (t : Text) :
    Within room t (members (n + 1) room before t) := by
  unfold members
  split
  · next rest =>
    refine Within.of_suffix ?_ (List.suffix_cons _ _)
    refine (within_stringAfter room rest).bind fun key rest => ?_
    simp only
    split
    · next hcolon =>
      refine Within.of_suffix ?_ ((skip_suffix _).trans (suffix_of_skip hcolon))
      refine (hvalue room _).bind fun x rest => ?_
      simp only
      split
      · next hskip => exact suffix_of_skip hskip
      · next hskip =>
        exact (hmembers _ _ _).of_suffix ((skip_suffix _).trans (suffix_of_skip hskip))
      · trivial
    · trivial
  · trivial

end

/-- Each of the three readers stays within its text, as long as those it goes into do. -/
theorem within_all (n : Nat) : (∀ room t, Within room t (value n room t)) ∧
    (∀ room before t, Within room t (elements n room before t)) ∧
    ∀ room before t, Within room t (members n room before t) := by
  induction n with
  | zero => exact ⟨fun _ _ => trivial, fun _ _ _ => trivial, fun _ _ _ => trivial⟩
  | succ n ih =>
    obtain ⟨hvalue, helements, hmembers⟩ := ih
    exact ⟨within_value helements hmembers, within_elements hvalue helements,
      within_members hvalue hmembers⟩

/-- What the reader stops for as too much stands in the text. -/
theorem occursIn_of_read (h : read t = .error (.excess e)) : e.OccursIn depthLimit t := by
  have hvalue := (within_all (2 * t.length + 2)).1 depthLimit (skip t)
  unfold read at h
  split at h
  · cases h
  · split at h
    · next hv =>
      cases h
      rw [hv] at hvalue
      exact Excess.OccursIn.of_suffix hvalue (skip_suffix t)
    · split at h <;> cases h

end

/-! ## Long integers -/

section
variable {d : Char} {ds : Text}

theorem ne_of_isDigit {c : Char} (hd : d.isDigit) (hc : c.isDigit = false) : d ≠ c := by
  rintro rfl
  rw [hc] at hd
  cases hd

theorem number_of_digits (hd : ∀ c ∈ d :: ds, c.isDigit) (h0 : d ≠ '0')
    (hlong : digitLimit < (d :: ds).length) :
    number (d :: ds) = .error (.excess (.digits (d :: ds).length)) := by
  have hminus : d ≠ '-' := ne_of_isDigit (hd d List.mem_cons_self) rfl
  have hwhole : wholeOf (d :: ds) = (d :: ds, []) := by
    unfold wholeOf
    split
    · next he => exact absurd (List.cons.inj he).1 h0
    · exact Binary.digitsOf_of_isDigit hd
  unfold number
  split
  next hsign =>
  split at hsign
  · next he => exact absurd (List.cons.inj he).1 hminus
  · cases hsign
    simp only [hwhole]
    exact if_pos hlong

theorem scalar_of_isDigit (hd : d.isDigit) : scalar (d :: ds) = number (d :: ds) := by
  unfold scalar
  split
  case h_7 => rfl
  all_goals
    next he => exact absurd (List.cons.inj he).1 (ne_of_isDigit hd rfl)

/-- A text that is one integer is refused if it has too many digits. -/
theorem read_of_digits (hd : ∀ c ∈ d :: ds, c.isDigit) (h0 : d ≠ '0')
    (hlong : digitLimit < (d :: ds).length) :
    read (d :: ds) = .error (.excess (.digits (d :: ds).length)) := by
  have hdigit := hd d List.mem_cons_self
  have hmark : (d :: ds).head? ≠ some '\ufeff' := fun he =>
    ne_of_isDigit hdigit rfl (Option.some.inj he)
  have hskip : skip (d :: ds) = d :: ds := by
    have hsep : ¬ isSeparator d := by
      simp only [isSeparator, Bool.or_eq_true, decide_eq_true_eq, not_or]
      exact ⟨⟨⟨ne_of_isDigit hdigit rfl, ne_of_isDigit hdigit rfl⟩, ne_of_isDigit hdigit rfl⟩,
        ne_of_isDigit hdigit rfl⟩
    exact List.dropWhile_cons_of_neg hsep
  have hvalue : ∀ n room, value (n + 1) room (d :: ds) = scalar (d :: ds) := by
    intro n room
    unfold value
    split
    case h_4 => rfl
    all_goals
      next he => exact absurd (List.cons.inj he).1 (ne_of_isDigit hdigit rfl)
  unfold read
  rw [if_neg hmark, hskip, hvalue, scalar_of_isDigit hdigit, number_of_digits hd h0 hlong]

end

end Json

end XPathAssembly
