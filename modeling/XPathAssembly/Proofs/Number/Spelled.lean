import Mathlib.Data.List.TakeDrop
import Mathlib.Data.List.TakeWhile
import XPathAssembly.Number.Spelled

/-!
# What a spelling leaves open

The blanks around a number, the script of its digits and the underscores between them say nothing
about the number.  An underscore anywhere else, or a second one after it, and no number is spelled.

    ofSpelling? (s ++ t ++ u) = ofSpelling? t                            (ofSpelling?_padded)
    ungrouped? digit t = some u ↔ IsGrouped digit t ∧ …                  (ungrouped?_eq_some_iff)
    Digits t ds → … → ofSpelling? (s ++ t ++ u) = some (ofDecimal false (valueOf ds) 0)
                                                                         (ofSpelling?_digits)
-/

namespace XPathAssembly

variable {p : Char → Bool} {s t u : Text} {c : Char}

theorem stripped_padded (hs : ∀ c ∈ s, p c) (hu : ∀ c ∈ u, p c) (t : Text) :
    stripped p (s ++ t ++ u) = stripped p t := by
  have hnil : u.dropWhile p = [] := List.dropWhile_eq_nil_iff.mpr hu
  unfold stripped
  rw [List.append_assoc, List.dropWhile_append_of_pos hs, List.dropWhile_append]
  by_cases ht : (t.dropWhile p).isEmpty = true
  · rw [if_pos ht, hnil, List.isEmpty_iff.mp ht]
  · rw [if_neg ht, List.reverse_append, List.dropWhile_append_of_pos]
    intro c hc
    exact hu c (List.mem_reverse.mp hc)

/-- Nothing is taken away from a text that begins and ends with something else. -/
theorem stripped_eq_self (hfirst : ∀ c ∈ t.head?, p c = false)
    (hlast : ∀ c ∈ t.getLast?, p c = false) : stripped p t = t := by
  have hdrop : ∀ v : Text, (∀ c ∈ v.head?, p c = false) → v.dropWhile p = v := by
    intro v hv
    cases v with
    | nil => rfl
    | cons c v => simp [hv c rfl]
  unfold stripped
  rw [hdrop t hfirst, hdrop t.reverse (by simpa using hlast), List.reverse_reverse]

namespace Binary

/-! ## Underscores -/

variable {digit : Bool}

theorem ungrouped?_cons (hc : c ≠ '_') (t : Text) :
    ungrouped? digit (c :: t) = (ungrouped? c.isDigit t).map (c :: ·) := by
  rw [ungrouped?]
  exact hc

theorem ungrouped?_underscore (digit : Bool) (t : Text) :
    ungrouped? digit ('_' :: t) =
      if digit && t.head?.any Char.isDigit then ungrouped? false t else none := rfl

theorem ne_underscore_of_isPadding (hc : isPadding c) : c ≠ '_' ∧ c.isDigit = false := by
  have hspace : isPadding '_' = false := by decide
  constructor
  · rintro rfl
    rw [hspace] at hc
    cases hc
  · by_contra hd
    simp only [Bool.not_eq_false, Char.isDigit, Bool.and_eq_true, decide_eq_true_eq, ge_iff_le,
      UInt32.le_iff_toNat_le] at hd
    simp only [isPadding, Bool.or_eq_true, Bool.and_eq_true, decide_eq_true_eq, Char.le_def,
      UInt32.le_iff_toNat_le] at hc
    rcases hc with rfl | hc
    · exact absurd hd.1 (by decide)
    · have hlow : 48 ≤ c.val.toNat := hd.1
      have hhigh : c.val.toNat ≤ 13 := hc.2
      omega

/-- Underscores do not count blanks as digits. -/
theorem ungrouped?_padding (hs : ∀ c ∈ s, isPadding c) (t : Text) :
    ungrouped? false (s ++ t) = (ungrouped? false t).map (s ++ ·) := by
  induction s with
  | nil => simp
  | cons c s ih =>
    obtain ⟨hne, hdigit⟩ := ne_underscore_of_isPadding (hs c (by simp))
    rw [List.cons_append, ungrouped?_cons hne, hdigit, ih fun d hd => hs d (by simp [hd]),
      Option.map_map]
    rfl

theorem ungrouped?_append_padding (hu : ∀ c ∈ u, isPadding c) (digit : Bool) (t : Text) :
    ungrouped? digit (t ++ u) = (ungrouped? digit t).map (· ++ u) := by
  have hhead : u.head?.any Char.isDigit = false := by
    cases u with
    | nil => rfl
    | cons c u => exact (ne_underscore_of_isPadding (hu c (by simp))).2
  have hrest : ∀ digit, ungrouped? digit u = some u := by
    intro digit
    cases u with
    | nil => rfl
    | cons c u =>
      obtain ⟨hne, hdigit⟩ := ne_underscore_of_isPadding (hu c (by simp))
      have hall := ungrouped?_padding (s := u) (fun d hd => hu d (by simp [hd])) []
      rw [List.append_nil] at hall
      rw [ungrouped?_cons hne, hdigit, hall]
      simp [ungrouped?]
  induction t generalizing digit with
  | nil => simp [hrest, ungrouped?]
  | cons c t ih =>
    by_cases hc : c = '_'
    · subst hc
      have hnext : (t ++ u).head?.any Char.isDigit = t.head?.any Char.isDigit := by
        cases t with
        | nil => simpa using hhead
        | cons d t => rfl
      rw [List.cons_append, ungrouped?_underscore, ungrouped?_underscore, hnext, ih]
      split <;> rfl
    · rw [List.cons_append, ungrouped?_cons hc, ungrouped?_cons hc, ih, Option.map_map,
        Option.map_map]
      rfl

/-- Blanks around a number do not matter. -/
theorem ofSpelling?_padded (hs : ∀ c ∈ s, isPadding (plainChar c))
    (hu : ∀ c ∈ u, isPadding (plainChar c)) (t : Text) :
    ofSpelling? (s ++ t ++ u) = ofSpelling? t := by
  have hs' : ∀ c ∈ s.map plainChar, isPadding c := List.forall_mem_map.mpr hs
  have hu' : ∀ c ∈ u.map plainChar, isPadding c := List.forall_mem_map.mpr hu
  unfold ofSpelling?
  rw [List.map_append, List.map_append, ungrouped?_append_padding hu', ungrouped?_padding hs']
  cases ungrouped? false (t.map plainChar) with
  | none => rfl
  | some v =>
    show read? (stripped isPadding (s.map plainChar ++ v ++ u.map plainChar)) = _
    rw [stripped_padded hs' hu']
    rfl

/-! ## Where an underscore may stand -/

/-- Every underscore stands between two digits; `digit` says whether a digit stands before the
text. -/
def IsGrouped (digit : Bool) (t : Text) : Prop :=
  ∀ s u, t = s ++ '_' :: u →
    (s.getLast?.map Char.isDigit).getD digit = true ∧ u.head?.any Char.isDigit = true

theorem isGrouped_nil (digit : Bool) : IsGrouped digit [] := by
  intro s u h
  simp at h

theorem isGrouped_cons : IsGrouped digit (c :: t) ↔
    (c = '_' → digit = true ∧ t.head?.any Char.isDigit = true) ∧ IsGrouped c.isDigit t := by
  have hlast : ∀ s : Text, ((c :: s).getLast?.map Char.isDigit).getD digit =
      (s.getLast?.map Char.isDigit).getD c.isDigit := by
    intro s
    rw [List.getLast?_cons, Option.map_some, Option.getD_some]
    cases s.getLast? <;> rfl
  constructor
  · intro h
    refine ⟨?_, ?_⟩
    · rintro rfl
      exact h [] t rfl
    · rintro s u rfl
      have hu := h (c :: s) u rfl
      rwa [hlast] at hu
  · rintro ⟨hfirst, hrest⟩ s u h
    cases s with
    | nil =>
      obtain ⟨rfl, rfl⟩ := List.cons.inj h
      exact hfirst rfl
    | cons d s =>
      obtain ⟨rfl, rfl⟩ := List.cons.inj h
      rw [hlast]
      exact hrest s u rfl

/-- The underscores are taken away if each of them stands between two digits, and only then. -/
theorem ungrouped?_eq_some_iff :
    ungrouped? digit t = some u ↔ IsGrouped digit t ∧ u = t.filter (· ≠ '_') := by
  induction t generalizing digit u with
  | nil => simp [ungrouped?, isGrouped_nil, eq_comm]
  | cons c t ih =>
    rw [isGrouped_cons]
    by_cases hc : c = '_'
    · subst hc
      rw [ungrouped?_underscore, List.filter_cons_of_neg (by simp)]
      by_cases hd : (digit && t.head?.any Char.isDigit) = true
      · rw [if_pos hd, ih]
        have hd' := Bool.and_eq_true_iff.mp hd
        exact ⟨fun h => ⟨⟨fun _ => hd', h.1⟩, h.2⟩, fun h => ⟨h.1.2, h.2⟩⟩
      · rw [if_neg hd]
        refine ⟨nofun, fun h => absurd (h.1.1 rfl) ?_⟩
        exact fun h => hd (Bool.and_eq_true_iff.mpr h)
    · rw [ungrouped?_cons hc, List.filter_cons_of_pos (by simpa using hc), Option.map_eq_some_iff]
      constructor
      · rintro ⟨v, hv, rfl⟩
        obtain ⟨hgrouped, rfl⟩ := ih.mp hv
        exact ⟨⟨fun h => absurd h hc, hgrouped⟩, rfl⟩
      · rintro ⟨⟨-, hgrouped⟩, rfl⟩
        exact ⟨_, ih.mpr ⟨hgrouped, rfl⟩, rfl⟩

/-- A text with an underscore anywhere else spells no number. -/
theorem ofSpelling?_of_not_isGrouped (h : ¬ IsGrouped false (t.map plainChar)) :
    ofSpelling? t = none := by
  unfold ofSpelling?
  cases hu : ungrouped? false (t.map plainChar) with
  | none => rfl
  | some u => exact absurd (ungrouped?_eq_some_iff.mp hu).1 h

/-! ## Digits of any script -/

/-- The text spells these digits, each in any script, perhaps with an underscore between two. -/
inductive Digits : Text → List Nat → Prop where
  | last {c d} (hc : decimalValue? c = some d) : Digits [c] [d]
  | more {c d t ds} (hc : decimalValue? c = some d) (h : Digits t ds) : Digits (c :: t) (d :: ds)
  | spaced {c d t ds} (hc : decimalValue? c = some d) (h : Digits t ds) :
    Digits (c :: '_' :: t) (d :: ds)

/-- The number with these digits. -/
def valueOf (ds : List Nat) : Nat := ds.foldl (fun n d => n * 10 + d) 0

/-- The ASCII digit. -/
def digitOf (d : Nat) : Char := Char.ofNat ('0'.toNat + d)

theorem zeros_spec : ∀ z ∈ zeros, (z = 0x30 ∨ 0x660 ≤ z) ∧
    ∀ r ∈ blankRanges, z + 10 ≤ r.1 ∨ r.2 < z := by
  decide +kernel

theorem digitOf_spec : ∀ d < 10, (digitOf d).isDigit = true ∧
    (digitOf d).toNat - '0'.toNat = d ∧ isPadding (digitOf d) = false ∧
      (digitOf d).toLower = digitOf d := by
  decide

variable {d : Nat} {ds : List Nat}

theorem exists_zero (hc : decimalValue? c = some d) :
    ∃ z ∈ zeros, z ≤ c.toNat ∧ c.toNat < z + 10 ∧ d = c.toNat - z := by
  unfold decimalValue? at hc
  obtain ⟨z, hz, hd⟩ := Option.map_eq_some_iff.mp hc
  have hrange := List.find?_some hz
  simp only [Bool.and_eq_true, decide_eq_true_eq] at hrange
  exact ⟨z, List.mem_of_find?_eq_some hz, hrange.1, hrange.2, hd.symm⟩

theorem lt_ten_of_decimalValue? (hc : decimalValue? c = some d) : d < 10 := by
  obtain ⟨z, -, hle, hlt, rfl⟩ := exists_zero hc
  omega

/-- A digit of any script counts as the ASCII one. -/
theorem plainChar_of_decimalValue? (hc : decimalValue? c = some d) : plainChar c = digitOf d := by
  obtain ⟨z, hz, hle, hlt, rfl⟩ := exists_zero hc
  obtain ⟨hz', hblank⟩ := zeros_spec z hz
  unfold plainChar
  by_cases hascii : c.toNat < 127
  · obtain rfl : z = 0x30 := by omega
    have hcode : '0'.toNat + (c.toNat - 0x30) = c.toNat := by
      show 48 + (c.toNat - 48) = c.toNat
      omega
    unfold digitOf
    rw [if_pos hascii, hcode, Char.ofNat_toNat]
  · have hnot : isBlank c = false := by
      unfold isBlank
      rw [List.any_eq_false]
      intro r hr
      simp only [Bool.and_eq_true, decide_eq_true_eq, not_and]
      have hapart := hblank r hr
      omega
    rw [if_neg hascii, hnot, hc]
    rfl

theorem Digits.ne_nil (h : Digits t ds) : ds ≠ [] := by
  cases h <;> simp

theorem Digits.lt_ten (h : Digits t ds) : ∀ d ∈ ds, d < 10 := by
  induction h with
  | last hc => simpa using lt_ten_of_decimalValue? hc
  | more hc _ ih | spaced hc _ ih =>
    intro d hd
    rcases List.mem_cons.mp hd with rfl | hd
    · exact lt_ten_of_decimalValue? hc
    · exact ih d hd

theorem digitOf_ne_underscore (hd : d < 10) : digitOf d ≠ '_' := by
  intro he
  have hdigit := (digitOf_spec d hd).1
  rw [he] at hdigit
  cases hdigit

theorem Digits.ungrouped?_eq (h : Digits t ds) :
    (t.map plainChar).head?.any Char.isDigit = true ∧
      ∀ digit, ungrouped? digit (t.map plainChar) = some (ds.map digitOf) := by
  induction h with
  | last hc =>
    have hd := lt_ten_of_decimalValue? hc
    simp only [List.map_cons, List.map_nil, plainChar_of_decimalValue? hc]
    refine ⟨(digitOf_spec _ hd).1, ?_⟩
    intro digit
    rw [ungrouped?_cons (digitOf_ne_underscore hd)]
    rfl
  | more hc _ ih =>
    have hd := lt_ten_of_decimalValue? hc
    simp only [List.map_cons, plainChar_of_decimalValue? hc]
    refine ⟨(digitOf_spec _ hd).1, ?_⟩
    intro digit
    rw [ungrouped?_cons (digitOf_ne_underscore hd), ih.2]
    rfl
  | spaced hc _ ih =>
    have hd := lt_ten_of_decimalValue? hc
    have hunderscore : plainChar '_' = '_' := by decide
    simp only [List.map_cons, plainChar_of_decimalValue? hc, hunderscore]
    refine ⟨(digitOf_spec _ hd).1, ?_⟩
    intro digit
    rw [ungrouped?_cons (digitOf_ne_underscore hd), ungrouped?_underscore,
      (digitOf_spec _ hd).1, ih.1, ih.2]
    rfl

theorem natOf_digitOf (hd : ∀ d ∈ ds, d < 10) : natOf (ds.map digitOf) = valueOf ds := by
  unfold natOf valueOf
  rw [List.foldl_map]
  generalize 0 = n
  induction ds generalizing n with
  | nil => rfl
  | cons d ds ih =>
    rw [List.foldl_cons, List.foldl_cons, (digitOf_spec d (hd d (by simp))).2.1]
    exact ih (fun e he => hd e (by simp [he])) _

/-- A text that begins with a digit has no sign. -/
theorem signOf_of_isDigit (hc : c.isDigit = true) (t : Text) :
    signOf (c :: t) = (false, c :: t) := by
  unfold signOf
  split
  · next he =>
    obtain ⟨rfl, -⟩ := List.cons.inj he
    cases hc
  · next he =>
    obtain ⟨rfl, -⟩ := List.cons.inj he
    cases hc
  · rfl

theorem digitsOf_of_isDigit (ht : ∀ c ∈ t, c.isDigit = true) : digitsOf t = (t, []) := by
  unfold digitsOf
  rw [List.span_eq_takeWhile_dropWhile, List.takeWhile_eq_self_iff.mpr ht,
    List.dropWhile_eq_nil_iff.mpr ht]

/-- Digits alone are read as a whole number. -/
theorem read?_digits (hne : ds ≠ []) (hd : ∀ d ∈ ds, d < 10) :
    read? (ds.map digitOf) = some (ofDecimal false (valueOf ds) 0) := by
  have hall : ∀ c ∈ ds.map digitOf, c.isDigit = true := by
    intro c hc
    obtain ⟨e, he, rfl⟩ := List.mem_map.mp hc
    exact (digitOf_spec e (hd e he)).1
  have hsign : signOf (ds.map digitOf) = (false, ds.map digitOf) := by
    obtain ⟨d, rest, rfl⟩ := List.exists_cons_of_ne_nil hne
    exact signOf_of_isDigit (hall _ (by simp)) _
  have hname : ∀ (c : Char) (rest : Text), c.isDigit = false →
      (ds.map digitOf).map Char.toLower ≠ c :: rest := by
    intro c rest hletter heq
    obtain ⟨d, others, rfl⟩ := List.exists_cons_of_ne_nil hne
    obtain ⟨hdigit, -, -, hlower⟩ := digitOf_spec d (hd d (by simp))
    rw [← (List.cons.inj heq).1, hlower, hdigit] at hletter
    cases hletter
  have hinf : (ds.map digitOf).map Char.toLower ≠ "inf".toList := hname 'i' ['n', 'f'] rfl
  have hinfinity : (ds.map digitOf).map Char.toLower ≠ "infinity".toList :=
    hname 'i' ['n', 'f', 'i', 'n', 'i', 't', 'y'] rfl
  have hnan : (ds.map digitOf).map Char.toLower ≠ "nan".toList := hname 'n' ['a', 'n'] rfl
  have hnonempty : ds.map digitOf ≠ [] := by simpa using hne
  unfold read?
  rw [hsign]
  simp only [digitsOf_of_isDigit hall]
  rw [if_neg, if_neg hnan, if_neg (by simp [hnonempty])]
  · show some (ofDecimal false (natOf (ds.map digitOf ++ [])) (0 - 0)) = _
    rw [List.append_nil, natOf_digitOf hd, Int.sub_zero]
  · rintro (he | he)
    · exact hinf he
    · exact hinfinity he

/-- **A whole number may be typed in the digits of any script, with underscores between them and
blanks around them.**  It is read as the number nearest to the one that its digits name. -/
theorem ofSpelling?_digits (h : Digits t ds) (hs : ∀ c ∈ s, isPadding (plainChar c))
    (hu : ∀ c ∈ u, isPadding (plainChar c)) :
    ofSpelling? (s ++ t ++ u) = some (ofDecimal false (valueOf ds) 0) := by
  rw [ofSpelling?_padded hs hu]
  have hend : ∀ c ∈ ds.map digitOf, isPadding c = false := by
    intro c hc
    obtain ⟨e, he, rfl⟩ := List.mem_map.mp hc
    exact (digitOf_spec e (h.lt_ten e he)).2.2.1
  unfold ofSpelling?
  rw [h.ungrouped?_eq.2]
  show read? (stripped isPadding (ds.map digitOf)) = _
  rw [stripped_eq_self, read?_digits h.ne_nil h.lt_ten]
  · exact fun c hc => hend c (List.mem_of_head? hc)
  · exact fun c hc => hend c (List.mem_of_getLast? hc)

example : ofSpelling? " \u0661_2\u3000".toList = ofSpelling? "12".toList := by decide +kernel

end Binary

end XPathAssembly
