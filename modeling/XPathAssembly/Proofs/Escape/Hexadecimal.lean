import Mathlib.Algebra.Order.Ring.Nat
import Mathlib.Data.List.Induction
import XPathAssembly.Escape

/-!
# Hexadecimal digits

The digits of an escape are read as the number that they spell, each in any case.  A number is
spelled by some digits of a width exactly if it fits in them.

    readFrom 0 digits = some n ↔ Hexadecimal digits n                      (readFrom_eq_some_iff)
    (∃ digits, digits.length = w ∧ Hexadecimal digits n) ↔ n < 16 ^ w      (exists_hexadecimal_iff)
-/

namespace XPathAssembly

/-- The digits spell `n` in base 16, each in any case. -/
def Hexadecimal (digits : Text) (n : Nat) : Prop :=
  digits.map Char.toLower = hexDigits digits.length n

instance (digits : Text) (n : Nat) : Decidable (Hexadecimal digits n) :=
  inferInstanceAs (Decidable (_ = _))

/-! ## Single digits -/

theorem hexValue?_eq_some_iff_of_ascii : ∀ n < 128, ∀ d < 16,
    (hexValue? (Char.ofNat n) = some d ↔ (Char.ofNat n).toLower = Nat.digitChar d) := by
  decide +kernel

theorem toNat_digitChar_lt : ∀ d < 16, (Nat.digitChar d).toNat < 128 := by
  decide

theorem toLower_digitChar : ∀ d < 16, (Nat.digitChar d).toLower = Nat.digitChar d := by
  decide

theorem hexValue?_eq_none_of_not_ascii {c : Char} (h : 128 ≤ c.toNat) : hexValue? c = none := by
  have outside {a b : Char} (hb : b.toNat < 128) : ¬ (a ≤ c ∧ c ≤ b) := by
    rintro ⟨-, hc⟩
    have : c.toNat ≤ b.toNat := hc
    omega
  unfold hexValue?
  rw [if_neg (outside (by decide)), if_neg (outside (by decide)), if_neg (outside (by decide))]

theorem toLower_eq_self_of_not_ascii {c : Char} (h : 128 ≤ c.toNat) : c.toLower = c := by
  refine dif_neg ?_
  rintro ⟨-, hc⟩
  have : c.toNat ≤ 'Z'.toNat := hc
  have : 'Z'.toNat = 90 := rfl
  omega

/-- A hexadecimal digit is the one of its value, but for its case. -/
theorem hexValue?_eq_some_iff {c : Char} {d : Nat} :
    hexValue? c = some d ↔ d < 16 ∧ c.toLower = Nat.digitChar d := by
  by_cases hd : d < 16
  · simp only [hd, true_and]
    by_cases hc : c.toNat < 128
    · have key := hexValue?_eq_some_iff_of_ascii c.toNat hc d hd
      rwa [Char.ofNat_toNat] at key
    · have hc : 128 ≤ c.toNat := by omega
      rw [hexValue?_eq_none_of_not_ascii hc, toLower_eq_self_of_not_ascii hc]
      constructor
      · intro h
        cases h
      · rintro rfl
        have := toNat_digitChar_lt d hd
        omega
  · constructor
    · intro h
      exact absurd (hexValue?_lt h) hd
    · rintro ⟨h, -⟩
      exact absurd h hd

/-! ## Digits in a row -/

theorem length_hexDigits_eq_iff {w n : Nat} (hw : 0 < w) :
    (hexDigits w n).length = w ↔ n < 16 ^ w := by
  rw [← Nat.length_toDigits_le_iff (by decide) hw]
  simp only [hexDigits, List.length_append, List.length_replicate]
  omega

theorem hexDigits_one {n : Nat} (h : n < 16) : hexDigits 1 n = [Nat.digitChar n] := by
  simp only [hexDigits, Nat.toDigits_of_lt_base h, List.length_singleton, Nat.sub_self,
    List.replicate_zero, List.nil_append]

/-- The last digit, and those before it. -/
theorem hexDigits_succ {w : Nat} (hw : 0 < w) (n : Nat) :
    hexDigits (w + 1) n = hexDigits w (n / 16) ++ [Nat.digitChar (n % 16)] := by
  unfold hexDigits
  by_cases h : n < 16
  · have e : w = w - 1 + 1 := by omega
    rw [Nat.toDigits_of_lt_base h, Nat.div_eq_of_lt h, Nat.toDigits_of_lt_base (by decide),
      Nat.mod_eq_of_lt h]
    show List.replicate w '0' ++ _ = List.replicate (w - 1) '0' ++ ['0'] ++ _
    rw [← List.replicate_succ', ← e]
  · rw [Nat.toDigits_of_base_le (by decide) (by omega)]
    simp only [List.length_append, List.length_singleton, Nat.add_sub_add_right, List.append_assoc]

namespace Hexadecimal

variable {digits : Text} {c : Char} {n : Nat}

/-- The number fits in its digits. -/
theorem lt (h : Hexadecimal digits n) (hne : 0 < digits.length) : n < 16 ^ digits.length := by
  have hlength := congrArg List.length h
  rw [List.length_map] at hlength
  exact (length_hexDigits_eq_iff hne).1 hlength.symm

theorem singleton_iff : Hexadecimal [c] n ↔ n < 16 ∧ c.toLower = Nat.digitChar n := by
  constructor
  · intro h
    have hn : n < 16 := h.lt Nat.zero_lt_one
    unfold Hexadecimal at h
    rw [List.length_singleton, hexDigits_one hn, List.map_singleton, List.singleton_inj] at h
    exact ⟨hn, h⟩
  · rintro ⟨hn, hc⟩
    unfold Hexadecimal
    rw [List.length_singleton, hexDigits_one hn, List.map_singleton, hc]

theorem concat_iff (hne : digits ≠ []) : Hexadecimal (digits ++ [c]) n ↔
    Hexadecimal digits (n / 16) ∧ c.toLower = Nat.digitChar (n % 16) := by
  unfold Hexadecimal
  rw [List.map_append, List.map_singleton, List.length_append, List.length_singleton,
    hexDigits_succ (List.length_pos_iff.2 hne), List.append_singleton_inj]

/-- A number that fits is spelled by its own digits. -/
theorem of_lt {w : Nat} (hw : 0 < w) (h : n < 16 ^ w) : Hexadecimal (hexDigits w n) n := by
  induction w, hw using Nat.le_induction generalizing n with
  | base =>
    rw [hexDigits_one h, singleton_iff]
    exact ⟨h, toLower_digitChar n h⟩
  | succ w hw ih =>
    have hquotient : n / 16 < 16 ^ w := by
      rw [Nat.div_lt_iff_lt_mul (by decide), ← Nat.pow_succ]
      exact h
    have hne : hexDigits w (n / 16) ≠ [] := by
      rw [← List.length_pos_iff, (length_hexDigits_eq_iff hw).2 hquotient]
      exact hw
    rw [hexDigits_succ hw, concat_iff hne]
    exact ⟨ih hquotient, toLower_digitChar _ (Nat.mod_lt _ (by decide))⟩

end Hexadecimal

theorem exists_hexadecimal_iff {w n : Nat} (hw : 0 < w) :
    (∃ digits : Text, digits.length = w ∧ Hexadecimal digits n) ↔ n < 16 ^ w := by
  constructor
  · rintro ⟨digits, rfl, h⟩
    exact h.lt hw
  · intro h
    exact ⟨hexDigits w n, (length_hexDigits_eq_iff hw).2 h, .of_lt hw h⟩

/-! ## Reading -/

namespace CodePoint

theorem readFrom_append (value : Nat) (s t : Text) :
    readFrom value (s ++ t) = (readFrom value s).bind (readFrom · t) := by
  induction s generalizing value with
  | nil => rfl
  | cons c s ih =>
    show (hexValue? c).bind (fun d => readFrom (value * 16 + d) (s ++ t)) =
      ((hexValue? c).bind (fun d => readFrom (value * 16 + d) s)).bind _
    simp only [ih, Option.bind_assoc]

/-- The last digit is the remainder of the number. -/
theorem readFrom_concat_eq_some_iff {digits : Text} {c : Char} {n : Nat} :
    readFrom 0 (digits ++ [c]) = some n ↔
      readFrom 0 digits = some (n / 16) ∧ c.toLower = Nat.digitChar (n % 16) := by
  simp only [readFrom_append, readFrom, Option.bind_eq_some_iff, Option.some.injEq,
    hexValue?_eq_some_iff]
  constructor
  · rintro ⟨v, hv, d, ⟨hd, hc⟩, rfl⟩
    have hquotient : (v * 16 + d) / 16 = v := by omega
    have hrest : (v * 16 + d) % 16 = d := by omega
    rw [hquotient, hrest]
    exact ⟨hv, hc⟩
  · rintro ⟨hv, hc⟩
    exact ⟨n / 16, hv, n % 16, ⟨Nat.mod_lt _ (by decide), hc⟩, by omega⟩

/-- Digits are read as the number they spell, at any length. -/
theorem readFrom_eq_some_iff {digits : Text} (hne : digits ≠ []) {n : Nat} :
    readFrom 0 digits = some n ↔ Hexadecimal digits n := by
  -- digits are read from the left, but a number is split at its last digit
  induction digits using List.reverseRecOn generalizing n with
  | nil => exact absurd rfl hne
  | append_singleton digits c ih =>
    rw [readFrom_concat_eq_some_iff]
    by_cases hdigits : digits = []
    · subst hdigits
      rw [List.nil_append, Hexadecimal.singleton_iff, readFrom, Option.some.injEq]
      constructor
      · rintro ⟨hn, hc⟩
        have hlt : n < 16 := by omega
        rw [Nat.mod_eq_of_lt hlt] at hc
        exact ⟨hlt, hc⟩
      · rintro ⟨hn, hc⟩
        rw [Nat.mod_eq_of_lt hn]
        exact ⟨by omega, hc⟩
    · rw [ih hdigits, Hexadecimal.concat_iff hdigits]

/-- Well-formed digits are no case for the replacement character. -/
theorem read_of_hexadecimal {digits : Text} {n : Nat} (hne : 0 < digits.length)
    (h : Hexadecimal digits n) : read digits = n := by
  unfold read
  rw [(readFrom_eq_some_iff (List.length_pos_iff.1 hne)).2 h, Option.getD_some]

end CodePoint

end XPathAssembly
