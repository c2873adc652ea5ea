import Mathlib.Tactic.SplitIfs
import XPathAssembly.Proofs.Text.Lines
import XPathAssembly.Text.Quoted

/-!
# Quoted literals on one line

A character that ends a line is not printable and is spelled by its code, so that a literal is on
one line, whatever characters it has.

    OneLine (Nat.toDigits b n)                                            (OneLine.toDigits)
    OneLine (Quoted.points ps)                                             (OneLine.points)
    isBlankText (Quoted.literal printable codes) = false         (not_isBlankText_literal)
-/

namespace XPathAssembly

/-! ## Digits -/

theorem endsLine_digitChar : ∀ d < 16, endsLine (Nat.digitChar d) = false := by
  decide

theorem OneLine.toDigits {b : Nat} (hb : 1 < b) (hle : b ≤ 16) (n : Nat) :
    OneLine (Nat.toDigits b n) := by
  induction n using Nat.strongRecOn with
  | ind n ih =>
    by_cases hn : n < b
    · rw [Nat.toDigits_of_lt_base hn]
      exact .cons (endsLine_digitChar n (by omega)) .nil
    · have hpos : 0 < n := by omega
      have hrest : n % b < b := Nat.mod_lt n (by omega)
      rw [Nat.toDigits_of_base_le hb (by omega)]
      exact (ih (n / b) (Nat.div_lt_self hpos hb)).append
        (.cons (endsLine_digitChar _ (by omega)) .nil)

theorem OneLine.decimal (n : Int) : OneLine (decimal n) := by
  cases n with
  | ofNat n => exact .toDigits (by decide) (by decide) n
  | negSucc n => exact .cons rfl (.toDigits (by decide) (by decide) (n + 1))

theorem OneLine.hexDigits (w n : Nat) : OneLine (hexDigits w n) :=
  (OneLine.replicate _ rfl).append (.toDigits (by decide) (by decide) n)

/-! ## Literals -/

namespace Quoted

variable {printable : Nat → Bool} {m : Char}

theorem oneLine_code (n : Nat) : OneLine (code n) := by
  unfold code
  split_ifs <;> exact .cons rfl (.cons rfl (.hexDigits _ n))

/-- A number that is no code point stands for the null character, which ends no line. -/
theorem toNat_eq_of_endsLine {n : Nat} (hn : endsLine (Char.ofNat n)) :
    (Char.ofNat n).toNat = n := by
  by_cases hv : n.isValidChar
  · have hchar : Char.ofNat n = Char.ofNatAux n hv := dif_pos hv
    rw [hchar]
    rfl
  · have hnull : Char.ofNat n = '\x00' := dif_neg hv
    rw [hnull] at hn
    cases hn

theorem oneLine_spell (hp : ∀ c, endsLine c → printable c.toNat = false) (hm : endsLine m = false)
    (n : Nat) : OneLine (spell printable m n) := by
  unfold spell
  split_ifs with hmark _ _ _ hprint
  · refine .cons rfl (.cons ?_ .nil)
    rcases hmark with rfl | rfl
    · rfl
    · rwa [Char.ofNat_toNat]
  · decide
  · decide
  · decide
  · refine .cons (Bool.eq_false_iff.2 fun hends => ?_) .nil
    have hnot := hp _ hends
    rw [toNat_eq_of_endsLine hends, hprint] at hnot
    cases hnot
  · exact oneLine_code n

theorem mark_eq (single double : Bool) : mark single double = '"' ∨ mark single double = '\'' := by
  unfold mark
  split_ifs
  · exact .inl rfl
  · exact .inr rfl

theorem oneLine_literal (hp : ∀ c, endsLine c → printable c.toNat = false) (codes : List Nat) :
    OneLine (literal printable codes) := by
  have hmark {single double : Bool} : endsLine (mark single double) = false := by
    rcases mark_eq single double with h | h <;> rw [h] <;> rfl
  refine .cons hmark (.append ?_ (.cons hmark .nil))
  rw [List.flatMap_def]
  refine .flatten (List.forall_mem_map.2 fun n _ => ?_)
  exact oneLine_spell hp hmark n

theorem not_isBlankText_literal (codes : List Nat) :
    isBlankText (literal printable codes) = false := by
  unfold literal between
  rcases mark_eq ('\''.toNat ∈ codes) ('"'.toNat ∈ codes) with h | h <;> rw [h] <;> rfl

end Quoted

theorem OneLine.points (ps : List Point) : OneLine (Quoted.points ps) :=
  Quoted.oneLine_literal (fun _ => not_isPrintable_of_endsLine) _

theorem OneLine.quotedText (t : Text) : OneLine (Quoted.text t) :=
  Quoted.oneLine_literal (fun _ => not_isPrintable_of_endsLine) _

theorem OneLine.quotedBytes (bs : Bytes) : OneLine (Quoted.bytes bs) := by
  refine .cons rfl (Quoted.oneLine_literal (fun c hc => ?_) _)
  simp only [endsLine_iff, List.mem_cons, List.not_mem_nil, or_false] at hc
  rcases hc with h | h | h | h | h | h | h | h | h | h <;> rw [h] <;> rfl

end XPathAssembly
