import XPathAssembly.Json.Value
import XPathAssembly.Proofs.Text.Quoted

/-!
# Values on one line

However a value is nested, it is shown on one line: its strings and its keys are quoted, and numbers
are digits, signs and points.

    OneLine x.shown                                                        (Json.oneLine_shown)
-/

namespace XPathAssembly

/-! ## Numbers -/

namespace Binary

variable {digits : Text}

theorem oneLine_positional (hd : OneLine digits) (point : Int) :
    OneLine (positional digits point) := by
  unfold positional
  split_ifs
  · exact .cons rfl (.cons rfl ((OneLine.replicate _ rfl).append hd))
  · exact (hd.append (.replicate _ rfl)).append (by decide)
  · exact (hd.of_subset (List.take_subset _ _)).append
      (.cons rfl (hd.of_subset (List.drop_subset _ _)))

theorem oneLine_exponential (hd : OneLine digits) (exponent : Int) :
    OneLine (exponential digits exponent) := by
  have htail : OneLine (digits.drop 1) := hd.of_subset (List.drop_subset 1 digits)
  have hfraction : OneLine (if (digits.drop 1).isEmpty then [] else '.' :: digits.drop 1) := by
    split_ifs
    · exact .nil
    · exact .cons rfl htail
  have hsign : endsLine (if exponent < 0 then '-' else '+') = false := by
    split_ifs <;> rfl
  have hwidth {t : Text} (ht : OneLine t) (w : Nat) : OneLine (padded w t) :=
    (OneLine.replicate _ rfl).append ht
  exact ((hd.of_subset (List.take_subset 1 digits)).append hfraction).append
    (.cons rfl (.cons hsign (hwidth (.toDigits (by decide) (by decide) _) _)))

theorem Decimal.oneLine_written (d : Decimal) : OneLine d.written := by
  have hdigits : OneLine (Nat.toDigits 10 d.digits) := .toDigits (by decide) (by decide) _
  unfold Decimal.written
  simp only
  split_ifs
  · exact oneLine_positional hdigits _
  · exact oneLine_exponential hdigits _

theorem oneLine_signed {t : Text} (ht : OneLine t) (negative : Bool) :
    OneLine (signed negative t) := by
  unfold signed
  split_ifs
  · exact .cons rfl ht
  · exact ht

theorem oneLine_written (x : Binary) : OneLine x.written := by
  match x with
  | nan => decide
  | infinite negative => exact oneLine_signed (by decide) negative
  | finite negative 0 _ => exact oneLine_signed (by decide) negative
  | finite negative (m + 1) q => exact oneLine_signed (Decimal.oneLine_written _) negative

end Binary

/-! ## Values -/

namespace Json

theorem oneLine_enclosed {opening closing : Char} {ts : List Text} (ho : endsLine opening = false)
    (hc : endsLine closing = false) (ht : ∀ t ∈ ts, OneLine t) :
    OneLine (enclosed opening closing ts) :=
  .cons ho ((OneLine.intercalate (by decide) ht).append (.cons hc .nil))

mutual

theorem oneLine_shown (x : Json) : OneLine x.shown := by
  match x with
  | null => decide
  | bool true => decide
  | bool false => decide
  | integer n => exact .decimal n
  | float x => exact x.oneLine_written
  | string s => exact .points s
  | array xs => exact oneLine_enclosed rfl rfl (oneLine_shownAll xs)
  | object members => exact oneLine_enclosed rfl rfl (oneLine_shownMembers members)

theorem oneLine_shownAll (xs : List Json) : ∀ t ∈ shownAll xs, OneLine t := by
  match xs with
  | [] => exact nofun
  | x :: rest => exact List.forall_mem_cons.2 ⟨oneLine_shown x, oneLine_shownAll rest⟩

theorem oneLine_shownMembers (members : List (List Point × Json)) :
    ∀ t ∈ shownMembers members, OneLine t := by
  match members with
  | [] => exact nofun
  | (k, v) :: rest =>
    refine List.forall_mem_cons.2 ⟨?_, oneLine_shownMembers rest⟩
    exact (OneLine.points k).append (.cons rfl (.cons rfl (oneLine_shown v)))

end

end Json

end XPathAssembly
