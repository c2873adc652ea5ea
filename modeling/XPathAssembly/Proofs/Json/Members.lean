import Mathlib.Data.List.Nodup
import XPathAssembly.Proofs.Json.Grammar

/-!
# The members of an object

An object has each of its keys once, where the key first occurred, with the value of the last member
that has the key.

    (putMembers [] ms).map Prod.fst = (ms.map Prod.fst).eraseDups              (keys_putMembers)
    (Json.object (putMembers [] ms)).member? key =
      (ms.reverse.find? fun m => m.1 = Point.ofText key).map Prod.snd          (member?_putMembers)
-/

namespace XPathAssembly

namespace Json

variable {key key' : List Point} {v : Json} {ms had : List (List Point × Json)}

theorem putMembers_concat (had ms : List (List Point × Json)) (m : List Point × Json) :
    putMembers had (ms ++ [m]) = putMember m.1 m.2 (putMembers had ms) :=
  List.foldl_concat _ _ _ _

theorem keys_putMember (key : List Point) (v : Json) (ms : List (List Point × Json)) :
    (putMember key v ms).map Prod.fst =
      if key ∈ ms.map Prod.fst then ms.map Prod.fst else ms.map Prod.fst ++ [key] := by
  induction ms with
  | nil => rfl
  | cons m ms ih =>
    rw [putMember]
    by_cases hm : m.1 = key
    · rw [if_pos hm, if_pos (by simp [hm])]
      rfl
    · rw [if_neg hm, List.map_cons, ih]
      simp only [List.map_cons, List.mem_cons, Ne.symm hm, false_or]
      split_ifs <;> rfl

theorem find?_putMember (key key' : List Point) (v : Json) (ms : List (List Point × Json)) :
    (putMember key v ms).find? (fun m => m.1 = key') =
      if key = key' then some (key, v) else ms.find? (fun m => m.1 = key') := by
  induction ms with
  | nil => by_cases hk : key = key' <;> simp [putMember, hk]
  | cons m ms ih =>
    rw [putMember]
    by_cases hm : m.1 = key
    · rw [if_pos hm, hm]
      by_cases hk : key = key'
      · simp [hk]
      · simp [hm, hk]
    · rw [if_neg hm]
      by_cases hm' : m.1 = key'
      · have hk : key ≠ key' := fun hk => hm (hm'.trans hk.symm)
        rw [if_neg hk, List.find?_cons_of_pos (by simpa using hm'),
          List.find?_cons_of_pos (by simpa using hm')]
      · rw [List.find?_cons_of_neg (by simpa using hm'), ih,
          List.find?_cons_of_neg (by simpa using hm')]

/-- The keys stand in the order of their first occurrence. -/
theorem keys_putMembers (ms : List (List Point × Json)) :
    (putMembers [] ms).map Prod.fst = (ms.map Prod.fst).eraseDups := by
  induction ms using List.reverseRecOn with
  | nil => rfl
  | append_singleton ms m ih =>
    rw [putMembers_concat, keys_putMember, ih, List.map_append, List.eraseDups_append]
    by_cases hm : m.1 ∈ ms.map Prod.fst
    · rw [if_pos (List.mem_eraseDups.2 hm)]
      simp [List.removeAll, hm]
    · rw [if_neg fun h => hm (List.mem_eraseDups.1 h)]
      simp [List.removeAll, hm, List.eraseDups_cons]

theorem nodup_keys (ms : List (List Point × Json)) : ((putMembers [] ms).map Prod.fst).Nodup := by
  induction ms using List.reverseRecOn with
  | nil => exact .nil
  | append_singleton ms m ih =>
    rw [putMembers_concat, keys_putMember]
    split_ifs with hm
    · exact ih
    · exact ih.append (List.nodup_singleton _) (List.disjoint_singleton.2 hm)

/-- The value of a key is that of its last member. -/
theorem find?_putMembers (ms : List (List Point × Json)) (key : List Point) :
    (putMembers [] ms).find? (fun m => m.1 = key) = ms.reverse.find? fun m => m.1 = key := by
  induction ms using List.reverseRecOn with
  | nil => rfl
  | append_singleton ms m ih =>
    rw [putMembers_concat, find?_putMember, ih, List.reverse_concat]
    by_cases hm : m.1 = key
    · rw [if_pos hm, List.find?_cons_of_pos (by simpa using hm)]
    · rw [if_neg hm, List.find?_cons_of_neg (by simpa using hm)]

theorem member?_putMembers (ms : List (List Point × Json)) (key : Text) :
    (Json.object (putMembers [] ms)).member? key =
      (ms.reverse.find? fun m => m.1 = Point.ofText key).map Prod.snd := by
  rw [member?, find?_putMembers]

end Json

end XPathAssembly
