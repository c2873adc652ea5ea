import XPathAssembly.Segment

/-!
# The marks of a text

The pass over a text that ends at the first mark of a second sort finds the marks that occur in the
text: it has seen nothing but one sort of mark so far, and the second sort decides all.

    (Marks.ofBytes bs).both ↔ singleMark ∈ bs ∧ doubleMark ∈ bs      (both_ofBytes_iff)
-/

namespace XPathAssembly

namespace Marks

theorem names_injective {m m' : Marks} (h : m.names = m'.names) : m = m' := by
  obtain ⟨single, double, both⟩ := m
  obtain ⟨single', double', both'⟩ := m'
  revert single double both single' double' both'
  decide

/-- The marks that occur in a text. -/
def occurring (bs : Bytes) : Marks where
  single := singleMark ∈ bs
  double := doubleMark ∈ bs
  both := singleMark ∈ bs ∧ doubleMark ∈ bs

theorem occurring_congr {bs cs : Bytes} (h1 : singleMark ∈ bs ↔ singleMark ∈ cs)
    (h2 : doubleMark ∈ bs ↔ doubleMark ∈ cs) : occurring bs = occurring cs := by
  unfold occurring
  simp only [h1, h2]

theorem singleMark_ne_doubleMark : singleMark ≠ doubleMark := by decide

/-- The pass that has seen the mark `seen`, if any, finds the marks of all that it has read. -/
theorem scan_eq {seen : Option UInt8} (hs : ∀ q, seen = some q → q = singleMark ∨ q = doubleMark)
    (bs : Bytes) : scan seen bs = occurring (seen.toList ++ bs) := by
  induction bs generalizing seen with
  | nil =>
    cases seen with
    | none => rfl
    | some q => rcases hs q rfl with rfl | rfl <;> rfl
  | cons b rest ih =>
    unfold scan
    by_cases hb : b = singleMark ∨ b = doubleMark
    · rw [if_pos hb]
      have hmark : ∀ q, some b = some q → q = singleMark ∨ q = doubleMark := by
        rintro q ⟨⟩
        exact hb
      cases seen with
      | none => rw [if_pos (.inl rfl), ih hmark]; rfl
      | some q =>
        by_cases hq : q = b
        · subst hq
          rw [if_pos (.inr rfl), ih hmark]
          exact occurring_congr (by simp) (by simp)
        · rw [if_neg (by simp [hq])]
          have hne := singleMark_ne_doubleMark
          rcases hs q rfl with rfl | rfl <;> rcases hb with rfl | rfl <;> simp_all [occurring]
    · rw [if_neg hb, ih hs]
      rw [not_or] at hb
      exact occurring_congr (by simp [Ne.symm hb.1]) (by simp [Ne.symm hb.2])

theorem ofBytes_eq (bs : Bytes) : ofBytes bs = occurring bs :=
  scan_eq (fun _ hq => by cases hq) bs

theorem single_ofBytes_iff {bs : Bytes} : (ofBytes bs).single ↔ singleMark ∈ bs := by
  rw [ofBytes_eq]
  simp [occurring]

theorem double_ofBytes_iff {bs : Bytes} : (ofBytes bs).double ↔ doubleMark ∈ bs := by
  rw [ofBytes_eq]
  simp [occurring]

theorem both_ofBytes_iff {bs : Bytes} :
    (ofBytes bs).both ↔ singleMark ∈ bs ∧ doubleMark ∈ bs := by
  rw [ofBytes_eq]
  simp [occurring]

end Marks

end XPathAssembly
