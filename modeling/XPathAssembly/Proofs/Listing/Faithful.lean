import XPathAssembly.Proofs.Listing
import XPathAssembly.Proofs.Marks
import XPathAssembly.Proofs.Text.PrefixCode

/-!
# What a listing of a chain tells

The listing of a chain tells the segments of its expressions, and nothing else: after an element of
a list there is a comma or the closing bracket, the fields of a segment are literals, which tell
where they end, and lists of such.

    IsPrefixCode (fun a => (g a).printAt (d + 1)) →
      IsPrefixCode fun as => (Value.list (as.map g)).printAt d              (isPrefixCode_list)
    IsPrefixCode fun es => (chainListing es).printAt d            (isPrefixCode_chainListing)
-/

namespace XPathAssembly

namespace Kind

theorem name_injective {k k' : Kind} (h : k.name = k'.name) : k = k' := by
  have hread := ofName?_name k
  rw [h, ofName?_name] at hread
  exact (Option.some.inj hread).symm

end Kind

namespace Listing

open Value

variable {α : Type} {d : Nat}

/-! ## Lists -/

theorem isPrefixCode_list {g : α → Value} (hg : IsPrefixCode fun a => (g a).printAt (d + 1)) :
    IsPrefixCode fun as : List α => (Value.list (as.map g)).printAt d := by
  have hempty : (Value.list ([].map g)).printAt d = ['[', ']'] := rfl
  have hcons (a : α) (as : List α) (s : Text) :
      (Value.list ((a :: as).map g)).printAt d ++ s = '[' :: '\n' ::
        (onLines ((a :: as).map fun a => tab (d + 1) ++ (g a).printAt (d + 1)) ++ ']' :: s) := by
    have hne : (a :: as).map g ≠ [] := List.cons_ne_nil _ _
    rw [printAt_list d hne, List.map_map]
    unfold bracketed
    simp only [List.append_assoc, List.cons_append, List.nil_append]
    rfl
  intro as bs s t h
  cases as with
  | nil =>
    cases bs with
    | nil => exact ⟨rfl, List.append_cancel_left h⟩
    | cons b bs =>
      simp only [hempty, hcons] at h
      cases h
  | cons a as =>
    cases bs with
    | nil =>
      simp only [hempty, hcons] at h
      cases h
    | cons b bs =>
      simp only [hcons] at h
      exact intercalate_append_inj (fun a _ => (hg.after _).tells a) (by decide)
        (List.cons.inj (List.cons.inj h).2).2

end Listing

/-! ## Chains -/

open Listing Listing.Value

theorem Segment.isPrefixCode_listing (d : Nat) :
    IsPrefixCode fun g : Segment => g.listing.printAt d := by
  have hmarks : IsPrefixCode fun ts : List Text => (Value.list (ts.map .text)).printAt (d + 1) :=
    isPrefixCode_list Quoted.isPrefixCode_text
  intro g g' s t h
  simp only [Segment.listing, printAt_entity _ _ (List.cons_ne_nil _ _), bracketed, List.map_cons,
    List.map_nil, onLines_cons _ (List.cons_ne_nil _ _), onLines_singleton, propertyAt,
    List.append_assoc, List.cons_append, List.nil_append, List.append_cancel_left_eq,
    List.cons.injEq, true_and] at h
  -- what stands between two fields is the same in both
  obtain ⟨htext, h⟩ := Quoted.isPrefixCode_bytes h
  simp only [List.append_cancel_left_eq, List.cons.injEq, true_and] at h
  obtain ⟨hkind, h⟩ := Quoted.isPrefixCode_text h
  simp only [List.append_cancel_left_eq, List.cons.injEq, true_and] at h
  obtain ⟨hnames, hrest⟩ := hmarks h
  obtain ⟨text, kind, marks⟩ := g
  obtain ⟨text', kind', marks'⟩ := g'
  obtain rfl : text = text' := htext
  obtain rfl : kind = kind' := Kind.name_injective hkind
  obtain rfl : marks = marks' := Marks.names_injective hnames
  exact ⟨rfl, (List.cons.inj hrest).2⟩

namespace Store

variable {s s' : Store} {head head' : Option Handle} {es es' : List (List Segment)}

theorem isPrefixCode_chainListing (d : Nat) :
    IsPrefixCode fun es => (chainListing es).printAt d :=
  isPrefixCode_list (isPrefixCode_list (Segment.isPrefixCode_listing (d + 2)))

/-- **The listing of a chain tells the chain.**  Chains in any two stores, at any handles, are
listed alike if and only if they are the same lists of the same segments. -/
theorem listing_eq_iff (hc : s.IsConcatenation head es) (hc' : s'.IsConcatenation head' es') :
    ∃ t t', s.listing head = .ok t ∧ s'.listing head' = .ok t' ∧ (t = t' ↔ es = es') := by
  refine ⟨_, _, listing_eq hc, listing_eq hc', fun h => ?_, fun h => h ▸ rfl⟩
  exact (isPrefixCode_chainListing 0).injective h

/-- A name and a literal with an apostrophe. -/
def nameAndApostrophe : Store where
  cells := #[⟨some (.ofText "foo".toList .bare), none, some 1⟩,
    ⟨some (.ofText "it's".toList .quoted), none, none⟩]

/-- The same chain at other handles. -/
def scattered : Store where
  cells := #[⟨some (.ofText "it's".toList .quoted), none, none⟩, ⟨none, none, none⟩,
    ⟨some (.ofText "foo".toList .bare), none, some 0⟩]
  vacant := [1]

/-- The literal has lost its mark. -/
def unmarked : Store where
  cells := #[⟨some (.ofText "foo".toList .bare), none, some 1⟩,
    ⟨some { text := utf8 "it's".toList, kind := .quoted, marks := {} }, none, none⟩]

theorem isConcatenation_nameAndApostrophe : nameAndApostrophe.IsConcatenation (some 0)
    [[.ofText "foo".toList .bare], [.ofText "it's".toList .quoted]] :=
  ⟨[0, 1], ⟨rfl, rfl, rfl, rfl, rfl⟩,
    .cons ⟨[0], ⟨rfl, rfl, rfl⟩, rfl⟩ (.cons ⟨[1], ⟨rfl, rfl, rfl⟩, rfl⟩ .nil)⟩

theorem isConcatenation_scattered : scattered.IsConcatenation (some 2)
    [[.ofText "foo".toList .bare], [.ofText "it's".toList .quoted]] :=
  ⟨[2, 0], ⟨rfl, rfl, rfl, rfl, rfl⟩,
    .cons ⟨[2], ⟨rfl, rfl, rfl⟩, rfl⟩ (.cons ⟨[0], ⟨rfl, rfl, rfl⟩, rfl⟩ .nil)⟩

theorem isConcatenation_unmarked : unmarked.IsConcatenation (some 0)
    [[.ofText "foo".toList .bare], [⟨utf8 "it's".toList, .quoted, {}⟩]] :=
  ⟨[0, 1], ⟨rfl, rfl, rfl, rfl, rfl⟩,
    .cons ⟨[0], ⟨rfl, rfl, rfl⟩, rfl⟩ (.cons ⟨[1], ⟨rfl, rfl, rfl⟩, rfl⟩ .nil)⟩

/-- The listing shows neither the handles nor the vacant cell, but the mark. -/
theorem listing_scattered :
    scattered.listing (some 2) = nameAndApostrophe.listing (some 0) ∧
      scattered.listing (some 2) ≠ unmarked.listing (some 0) := by
  obtain ⟨t, t', ht, ht', heq⟩ :=
    listing_eq_iff isConcatenation_scattered isConcatenation_nameAndApostrophe
  obtain ⟨u, u', hu, hu', hne⟩ := listing_eq_iff isConcatenation_scattered isConcatenation_unmarked
  refine ⟨?_, fun h => ?_⟩
  · rw [ht, ht', heq.2 rfl]
  · rw [hu, hu', Except.ok.injEq, hne] at h
    exact absurd h (by decide)

end Store

end XPathAssembly
