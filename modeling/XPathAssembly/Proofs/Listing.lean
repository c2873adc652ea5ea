import XPathAssembly.Proofs.Layout.Parts
import XPathAssembly.Proofs.Listing.OnePass

/-!
# Listings of chains

Nothing in a chain is a floating-point number and every name in its listing is on one line, so that
a chain that is finite and live is always listed, and as one pass over it writes.

    s.IsConcatenation head es → s.concatenation head = .ok es          (concatenation_eq)
    s.IsConcatenation head es → s.listing head = .ok ((chainListing es).printAt 0)    (listing_eq)
-/

namespace XPathAssembly

open Listing.Value in
theorem Segment.isPlain_listing (g : Segment) : g.listing.IsPlain := by
  refine .entity (by decide) (by simp only [List.forall_mem_cons]; decide) ?_
  simp only [List.forall_mem_cons, List.not_mem_nil, false_implies, implies_true, and_true]
  exact ⟨.bytes _, .text _, .list (List.forall_mem_map.2 fun t _ => .text t)⟩

namespace Store

variable {s : Store} {head : Option Handle} {hs heads : List Handle} {gs : List Segment}
  {es : List (List Segment)}

theorem isPlain_chainListing (es : List (List Segment)) : (chainListing es).IsPlain :=
  .list (List.forall_mem_map.2 fun _ _ =>
    .list (List.forall_mem_map.2 fun g _ => g.isPlain_listing))

theorem segmentsAt_eq (hg : hs.map s.get? = gs.map some) : s.segmentsAt hs = .ok gs := by
  induction hs generalizing gs with
  | nil =>
    rw [List.map_eq_nil_iff.1 hg.symm]
    rfl
  | cons h rest ih =>
    cases gs with
    | nil => cases hg
    | cons g gs =>
      rw [List.map_cons, List.map_cons, List.cons.injEq] at hg
      unfold segmentsAt segmentOf
      rw [hg.1, ih hg.2]
      rfl

theorem expressionsAt_eq (he : List.Forall₂ (fun h gs => s.IsExpression (some h) gs) heads es) :
    s.expressionsAt heads = .ok es := by
  induction he with
  | nil => rfl
  | cons hgs _ ih =>
    obtain ⟨hs, hl, hg⟩ := hgs
    unfold expressionsAt
    rw [hl.walk_eq, segmentsAt_eq hg, ih]
    rfl

theorem concatenation_eq (hc : s.IsConcatenation head es) : s.concatenation head = .ok es := by
  obtain ⟨heads, hl, he⟩ := hc
  have hchain : (!s.isChain head) = false := by rw [hl.isChain]; rfl
  unfold concatenation
  rw [hchain, hl.walk_eq, expressionsAt_eq he]
  rfl

/-- A chain is listed as the list of its expressions. -/
theorem listing_eq (hc : s.IsConcatenation head es) :
    s.listing head = .ok ((chainListing es).printAt 0) := by
  unfold listing
  rw [concatenation_eq hc]
  show Except.ok ((chainListing es).print.toOption.getD []) = _
  rw [(isPlain_chainListing es).print_eq]
  rfl

end Store

end XPathAssembly
