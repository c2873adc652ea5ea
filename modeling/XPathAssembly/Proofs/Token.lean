import XPathAssembly.Segment

/-!
# Valid ranges

A token becomes a segment if its range lies in the source and, for a quoted literal, between two
quotation marks of one sort.  A valid range is never refused, and has a segment unless it is that
of a statement terminator.

    IsValid source r kind →
      segment? source r kind = .ok (taken? source r kind)             (segment?_of_isValid)
    segment? source r .quoted = .ok answer → r.start + 2 ≤ r.stop       (bounds_of_segment?)
-/

namespace XPathAssembly

/-- A range of the source that a token of the kind may have: a quoted one lies between two marks of
one sort. -/
structure Token.IsValid (source : Text) (r : Token.Range) (kind : Kind) : Prop where
  start_nonneg : 0 ≤ r.start
  start_le : r.start ≤ r.stop
  stop_le : r.stop ≤ source.length
  delimited : kind = .quoted → 2 ≤ r.stop - r.start ∧ ∃ q, Token.isMark q ∧
    source[r.start.toNat]? = some q ∧ source[(r.stop - 1).toNat]? = some q

namespace Token

variable {source : Text} {r : Range} {kind : Kind}

theorem charAt?_of_nonneg {i : Int} (h0 : 0 ≤ i) : charAt? source i = source[i.toNat]? :=
  if_pos h0

theorem checkQuotes_of_isValid (hv : IsValid source r kind) (hq : kind = .quoted) :
    checkQuotes source r = .ok () := by
  obtain ⟨hlen, q, hm, hfirst, hlast⟩ := hv.delimited hq
  have h0 := hv.start_nonneg
  unfold checkQuotes
  rw [if_neg (by omega), charAt?_of_nonneg h0, hfirst, charAt?_of_nonneg (by omega), hlast]
  simp [hm]

/-- The segment of a range that is not refused. -/
def taken? (source : Text) (r : Range) : Kind → Option Segment
  | .eos => none
  | .quoted =>
    some (.ofBytes (Escape.decode (slice source (r.start.toNat + 1) (r.stop.toNat - 1))) .quoted)
  | kind => some (.ofText (slice source r.start.toNat r.stop.toNat) kind)

theorem segment?_of_isValid (hv : IsValid source r kind) :
    segment? source r kind = .ok (taken? source r kind) := by
  have hrange : (!(decide (0 ≤ r.start) && decide (r.start ≤ r.stop) &&
      decide (r.stop ≤ source.length))) = false := by
    simp [hv.start_nonneg, hv.start_le, hv.stop_le]
  unfold segment?
  simp only [hrange]
  by_cases hq : kind = .quoted
  · rw [if_pos hq, checkQuotes_of_isValid hv hq]
    subst hq
    rfl
  · rw [if_neg hq]
    cases kind <;> rfl

/-- A valid range that is no terminator has a segment. -/
theorem exists_segment (hv : IsValid source r kind) (hkind : kind ≠ .eos) :
    ∃ g, segment? source r kind = .ok (some g) := by
  rw [segment?_of_isValid hv]
  cases kind with
  | eos => exact absurd rfl hkind
  | _ => exact ⟨_, rfl⟩

/-- Whatever the range is, if it is not refused its segment is the one that it should have. -/
theorem taken?_of_segment? {answer : Option Segment} (hg : segment? source r kind = .ok answer) :
    answer = taken? source r kind := by
  have htaken {x : Except Fault (Option Segment)} (hx : x = .ok (taken? source r kind))
      (hg : x = .ok answer) : answer = taken? source r kind :=
    Except.ok.inj (hg.symm.trans hx)
  unfold segment? at hg
  simp only [bind, Except.bind] at hg
  split at hg
  · split at hg
    · cases hg
    · split at hg
      · cases hg
      · exact htaken (by cases kind <;> rfl) hg
  · split at hg
    · cases hg
    · exact htaken (by cases kind <;> rfl) hg

theorem two_le_of_checkQuotes (h : checkQuotes source r = .ok ()) : 2 ≤ r.stop - r.start := by
  unfold checkQuotes at h
  split at h
  · cases h
  · omega

/-- A quoted token that is not refused is a range of at least two characters. -/
theorem bounds_of_segment? {answer : Option Segment}
    (hg : segment? source r .quoted = .ok answer) :
    0 ≤ r.start ∧ r.start + 2 ≤ r.stop ∧ r.stop ≤ source.length := by
  unfold segment? at hg
  rw [if_pos rfl] at hg
  cases hc : checkQuotes source r with
  | error f =>
    rw [hc] at hg
    cases hg
  | ok u =>
    have hlength := two_le_of_checkQuotes hc
    rw [hc] at hg
    simp only [bind, Except.bind] at hg
    split at hg
    · cases hg
    · next hrange =>
      simp only [Bool.not_eq_true', Bool.not_eq_false, Bool.and_eq_true, decide_eq_true_eq]
        at hrange
      omega

/-- A range of at least two characters is its inside between two characters. -/
theorem slice_eq_cons_append {start stop : Nat} (hlt : start + 2 ≤ stop)
    (hstop : stop ≤ source.length) :
    ∃ first last, slice source start stop =
      first :: (slice source (start + 1) (stop - 1) ++ [last]) := by
  obtain ⟨stop, rfl⟩ : ∃ n, stop = n + 1 := ⟨stop - 1, by omega⟩
  have hlength : (source.take stop).length = stop := by
    rw [List.length_take]
    omega
  have hstart : start < (source.take stop).length := by omega
  refine ⟨(source.take stop)[start], source[stop], ?_⟩
  unfold slice
  rw [← List.take_append_getElem (l := source) (i := stop) (by omega),
    List.drop_append_of_le_length (Nat.le_of_lt hstart), List.drop_eq_getElem_cons hstart,
    List.cons_append, Nat.add_sub_cancel]

/-- The segment of a token has the kind of the token and the marks of its text. -/
theorem exists_ofBytes_of_segment? {g : Segment} (hg : segment? source r kind = .ok (some g)) :
    ∃ text, g = .ofBytes text kind := by
  have htaken := taken?_of_segment? hg
  cases kind with
  | eos => cases htaken
  | _ => exact ⟨_, Option.some.inj htaken⟩

end Token

end XPathAssembly
