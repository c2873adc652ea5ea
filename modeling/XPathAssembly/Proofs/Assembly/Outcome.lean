import XPathAssembly.Proofs.Assembly.Construction
import XPathAssembly.Proofs.Layout.Parts
import XPathAssembly.Proofs.Store.Emptying

/-!
# What becomes of an input

Assembling answers each value, and the answer is settled by the value alone.  A value that is no
list of expressions gets the one issue that says so, a list with faults the report on them, a
well-formed input the report on its expressions without segments, and any other input the head of
its chain.

    ∃ answer s, assemble x {} = .ok answer s ∧ IsAnswer answer x              (exists_answer)

The chain mirrors the input: its expressions are those of the input, in order, and each consists of
the segments of its tokens.

    assemble x {} = .ok (.ok head) s →
      ∃ es, x = inputOf es ∧ Mirrors s head es                          (mirrors_of_assemble)
-/

namespace XPathAssembly

namespace Assembly

open Store

/-! ## Definitions -/

/-- What is wrong with a well-formed input: an expression has terminators only. -/
def LacksToken (es : List (List Token)) (p : Place) (message : Text) : Prop :=
  ∃ i e, es[i]? = some e ∧ (∀ t ∈ e, t.kind = .eos) ∧ p = ⟨i, none⟩ ∧
    message = "Expected at least one token which is not a statement terminator".toList

/-- The answer to a list.  Its faults are all reported.  Without faults it consists of tokens that
may be made segments, and has a chain unless expressions would be empty; these are then reported. -/
structure IsListAnswer (xs : List Json) (answer : Except (List Issue) Handle) : Prop where
  faulty : (∃ p message, HasFault xs p message) →
    ∃ issues, answer = .error issues ∧ Reports (HasFault xs) issues
  faultless : (∀ p message, ¬ HasFault xs p message) → ∃ es, .array xs = inputOf es ∧
    (∀ e ∈ es, ∀ t ∈ e, XPathAssembly.Token.IsValid t.text ⟨0, t.text.length⟩ t.kind) ∧
    ((∃ e ∈ es, ∀ t ∈ e, t.kind = .eos) →
      ∃ issues, answer = .error issues ∧ Reports (LacksToken es) issues) ∧
    ((∀ e ∈ es, ∃ t ∈ e, t.kind ≠ .eos) → ∃ head, answer = .ok head)

/-- The answer to a value, which has to be a list and not empty. -/
def IsAnswer (answer : Except (List Issue) Handle) : Json → Prop
  | .array (x :: xs) => IsListAnswer (x :: xs) answer
  | _ => answer = .error [noExpressions]

/-- The chain at `head` has the expressions `es`, and nothing else is in the store. -/
structure Mirrors (s : Store) (head : Handle) (es : List (List Token)) : Prop where
  concatenation : s.IsConcatenation (some head) (es.map segmentsOf)
  /-- Only the heads of expressions have siblings. -/
  siblings : ∀ k, s.isLive k → s.link? .sibling k ≠ none → k ∈ s.walk .sibling (some head)
  size : s.size = es.flatten.countP fun t => t.kind ≠ .eos

variable {es : List (List Token)} {e : List Token} {hss : List (List Handle)} {ks : List Handle}
  {s : Store} {head : Handle} {x : Json}

/-! ## Expressions without segments -/

theorem segmentsOf_eq_nil_iff : segmentsOf e = [] ↔ ∀ t ∈ e, t.kind = .eos := by
  unfold segmentsOf
  rw [List.filterMap_eq_nil_iff]
  exact forall₂_congr fun t _ => Token.segment?_eq_none_iff

theorem length_segmentsOf (e : List Token) :
    (segmentsOf e).length = e.countP fun t => t.kind ≠ .eos := by
  unfold segmentsOf
  rw [List.length_filterMap_eq_countP]
  refine List.countP_congr fun t _ => ?_
  rw [Option.isSome_iff_ne_none, ne_eq, Token.segment?_eq_none_iff, decide_eq_true_eq]

theorem exists_lacksToken_iff :
    (∃ p message, LacksToken es p message) ↔ ∃ e ∈ es, ∀ t ∈ e, t.kind = .eos := by
  constructor
  · rintro ⟨p, message, i, e, he, ht, -, -⟩
    exact ⟨e, List.mem_of_getElem? he, ht⟩
  · rintro ⟨e, hm, ht⟩
    obtain ⟨i, hi⟩ := List.getElem?_of_mem hm
    exact ⟨_, _, i, e, hi, ht, rfl, rfl⟩

/-- The issues of absent heads, the first head being the `i`-th. -/
theorem reports_emptyIssues (i : Nat) (heads : List (Option Handle)) :
    Reports (fun p message => ∃ j, heads[j]? = some none ∧ p = ⟨i + j, none⟩ ∧
        message = "Expected at least one token which is not a statement terminator".toList)
      (emptyIssues i heads) := by
  induction heads generalizing i with
  | nil =>
    refine Reports.nil ?_
    rintro p message ⟨j, hj, -⟩
    simp at hj
  | cons head rest ih =>
    have hshift : ∀ j, i + 1 + j = i + (j + 1) := fun j => by omega
    cases head with
    | some h =>
      refine (ih (i + 1)).congr fun p message => ?_
      constructor
      · rintro ⟨j, hj, rfl, rfl⟩
        exact ⟨j + 1, hj, by rw [hshift], rfl⟩
      · rintro ⟨_ | j, hj, rfl, rfl⟩
        · cases hj
        · exact ⟨j, hj, by rw [hshift], rfl⟩
    | none =>
      refine ((Reports.single ⟨i, none⟩ _).append (ih (i + 1)) ?_).congr fun p message => ?_
      · rintro p message p' message' ⟨rfl, -⟩ ⟨j, -, rfl, -⟩
        exact .expression (by show i < i + 1 + j; omega)
      · constructor
        · rintro (⟨rfl, rfl⟩ | ⟨j, hj, rfl, rfl⟩)
          · exact ⟨0, rfl, rfl, rfl⟩
          · exact ⟨j + 1, hj, by rw [hshift], rfl⟩
        · rintro ⟨_ | j, hj, rfl, rfl⟩
          · exact .inl ⟨rfl, rfl⟩
          · exact .inr ⟨j, hj, by rw [hshift], rfl⟩

/-- What two lists have in common place by place is found at the same places. -/
theorem exists_getElem?_iff {α β : Type} {P : α → Prop} {Q : β → Prop} {as : List α} {bs : List β}
    (h : List.Forall₂ (fun a b => P a ↔ Q b) as bs) (i : Nat) :
    (∃ a, as[i]? = some a ∧ P a) ↔ ∃ b, bs[i]? = some b ∧ Q b := by
  induction h generalizing i with
  | nil => simp
  | cons hab _ ih =>
    cases i with
    | zero => simpa using hab
    | succ i => exact ih i

theorem reports_lacksToken
    (hfound : List.Forall₂ (fun ks e => ks.map s.get? = (segmentsOf e).map some) hss es) :
    Reports (LacksToken es) (emptyIssues 0 (hss.map List.head?)) := by
  have hsame : List.Forall₂ (fun ks e => ks.head? = none ↔ ∀ t ∈ e, t.kind = .eos) hss es := by
    refine hfound.imp fun ks e hke => ?_
    rw [List.head?_eq_none_iff, ← segmentsOf_eq_nil_iff]
    have hlen := congrArg List.length hke
    rw [List.length_map, List.length_map] at hlen
    rw [← List.length_eq_zero_iff, hlen, List.length_eq_zero_iff]
  refine (reports_emptyIssues 0 _).congr fun p message => ?_
  constructor
  · rintro ⟨j, hj, rfl, rfl⟩
    rw [List.getElem?_map, Option.map_eq_some_iff] at hj
    obtain ⟨e, he, ht⟩ := (exists_getElem?_iff hsame j).mp hj
    exact ⟨j, e, he, ht, by rw [Nat.zero_add], rfl⟩
  · rintro ⟨j, e, he, ht, rfl, rfl⟩
    have hj := (exists_getElem?_iff hsame j).mpr ⟨e, he, ht⟩
    rw [← Option.map_eq_some_iff, ← List.getElem?_map] at hj
    exact ⟨j, hj, by rw [Nat.zero_add], rfl⟩

/-! ## The chain -/

/-- What holds of each row holds of its first segment, if no row is empty. -/
theorem forall₂_heads {β : Type} {R : Handle → β → Prop} {bs : List β}
    (h : List.Forall₂ (fun ks b => ∃ k, ks.head? = some k ∧ R k b) hss bs) :
    List.Forall₂ R (hss.filterMap List.head?) bs := by
  induction h with
  | nil => exact .nil
  | cons hkb _ ih =>
    obtain ⟨k, hk, hR⟩ := hkb
    rw [List.filterMap_cons, hk]
    exact .cons hR ih

theorem length_flatten_eq
    (hfound : List.Forall₂ (fun ks e => ks.map s.get? = (segmentsOf e).map some) hss es) :
    hss.flatten.length = es.flatten.countP fun t => t.kind ≠ .eos := by
  induction hfound with
  | nil => rfl
  | cons hke _ ih =>
    have hlen := congrArg List.length hke
    rw [List.length_map, List.length_map, length_segmentsOf] at hlen
    rw [List.flatten_cons, List.flatten_cons, List.length_append, List.countP_append, hlen, ih]

/-- Rows with the segments of the expressions are their chain. -/
theorem mirrors_of_rows (hs : s.Sound) (hne : [] ∉ hss)
    (hh : s.Holds (some head) (Tree.rows hss)) (hl : ∀ k, k ∈ hss.flatten ↔ s.isLive k)
    (hn : hss.flatten.Nodup)
    (hfound : List.Forall₂ (fun ks e => ks.map s.get? = (segmentsOf e).map some) hss es) :
    Mirrors s head es where
  concatenation := by
    refine ⟨_, hh.line_rows, List.forall₂_map_right_iff.mpr (forall₂_heads ?_)⟩
    have hrow : ∀ ks ∈ hss, ∃ k, ks.head? = some k ∧ s.Line .next (some k) ks := by
      intro ks hm
      have hline := hh.line_row hm
      cases ks with
      | nil => exact absurd hm hne
      | cons k rest => exact ⟨k, rfl, hline⟩
    refine ((List.forall₂_and_left hss es).mpr ⟨hrow, hfound⟩).imp ?_
    rintro ks e ⟨⟨k, hk, hline⟩, hke⟩
    exact ⟨k, hk, ks, hline, hke⟩
  siblings k hk hlink := by
    rw [hh.line_rows.walk_eq]
    refine hh.mem_of_link?_rows ?_ hlink
    rw [(Tree.handles_rows hss).mem_iff, hl]
    exact hk
  size := by
    rw [hs.size_eq hn hl]
    exact length_flatten_eq hfound

/-- A well-formed input is built, or reported if one of its expressions would be empty; what was
built for the others is then removed. -/
theorem build_spec (hne : es ≠ []) (ht : ∀ e ∈ es, ∀ t ∈ e, t.WellFormed) :
    (∃ issues s, build es {} = .ok (.error issues) s ∧ issues ≠ [] ∧
        Reports (LacksToken es) issues ∧
        ∃ heads mid hs, buildExpressions es {} = .ok heads mid ∧ mid.Emptied hs s) ∨
      ∃ head s, build es {} = .ok (.ok head) s ∧
        (Reports (LacksToken es) [] ∧ s.Covers [some head]) ∧ Mirrors s head es := by
  obtain ⟨hss, s1, T, hrun, hr, -, hfound⟩ := buildExpressions_spec rowed_empty ht
  rw [List.nil_append] at hr
  have hreport := reports_lacksToken hfound
  unfold build
  rw [Call.bind_apply, hrun]
  cases hi : emptyIssues 0 (hss.map List.head?) with
  | cons issue issues =>
    obtain ⟨hs, s', hdiscard, hempty⟩ := discardAll_of_covers hr.covers
    rw [hi] at hreport
    refine .inl ⟨issue :: issues, s', ?_, List.cons_ne_nil _ _, hreport, _, _, hs, rfl, hempty⟩
    simp only [hi]
    rw [Call.bind_apply, hdiscard]
    rfl
  | nil =>
    rw [hi] at hreport
    have hrows : [] ∉ hss := by
      intro hm
      obtain ⟨j, hj⟩ := List.getElem?_of_mem hm
      have hnone : (hss.map List.head?)[j]? = some none := by rw [List.getElem?_map, hj]; rfl
      exact (reports_emptyIssues 0 _).exists_iff.mp ⟨_, _, j, hnone, rfl, rfl⟩ hi
    obtain ⟨s', hrun', hs', hh, hkept, hl⟩ := concatenate_spec hr hrows
    have hfound' : List.Forall₂ (fun ks e => ks.map s'.get? = (segmentsOf e).map some) hss es := by
      have hlive : ∀ ks ∈ hss, ∀ k ∈ ks, s1.isLive k := fun ks hm k hk =>
        (hr.isLive_iff k).mp (List.mem_flatten.mpr ⟨ks, hm, hk⟩)
      refine ((List.forall₂_and_left hss es).mpr ⟨hlive, hfound⟩).imp ?_
      rintro ks e ⟨hks, hke⟩
      rw [hkept.map_get? hks]
      exact hke
    obtain ⟨head, hhead⟩ : ∃ head, (Tree.rows hss).head? = some head := by
      cases hfound with
      | nil => exact absurd rfl hne
      | @cons ks e hss es _ _ =>
        cases ks with
        | nil => exact absurd List.mem_cons_self hrows
        | cons k ks => exact ⟨k, rfl⟩
    rw [hhead] at hrun' hh
    have hperm := Tree.handles_rows hss
    have hcovers : s'.Covers [some head] :=
      covers_of_holds hs' hh (hperm.nodup_iff.2 hr.nodup) fun k => hperm.mem_iff.trans (hl k)
    refine .inr ⟨head, s', ?_, ⟨hi ▸ hreport, hcovers⟩,
      mirrors_of_rows hs' hrows hh hl hr.nodup hfound'⟩
    simp only [hi]
    rw [Call.bind_apply, hrun']
    rfl

/-! ## Main results -/

theorem assemble_of_ok (hx : readExpressions x = .ok es) : assemble x = build es := by
  unfold assemble
  rw [hx]

theorem assemble_of_error {issues : List Issue} (hx : readExpressions x = .error issues) :
    assemble x = pure (.error issues) := by
  unfold assemble
  rw [hx]

/-- Assembling ends with issues, or with the head of a chain that is all there is. -/
theorem assemble_cases (x : Json) :
    (∃ issues s, assemble x {} = .ok (.error issues) s ∧ issues ≠ []) ∨
      ∃ head s es, assemble x {} = .ok (.ok head) s ∧ s.Covers [some head] ∧ Mirrors s head es := by
  cases hr : readExpressions x with
  | error issues =>
    rw [assemble_of_error hr]
    exact .inl ⟨issues, {}, rfl, fun he => readExpressions_ne_error_nil x (hr.trans (he ▸ rfl))⟩
  | ok es =>
    obtain ⟨hes, -, ht⟩ := readExpressions_eq_ok_iff.mp hr
    rw [assemble_of_ok hr]
    rcases build_spec hes ht with ⟨issues, s, hrun, hissues, -⟩ | ⟨head, s, hrun, ⟨-, hc⟩, hm⟩
    · exact .inl ⟨issues, s, hrun, hissues⟩
    · exact .inr ⟨head, s, es, hrun, hc, hm⟩

theorem exists_listAnswer {xs : List Json} (hne : xs ≠ []) :
    ∃ answer s, assemble (.array xs) {} = .ok answer s ∧ IsListAnswer xs answer := by
  have hreport := reports_readExpressions hne
  cases hr : readExpressions (.array xs) with
  | error issues =>
    rw [hr] at hreport
    have hsome : ∃ p message, HasFault xs p message := by
      refine hreport.exists_iff.mpr fun he => ?_
      exact readExpressions_ne_error_nil _ (hr.trans (congrArg _ he))
    refine ⟨.error issues, {}, by rw [assemble_of_error hr]; rfl, fun _ => ?_, fun hno => ?_⟩
    · exact ⟨issues, rfl, hreport⟩
    · obtain ⟨p, message, hf⟩ := hsome
      exact absurd hf (hno p message)
  | ok es =>
    rw [hr] at hreport
    obtain ⟨hes, hinput, ht⟩ := readExpressions_eq_ok_iff.mp hr
    have hnone : ¬ ∃ p message, HasFault xs p message := fun h => hreport.exists_iff.mp h rfl
    have hvalid : ∀ e ∈ es, ∀ t ∈ e,
        XPathAssembly.Token.IsValid t.text ⟨0, t.text.length⟩ t.kind :=
      fun e he t hm => (ht e he t hm).isValid
    rw [assemble_of_ok hr]
    rcases build_spec hes ht with ⟨issues, s, hrun, hissues, hlack, -⟩ |
      ⟨head, s, hrun, ⟨hlack, -⟩, -⟩
    · refine ⟨_, s, hrun, fun h => absurd h hnone, fun _ => ⟨es, hinput, hvalid, fun _ => ?_, ?_⟩⟩
      · exact ⟨issues, rfl, hlack⟩
      · intro hall
        obtain ⟨e, he, ht⟩ := exists_lacksToken_iff.mp (hlack.exists_iff.mpr hissues)
        obtain ⟨t, hm, hkind⟩ := hall e he
        exact absurd (ht t hm) hkind
    · refine ⟨_, s, hrun, fun h => absurd h hnone, fun _ => ⟨es, hinput, hvalid, ?_, fun _ => ?_⟩⟩
      · intro hbare
        exact absurd rfl (hlack.exists_iff.mp (exists_lacksToken_iff.mpr hbare))
      · exact ⟨head, rfl⟩

/-- **Every value is answered.**  Assembling meets no fault, and what it answers is settled by the
value: that it is no list of expressions, all its faults, its expressions without segments, or the
head of its chain. -/
theorem exists_answer (x : Json) :
    ∃ answer s, assemble x {} = .ok answer s ∧ IsAnswer answer x := by
  match x with
  | .array (x :: xs) => exact exists_listAnswer (List.cons_ne_nil x xs)
  | .array [] | .null | .bool _ | .integer _ | .float _ | .string _ | .object _ =>
    exact ⟨_, _, rfl, rfl⟩

/-- **The chain mirrors the input.**  It has one expression for each of the input, and in it the
segments of the tokens, in order; nothing else is in the store. -/
theorem mirrors_of_assemble (h : assemble x {} = .ok (.ok head) s) :
    ∃ es, x = inputOf es ∧ Mirrors s head es := by
  cases hr : readExpressions x with
  | error issues =>
    rw [assemble_of_error hr] at h
    cases h
  | ok es =>
    obtain ⟨hes, hinput, ht⟩ := readExpressions_eq_ok_iff.mp hr
    rw [assemble_of_ok hr] at h
    refine ⟨es, hinput, ?_⟩
    rcases build_spec hes ht with ⟨issues, s', hrun, -⟩ | ⟨head', s', hrun, -, hm⟩
    · rw [hrun] at h
      cases h
    · rw [hrun] at h
      cases h
      exact hm

/-- A variable, and a comparison with a literal; a terminator ends each. -/
def twoExpressions : List (List Token) :=
  [[⟨.varName, "$a".toList⟩, ⟨.eos, [';']⟩],
   [⟨.quoted, "'b'".toList⟩, ⟨.operator, ['=']⟩, ⟨.varName, "$c".toList⟩, ⟨.eos, [';']⟩]]

def twoExpressionsBuilt : Store where
  cells := #[
    { segment? := some (.ofText "$a".toList .varName), sibling? := some 1 },
    { segment? := some (.ofText ['b'] .quoted), next? := some 2 },
    { segment? := some (.ofText ['='] .operator), next? := some 3 },
    { segment? := some (.ofText "$c".toList .varName) }]

theorem mirrors_twoExpressions :
    assemble (inputOf twoExpressions) {} = .ok (.ok 0) twoExpressionsBuilt ∧
      ∃ es, inputOf twoExpressions = inputOf es ∧ Mirrors twoExpressionsBuilt 0 es := by
  have hrun : assemble (inputOf twoExpressions) {} = .ok (.ok 0) twoExpressionsBuilt := rfl
  exact ⟨hrun, mirrors_of_assemble hrun⟩

end Assembly

end XPathAssembly
