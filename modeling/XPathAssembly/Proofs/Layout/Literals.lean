import XPathAssembly.Proofs.Layout.Reading

/-!
# Literals read back

The literals of a text are found from left to right: a mark that stands outside literals opens one,
and the next same mark closes it.  Read this way, the text of an expression, or of a call, has the
quoted segments as its literals, in order.

    s.IsExpression head gs → … → literals (text of head) = some (quotedTexts gs)

Every part of a text takes the scan from outside literals to outside literals and finds the literals
of its own segments (`Scans`).  A space that is taken back changes nothing, since outside literals
the scan passes over spaces, and no space closes a literal.
-/

namespace XPathAssembly

/-! ## Reading -/

/-- The two sorts of marks between which a literal stands. -/
inductive Delimiter where
  | single
  | double
deriving DecidableEq, Repr

namespace Delimiter

def byte : Delimiter → UInt8
  | single => singleMark
  | double => doubleMark

def of? (b : UInt8) : Option Delimiter :=
  if b = singleMark then some single else if b = doubleMark then some double else none

end Delimiter

/-- How far a text has been read: the literals that are closed, and the delimiter and the bytes of
the one that is open. -/
structure LiteralScan where
  closed : List Bytes := []
  opened : Option (Delimiter × Bytes) := none
deriving DecidableEq, Repr

namespace LiteralScan

def step : LiteralScan → UInt8 → LiteralScan
  | ⟨closed, none⟩, b => ⟨closed, (Delimiter.of? b).map fun q => (q, [])⟩
  | ⟨closed, some (q, body)⟩, b =>
    if b = q.byte then ⟨closed ++ [body], none⟩ else ⟨closed, some (q, body ++ [b])⟩

end LiteralScan

/-- The literals of a text, if the last of them is closed. -/
def literals (bs : Bytes) : Option (List Bytes) :=
  let s := bs.foldl LiteralScan.step {}
  if s.opened.isNone then some s.closed else none

/-! ## Segments -/

namespace Segment

/-- A quoted text has marks of one sort at most, and any other text has none. -/
def IsClear (g : Segment) : Prop :=
  if g.kind = .quoted then ¬ (singleMark ∈ g.text ∧ doubleMark ∈ g.text)
  else ∀ b ∈ g.text, Template.isMark b = false

end Segment

namespace Layout

/-- The texts of the quoted segments. -/
def quotedTexts (gs : List Segment) : List Bytes :=
  (gs.filter fun g => g.kind = .quoted).map Segment.text

/-- Reading the text leads from outside literals to outside literals and finds these. -/
def Scans (bs : Bytes) (found : List Bytes) : Prop :=
  ∀ closed, bs.foldl LiteralScan.step ⟨closed, none⟩ = ⟨closed ++ found, none⟩

end Layout

/-! ## Lemmas -/

namespace Delimiter

theorem of?_byte (q : Delimiter) : of? q.byte = some q := by
  cases q <;> decide

theorem byte_ne_space (q : Delimiter) : q.byte ≠ space := by
  cases q <;> decide

theorem of?_of_not_isMark {b : UInt8} (hb : Template.isMark b = false) : of? b = none := by
  simp only [Template.isMark, Bool.or_eq_false_iff, decide_eq_false_iff_not] at hb
  unfold of?
  rw [if_neg hb.1, if_neg hb.2]

theorem exists_byte_of_isMark {b : UInt8} (hb : Template.isMark b) :
    ∃ q : Delimiter, q.byte = b := by
  simp only [Template.isMark, Bool.or_eq_true, decide_eq_true_eq] at hb
  rcases hb with rfl | rfl
  · exact ⟨.single, rfl⟩
  · exact ⟨.double, rfl⟩

end Delimiter

namespace LiteralScan

variable {closed : List Bytes} {q : Delimiter} {body bs : Bytes}

/-- A literal goes on up to its delimiter. -/
theorem foldl_opened (hq : q.byte ∉ bs) :
    bs.foldl step ⟨closed, some (q, body)⟩ = ⟨closed, some (q, body ++ bs)⟩ := by
  induction bs generalizing body with
  | nil => simp
  | cons b bs ih =>
    rw [List.mem_cons, not_or] at hq
    have hstep : step ⟨closed, some (q, body)⟩ b = ⟨closed, some (q, body ++ [b])⟩ := by
      rw [step, if_neg (Ne.symm hq.1)]
    rw [List.foldl_cons, hstep, ih hq.2, List.append_assoc]
    rfl

/-- A space is passed over, or it belongs to a literal that stays open. -/
theorem eq_of_step_space {s : LiteralScan} (hs : step s space = ⟨closed, none⟩) :
    s = ⟨closed, none⟩ := by
  obtain ⟨found, _ | ⟨q, body⟩⟩ := s
  · exact hs
  · rw [step, if_neg (Ne.symm q.byte_ne_space)] at hs
    cases hs

end LiteralScan

namespace Layout

namespace Scans

variable {as bs : Bytes} {found more : List Bytes}

theorem nil : Scans [] [] := fun closed => by simp

theorem append (ha : Scans as found) (hb : Scans bs more) : Scans (as ++ bs) (found ++ more) := by
  intro closed
  rw [List.foldl_append, ha closed, hb (closed ++ found), List.append_assoc]

theorem plain (hb : ∀ b ∈ bs, Template.isMark b = false) : Scans bs [] := by
  intro closed
  rw [List.append_nil]
  induction bs with
  | nil => rfl
  | cons b bs ih =>
    have hstep : LiteralScan.step ⟨closed, none⟩ b = ⟨closed, none⟩ := by
      rw [LiteralScan.step, Delimiter.of?_of_not_isMark (hb b List.mem_cons_self)]
      rfl
    rw [List.foldl_cons, hstep]
    exact ih fun c hc => hb c (List.mem_cons_of_mem _ hc)

/-- A constant without marks. -/
theorem constant (hb : (bs.all fun b => !Template.isMark b) = true) : Scans bs [] := by
  rw [List.all_eq_true] at hb
  exact plain fun b hm => (Bool.not_eq_true' _).mp (hb b hm)

theorem quoted {q : Delimiter} (hq : q.byte ∉ bs) : Scans (q.byte :: (bs ++ [q.byte])) [bs] := by
  intro closed
  have hopen : LiteralScan.step ⟨closed, none⟩ q.byte = ⟨closed, some (q, [])⟩ := by
    rw [LiteralScan.step, Delimiter.of?_byte]
    rfl
  rw [List.foldl_cons, hopen, List.foldl_append, LiteralScan.foldl_opened hq]
  simp [LiteralScan.step]

/-- The space at the end of a text may be taken back. -/
theorem of_append_space (hs : Scans (as ++ [space]) found) : Scans as found := by
  intro closed
  have hspace := hs closed
  rw [List.foldl_append] at hspace
  exact LiteralScan.eq_of_step_space hspace

theorem literals_eq (hs : Scans bs found) : literals bs = some found := by
  unfold literals
  rw [hs []]
  rfl

end Scans

/-! ## Texts -/

variable {style : Style} {gs : List Segment} {g : Segment} {es : List (List Segment)}

theorem scans_spelled (hm : g.IsMade) (hc : g.IsClear) (hq : style.quotes = true) :
    Scans (g.spelled style) (quotedTexts [g]) := by
  unfold Segment.IsClear at hc
  by_cases hk : g.kind = .quoted
  · rw [if_pos hk] at hc
    obtain ⟨b, hmark, hnot, hspelled⟩ := Segment.spelled_of_quoted hm hk hc hq
    obtain ⟨q, rfl⟩ := Delimiter.exists_byte_of_isMark hmark
    have hfound : quotedTexts [g] = [g.text] := by simp [quotedTexts, hk]
    rw [hspelled, hfound]
    exact Scans.quoted hnot
  · rw [if_neg hk] at hc
    have hfound : quotedTexts [g] = [] := by simp [quotedTexts, hk]
    rw [Segment.spelled_of_ne_quoted hk, hfound]
    exact Scans.plain hc

theorem scans_laid (hg : ∀ g ∈ gs, g.IsMade ∧ g.IsClear) (hq : style.quotes = true) :
    Scans (laid style gs) (quotedTexts gs) := by
  refine laid_induction (fun done acc => Scans acc (quotedTexts done)) Scans.nil ?_ ?_ ?_
  · intro done acc g hmem hacc
    have hone := hacc.append (scans_spelled (hg g hmem).1 (hg g hmem).2 hq)
    have htexts : quotedTexts (done ++ [g]) = quotedTexts done ++ quotedTexts [g] := by
      simp [quotedTexts]
    rwa [htexts]
  · intro done acc hacc
    have hspace : Scans [space] [] := Scans.constant (by decide)
    have hboth := hacc.append hspace
    rwa [List.append_nil] at hboth
  · intro done acc hacc
    exact hacc.of_append_space

theorem scans_arguments (hg : ∀ gs ∈ es, ∀ g ∈ gs, g.IsMade ∧ g.IsClear)
    (hq : style.quotes = true) :
    Scans (Store.callSeparator.intercalate (es.map (laid style))) (es.flatMap quotedTexts) := by
  refine Store.arguments_induction (fun es acc => Scans acc (es.flatMap quotedTexts)) .nil ?_ ?_
  · intro gs hmem
    rw [List.flatMap_singleton]
    exact scans_laid (hg gs hmem) hq
  · intro gs hmem gs' rest acc hacc
    have hseparator : Scans Store.callSeparator [] := .constant (by decide)
    rw [List.flatMap_cons]
    exact (scans_laid (hg gs hmem) hq).append (hseparator.append hacc)

theorem scans_callText (hg : ∀ gs ∈ es, ∀ g ∈ gs, g.IsMade ∧ g.IsClear)
    (hq : style.quotes = true) : Scans (callText style es) (es.flatMap quotedTexts) := by
  have hopening : Scans Store.callOpening [] := Scans.constant (by decide)
  have hclosing : Scans Store.callClosing [] := Scans.constant (by decide)
  have hall := hopening.append ((scans_arguments hg hq).append hclosing)
  rwa [List.append_nil, List.nil_append] at hall

end Layout

/-! ## Reading back -/

namespace Store

open Layout

variable {s : Store} {head : Option Handle} {gs : List Segment} {es : List (List Segment)}

/-- From the head of a concatenation of several expressions a sibling link leads on. -/
theorem IsConcatenation.exists_sibling (hc : s.IsConcatenation head es) (hes : 2 ≤ es.length) :
    ∃ k, head.bind (s.link? .sibling) = some k := by
  obtain ⟨heads, hl, he⟩ := hc
  have hlen := he.length_eq
  match heads, hl with
  | [], _ | [_], _ =>
    simp only [List.length_nil, List.length_cons] at hlen
    omega
  | _ :: k :: _, hl =>
    obtain ⟨rfl, -, hk, -⟩ := hl
    exact ⟨k, hk⟩

/-- **Literals survive.**  In the text of an expression, and in the call that is written for a
concatenation, every literal is closed, and the literals are the texts of the quoted segments. -/
theorem literals_of_texts (s : Store) :
    (∀ head gs, s.IsExpression head gs → (∀ g ∈ gs, g.IsMade ∧ g.IsClear) →
      ∀ style : Style, style.quotes = true →
        ∃ bs, s.expression head style = .ok bs ∧ literals bs = some (quotedTexts gs)) ∧
    (∀ head es, s.IsConcatenation head es → 2 ≤ es.length →
      (∀ gs ∈ es, ∀ g ∈ gs, g.IsMade ∧ g.IsClear) →
      ∀ style, ∃ bs, s.concatCall head style = .ok bs ∧
        literals bs = some (es.flatMap quotedTexts)) := by
  constructor
  · intro head gs he hg style hq
    exact ⟨_, expression_eq he, (scans_laid hg hq).literals_eq⟩
  · intro head es hc hes hg style
    obtain ⟨k, hk⟩ := hc.exists_sibling hes
    exact ⟨_, concatCall_of_sibling hc hk, (scans_callText hg rfl).literals_eq⟩

/-- Two expressions: a literal with a double mark, and a name before a literal. -/
def twoLiterals : Store where
  cells := #[⟨some (.ofText ['a', '"'] .quoted), none, some 1⟩,
    ⟨some (.ofText ['b'] .bare), some 2, none⟩, ⟨some (.ofText ['c'] .quoted), none, none⟩]

theorem isConcatenation_twoLiterals : twoLiterals.IsConcatenation (some 0)
    [[.ofText ['a', '"'] .quoted], [.ofText ['b'] .bare, .ofText ['c'] .quoted]] :=
  ⟨[0, 1], ⟨rfl, rfl, rfl, rfl, rfl⟩,
    .cons ⟨[0], ⟨rfl, rfl, rfl⟩, rfl⟩ (.cons ⟨[1, 2], ⟨rfl, rfl, rfl, rfl, rfl⟩, rfl⟩ .nil)⟩

theorem literals_twoLiterals :
    twoLiterals.concatCall (some 0) {} = .ok (utf8 "concat('a\"', b \"c\")".toList) ∧
      literals (utf8 "concat('a\"', b \"c\")".toList) =
        some [utf8 ['a', '"'], utf8 ['c']] := by
  have hclear : ∀ gs ∈ ([[.ofText ['a', '"'] .quoted],
      [.ofText ['b'] .bare, .ofText ['c'] .quoted]] : List (List Segment)),
      ∀ g ∈ gs, g.IsMade ∧ g.IsClear := by
    simp only [List.mem_cons, List.not_mem_nil, or_false]
    rintro gs (rfl | rfl) g hg
    · obtain rfl := List.mem_singleton.mp hg
      refine ⟨rfl, ?_⟩
      show ¬ (singleMark ∈ [byteOf 'a', doubleMark] ∧ _)
      decide
    · rcases List.mem_pair.mp hg with rfl | rfl
      · refine ⟨rfl, fun b hb => ?_⟩
        obtain rfl : b = byteOf 'b' := List.mem_singleton.mp hb
        decide
      · refine ⟨rfl, ?_⟩
        show ¬ (singleMark ∈ [byteOf 'c'] ∧ _)
        decide
  have hrun : twoLiterals.concatCall (some 0) {} =
      .ok (utf8 "concat('a\"', b \"c\")".toList) := rfl
  obtain ⟨bs, hbs, hread⟩ :=
    (literals_of_texts twoLiterals).2 _ _ isConcatenation_twoLiterals (Nat.le_refl 2) hclear {}
  obtain rfl := Except.ok.inj (hrun.symm.trans hbs)
  exact ⟨hrun, hread⟩

end Store

end XPathAssembly
