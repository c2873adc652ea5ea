import XPathAssembly.Proofs.Assembly.Loading
import XPathAssembly.Proofs.Json.Shown

/-!
# The wording of errors

Each error of a file is a sentence: one line with a capital letter at its start.  What it quotes
from the file, a text with line ends or a nested value, is shown on that line.

    assemble x {} = .ok (.error issues) s → ∀ i ∈ issues, IsSentence i.text
                                                                    (isSentence_of_assemble)
    readFile content = .error (.errors errors) → ∀ e ∈ errors, IsSentence e
                                                                    (isSentence_of_readFile)
-/

namespace XPathAssembly

/-- One line that begins with a capital letter. -/
structure IsSentence (t : Text) : Prop where
  line : OneLine t
  capital : t.head?.any Char.isUpper = true

instance (t : Text) : Decidable (IsSentence t) :=
  decidable_of_iff (OneLine t ∧ t.head?.any Char.isUpper = true)
    ⟨fun h => ⟨h.1, h.2⟩, fun h => ⟨h.line, h.capital⟩⟩

namespace IsSentence

variable {s t : Text}

theorem exists_cons (ht : IsSentence t) : ∃ c rest, t = c :: rest ∧ c.isUpper = true := by
  cases t with
  | nil => cases ht.capital
  | cons c rest => exact ⟨c, rest, rfl, ht.capital⟩

theorem ofList (ht : IsSentence t) : IsSentence (String.ofList t).toList := by
  rwa [String.toList_ofList]

theorem capital_append (hs : IsSentence s) (t : Text) :
    (s ++ t).head?.any Char.isUpper = true := by
  obtain ⟨c, rest, rfl, hc⟩ := hs.exists_cons
  exact hc

/-- A sentence may go on as long as it stays on its line. -/
theorem append (hs : IsSentence s) (ht : OneLine t) : IsSentence (s ++ t) :=
  ⟨hs.line.append ht, hs.capital_append t⟩

end IsSentence

namespace Assembly

variable {x : Json} {p : Place} {message : Text} {issues : List Issue} {errors : List Text}
  {content : Bytes} {s : Store}

/-! ## Tokens -/

theorem oneLine_shownKindNames : OneLine shownKindNames := by
  refine Json.oneLine_enclosed rfl rfl (List.forall_mem_map.2 fun name _ => ?_)
  exact .quotedText name

/-- Whatever is wrong with a token is said on one line. -/
theorem Defect.isSentence_message (d : Defect) : IsSentence d.message := by
  cases d with
  | shape token => exact .append (.ofList (by decide)) token.oneLine_shown
  | kind name =>
    have hname : IsSentence ("Unexpected token kind ".toList ++ Quoted.points name) :=
      .append (.ofList (by decide)) (.points name)
    exact (hname.append (.ofList (by decide))).append oneLine_shownKindNames
  | encoding index text =>
    have hindex : IsSentence
        ("Expected a token text encodable in UTF-8, but the character at index ".toList ++
          decimal index) := .append (.ofList (by decide)) (.decimal index)
    exact (hindex.append (.ofList (by decide))).append (.points text)
  | quotes text => exact .append (.ofList (by decide)) (.quotedText text)

/-! ## Places -/

theorem oneLine_expressionPlace (i : Nat) : OneLine (expressionPlace i) :=
  (OneLine.append (.ofList (by decide)) (.decimal i)).append (by decide)

theorem Place.oneLine_text (p : Place) : OneLine p.text := by
  match p with
  | ⟨i, none⟩ => exact oneLine_expressionPlace i
  | ⟨i, some j⟩ =>
    exact ((oneLine_expressionPlace i).append (.cons rfl (.decimal j))).append (by decide)

theorem isSentence_issueAt (p : Place) (hm : OneLine message) :
    IsSentence (issueAt (p, message)).text := by
  have hplace : IsSentence ("At ".toList ++ p.text) := .append (by decide) p.oneLine_text
  exact (hplace.append (by decide)).append hm

theorem Reports.isSentence {F : Place → Text → Prop} (h : Reports F issues)
    (hF : ∀ p message, F p message → OneLine message) : ∀ i ∈ issues, IsSentence i.text := by
  obtain ⟨fs, rfl, -, hm⟩ := h
  rw [List.forall_mem_map]
  rintro ⟨p, message⟩ hf
  exact isSentence_issueAt p (hF p message ((hm p message).1 hf))

theorem HasFault.oneLine {xs : List Json} (hf : HasFault xs p message) : OneLine message := by
  obtain ⟨i, x, -, hfault⟩ := hf
  cases hfault with
  | expression _ => exact .ofList (by decide)
  | token _ hd => exact (Defect.isSentence_message _).line

theorem LacksToken.oneLine {es : List (List Token)} (hl : LacksToken es p message) :
    OneLine message := by
  obtain ⟨i, e, -, -, -, rfl⟩ := hl
  exact .ofList (by decide)

/-! ## Inputs -/

theorem isSentence_noExpressions : IsSentence noExpressions.text :=
  .ofList (by decide)

theorem isSentence_of_readExpressions (h : readExpressions x = .error issues) :
    ∀ i ∈ issues, IsSentence i.text := by
  by_cases hx : ∃ xs, xs ≠ [] ∧ x = .array xs
  · obtain ⟨xs, hne, rfl⟩ := hx
    have hreport := reports_readExpressions hne
    rw [h] at hreport
    exact hreport.isSentence fun _ _ => HasFault.oneLine
  · rw [readExpressions_of_not fun xs hne he => hx ⟨xs, hne, he⟩] at h
    cases h
    exact List.forall_mem_singleton.2 isSentence_noExpressions

/-- The issues of a value are sentences, be they found before or after it is built. -/
theorem isSentence_of_assemble (h : assemble x {} = .ok (.error issues) s) :
    ∀ i ∈ issues, IsSentence i.text := by
  cases hr : readExpressions x with
  | error issues' =>
    rw [assemble_of_error hr] at h
    cases h
    exact isSentence_of_readExpressions hr
  | ok es =>
    obtain ⟨hes, -, ht⟩ := readExpressions_eq_ok_iff.1 hr
    rw [assemble_of_ok hr] at h
    rcases build_spec hes ht with ⟨issues', s', hrun, -, hlack, -⟩ | ⟨head, s', hrun, -⟩
    · rw [hrun] at h
      cases h
      exact hlack.isSentence fun _ _ => LacksToken.oneLine
    · rw [hrun] at h
      cases h

/-! ## Files -/

theorem isSentence_encodingError (r : Utf8.Refusal) : IsSentence (encodingError r) := by
  have hdefect : OneLine r.defect.message := by
    cases r.defect <;> exact .ofList (by decide)
  refine ((IsSentence.append ?opening (.decimal r.offset)).append ?colon).append hdefect
  case opening => exact .ofList (by decide)
  case colon => decide

theorem isSentence_syntaxError (t : Text) (c : Json.Complaint) (remaining : Nat) :
    IsSentence (syntaxError t c remaining) := by
  have hcomplaint : OneLine c.message := by
    cases c <;> exact .ofList (by decide)
  have hline : IsSentence ("Invalid JSON at line ".toList ++
      decimal (Json.placeOf t remaining).line) := .append (.ofList (by decide)) (.decimal _)
  exact (((hline.append (.ofList (by decide))).append (.decimal _)).append (by decide)).append
    hcomplaint

theorem isSentence_of_readFile (h : readFile content = .error (.errors errors)) :
    ∀ e ∈ errors, IsSentence e := by
  unfold readFile at h
  split at h
  · next r _ =>
    cases h
    exact List.forall_mem_singleton.2 (isSentence_encodingError r)
  · simp only at h
    split at h
    · cases h
    · cases h
      exact List.forall_mem_singleton.2 (isSentence_syntaxError _ _ _)
    · cases h

/-- Loading ends at a limit of the reader, with errors that are sentences, or with a chain that is
all there is. -/
theorem load_cases (content : Bytes) :
    (∃ e t, load content {} = .ok (.error (.excess e)) {} ∧ Utf8.decode content = .ok t ∧
        Json.read (unifyLineEnds t) = .error (.excess e)) ∨
      (∃ errors s, load content {} = .ok (.error (.errors errors)) s ∧ errors ≠ [] ∧
        ∀ e ∈ errors, IsSentence e) ∨
      ∃ head s es, load content {} = .ok (.ok head) s ∧ s.Covers [some head] ∧
        s.IsConcatenation (some head) es := by
  cases hx : readFile content with
  | error r =>
    have hload := load_of_error (s := {}) hx
    cases r with
    | errors errors =>
      exact .inr (.inl ⟨_, _, hload, errors_ne_nil_of_readFile hx, isSentence_of_readFile hx⟩)
    | excess e =>
      obtain ⟨t, ht, hread⟩ := readFile_eq_excess_iff.1 hx
      exact .inl ⟨e, t, hload, ht, hread⟩
  | ok x =>
    rw [load_of_ok hx]
    rcases assemble_cases x with ⟨issues, s, hrun, hissues⟩ | ⟨head, s, es, hrun, hcovers, hm⟩
    · refine .inr (.inl ⟨issues.map Issue.text, s, ?_, fun he => ?_, ?_⟩)
      · rw [Call.bind_apply, hrun]
        rfl
      · exact hissues (List.map_eq_nil_iff.1 he)
      · exact List.forall_mem_map.2 (isSentence_of_assemble hrun)
    · refine .inr (.inr ⟨head, s, _, ?_, hcovers, hm.concatenation⟩)
      rw [Call.bind_apply, hrun]
      rfl

end Assembly

end XPathAssembly
