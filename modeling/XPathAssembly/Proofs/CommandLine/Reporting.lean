import XPathAssembly.Proofs.Assembly.Wording
import XPathAssembly.Proofs.CommandLine.Production

/-!
# Reports of the command

A file that has no chain is reported: a headline, and below it each error on a line of its own.
The report refuses texts that would break this layout, but no error of a file does.  Errors are
sentences, and to a text on one line the bullet is all that a report adds.

    (∀ e ∈ errors, IsSentence e) → write message errors =
      .ok ((linesOf message errors).flatMap (· ++ ['\n']))              (write_of_isSentence)
-/

namespace XPathAssembly

/-! ## Sentences as entries -/

theorem not_isBlank_of_isUpper {c : Char} (hc : c.isUpper = true) : isBlank c = false := by
  have hrange : 'A'.val ≤ c.val ∧ c.val ≤ 'Z'.val := of_decide_eq_true hc
  have hval : c.toNat = c.val.toNat := rfl
  have hlow : 'A'.val.toNat = 65 := rfl
  have hhigh : 'Z'.val.toNat = 90 := rfl
  rw [UInt32.le_iff_toNat_le, UInt32.le_iff_toNat_le] at hrange
  simp only [isBlank, blankRanges, List.any_cons, List.any_nil, Bool.or_false,
    Bool.or_eq_false_iff, Bool.and_eq_false_iff, decide_eq_false_iff_not]
  omega

namespace IsSentence

variable {e : Text}

theorem not_blank (he : IsSentence e) : isBlankText e = false := by
  obtain ⟨c, rest, rfl, hc⟩ := he.exists_cons
  rw [isBlankText, List.all_cons, not_isBlank_of_isUpper hc, Bool.false_and]

theorem bullet_eq (he : IsSentence e) : Report.bullet e = ['*', ' '] ++ e ++ ['\n'] := by
  unfold Report.bullet
  rw [indent_of_oneLine he.line he.not_blank]
  rfl

end IsSentence

namespace Report

variable {c : Char} {s t message : Text} {errors : List Text}

theorem endsWith_eq_false_of_not_mem (hc : c ∉ t) : endsWith c t = false := by
  refine beq_eq_false_iff_ne.2 fun he => hc ?_
  exact List.mem_of_getLast? he

theorem endsWith_append_eq_false (hs : endsWith c s = false) (ht : endsWith c t = false) :
    endsWith c (s ++ t) = false := by
  unfold endsWith at hs ht ⊢
  rw [List.getLast?_append]
  cases h : t.getLast? with
  | none => exact hs
  | some d => rwa [h] at ht

theorem startsWith_eq_false_of_capital (ht : t.head?.any Char.isUpper = true)
    (hc : c.isUpper = false) : startsWith c t = false := by
  refine beq_eq_false_iff_ne.2 fun he => ?_
  rw [he, Option.any_some, hc] at ht
  cases ht

theorem isEntry_of_isSentence {e : Text} (he : IsSentence e) : isEntry e = true := by
  have hsome : e.isEmpty = false := by
    obtain ⟨c, rest, rfl, -⟩ := he.exists_cons
    rfl
  unfold isEntry
  rw [hsome, startsWith_eq_false_of_capital he.capital rfl,
    startsWith_eq_false_of_capital he.capital rfl,
    endsWith_eq_false_of_not_mem he.line.not_mem_newline]
  rfl

/-- The lines of a report: the headline, and the errors behind their bullets. -/
def linesOf (message : Text) (errors : List Text) : List Text :=
  (message ++ [':']) :: errors.map (['*', ' '] ++ ·)

/-- Sentences are reported on a line each. -/
theorem write_of_isSentence (hm : isHeadline message = true) (he : ∀ e ∈ errors, IsSentence e) :
    write message errors = .ok ((linesOf message errors).flatMap (· ++ ['\n'])) := by
  have hentries : errors.all isEntry = true :=
    List.all_eq_true.2 fun e hmem => isEntry_of_isSentence (he e hmem)
  have hbullets : errors.flatMap bullet = errors.flatMap fun e => ['*', ' '] ++ e ++ ['\n'] :=
    List.flatMap_congr fun e hmem => (he e hmem).bullet_eq
  unfold write
  rw [hm, hentries, hbullets, linesOf, List.flatMap_cons, List.flatMap_map, headline]
  simp

theorem oneLine_linesOf (hm : OneLine message) (he : ∀ e ∈ errors, OneLine e) :
    ∀ t ∈ linesOf message errors, OneLine t := by
  refine List.forall_mem_cons.2 ⟨hm.append (by decide), List.forall_mem_map.2 fun e hmem => ?_⟩
  exact OneLine.append (by decide) (he e hmem)

theorem newline_not_mem_linesOf (hm : '\n' ∉ message) (he : ∀ e ∈ errors, OneLine e) :
    ∀ t ∈ linesOf message errors, '\n' ∉ t := by
  refine List.forall_mem_cons.2 ⟨?_, List.forall_mem_map.2 fun e hmem => ?_⟩
  · simpa using hm
  · exact (OneLine.append (by decide) (he e hmem)).not_mem_newline

end Report

namespace Program

variable {r : Request} {errors : List Text} {content : Bytes}

def loadHeadline (path : Path) : Text := "Failed to load the expressions from ".toList ++ path.shown

/-- The lines of the report on a file. -/
def failureLines (path : Path) (errors : List Text) : List Text :=
  Report.linesOf (loadHeadline path) errors

/-- The response lists the errors of a file, each on a line of its own. -/
structure IsReport (r : Request) (errors : List Text) (response : Response) : Prop where
  nonempty : errors ≠ []
  response_eq : response =
    { code := 1, out := [], err := (failureLines r.path errors).flatMap (· ++ ['\n']) }
  /-- Nothing in it would break the layout. -/
  written : Report.write (loadHeadline r.path) errors = .ok response.err
  unbroken : ∀ t ∈ failureLines r.path errors, '\n' ∉ t
  oneLine : ∀ e ∈ errors, OneLine e
  /-- Its lines are these also if not only line feeds end a line. -/
  lineBodies_eq : OneLine r.path.shown → lineBodies response.err = failureLines r.path errors

/-- The response to what loading a file answers. -/
def Answers (r : Request) : Except Assembly.Refusal Handle → Response → Prop
  | .ok _, response => response.code = 0 ∧ response.err = []
  | .error (.errors errors), response => IsReport r errors response
  | .error (.excess _), _ => False

theorem isHeadline_loadHeadline (hline : '\n' ∉ r.path.shown)
    (hcolon : r.path.shown.getLast? ≠ some ':') :
    Report.isHeadline (loadHeadline r.path) = true := by
  have hopening : IsSentence "Failed to load the expressions from ".toList := .ofList (by decide)
  have hcapital : (loadHeadline r.path).head?.any Char.isUpper = true := hopening.capital_append _
  have hnewline : Report.endsWith '\n' (loadHeadline r.path) = false :=
    Report.endsWith_append_eq_false
      (Report.endsWith_eq_false_of_not_mem hopening.line.not_mem_newline)
      (Report.endsWith_eq_false_of_not_mem hline)
  have hmark : Report.endsWith ':' (loadHeadline r.path) = false :=
    Report.endsWith_append_eq_false (Report.endsWith_eq_false_of_not_mem (by decide))
      (beq_eq_false_iff_ne.2 hcolon)
  unfold Report.isHeadline
  rw [Report.startsWith_eq_false_of_capital hcapital rfl,
    Report.startsWith_eq_false_of_capital hcapital rfl, hnewline, hmark]
  rfl

theorem report_of_ok {path : Path} {err : Text}
    (h : Report.write (loadHeadline path) errors = .ok err) :
    report path errors = .ok { code := 1, err } := by
  unfold loadHeadline at h
  unfold report
  rw [h]

theorem exists_isReport (hline : '\n' ∉ r.path.shown) (hcolon : r.path.shown.getLast? ≠ some ':')
    (hne : errors ≠ []) (he : ∀ e ∈ errors, IsSentence e) :
    ∃ response, report r.path errors = .ok response ∧ IsReport r errors response := by
  have hwrite := Report.write_of_isSentence (isHeadline_loadHeadline hline hcolon) he
  have hlines : ∀ e ∈ errors, OneLine e := fun e hmem => (he e hmem).line
  refine ⟨_, report_of_ok hwrite, hne, rfl, hwrite, ?_, hlines, fun hpath => ?_⟩
  · refine Report.newline_not_mem_linesOf ?_ hlines
    exact List.not_mem_append (by decide) hline
  · exact lineBodies_flatMap (Report.oneLine_linesOf (.append (by decide) hpath) hlines)

/-- **Every failure is reported.**  A file that the reader of its format does not give up on is
answered with its chain and nothing else, or with a report that has one line for each of its errors,
in order; and nothing in an error or in the headline would break the layout of a report. -/
theorem load_reported (hline : '\n' ∉ r.path.shown) (hcolon : r.path.shown.getLast? ≠ some ':')
    (hread : ∀ t e, Utf8.decode content = .ok t →
      Json.read (unifyLineEnds t) ≠ .error (.excess e)) :
    ∃ loaded s response, Assembly.load content {} = .ok loaded s ∧
      answer r (.found (.file content)) = .ok response ∧ Answers r loaded response := by
  show ∃ loaded s response, _ ∧ respond r content = _ ∧ _
  unfold respond
  rcases Assembly.load_cases content with ⟨e, t, -, ht, hexcess⟩ | ⟨errors, s, hload, hne, he⟩ |
    ⟨head, s, es, hload, hcovers, hes⟩
  · exact absurd hexcess (hread t e ht)
  · obtain ⟨response, hreport, hr⟩ := exists_isReport hline hcolon hne he
    refine ⟨_, s, response, hload, ?_, hr⟩
    simp only [hload, hreport]
  · obtain ⟨t, -, -, -, s', -, -, hproduce, -⟩ := produce_ok hes hcovers r.mode r.style
    refine ⟨_, s, { code := 0, out := t ++ ['\n'] }, hload, ?_, rfl, rfl⟩
    simp only [hload, hproduce]

/-- A line feed in the place of a token, and a null in the place of an expression. -/
def faultyFile : Text := "[[\"\\n\"], null]".toList

def faultyErrors : List Text :=
  ["At expressions[0][0]: ".toList ++
    "Expected a token as a [kind, text] pair, but got: ".toList ++ "'\\n'".toList,
   "At expressions[1]: ".toList ++ "Expected a list of tokens as an expression".toList]

theorem read_faultyFile : Json.read faultyFile =
    .ok (.array [.array [.string [.char '\n']], .null]) := by
  cbv

theorem load_faultyFile :
    Assembly.load (utf8 faultyFile) {} = .ok (.error (.errors faultyErrors)) {} := by
  have hfile : Assembly.readFile (utf8 faultyFile) =
      .ok (.array [.array [.string [.char '\n']], .null]) := by
    unfold Assembly.readFile
    rw [Utf8.decode_utf8]
    simp only [unifyLineEnds_of_not_mem (by decide : '\r' ∉ faultyFile), read_faultyFile]
  rw [Assembly.load_of_ok hfile]
  rfl

/-- The line feed is shown as an escape, so that its error stays on its line. -/
theorem reported_faultyFile :
    answer ⟨Path.ofText "tokens.json".toList, .avt, {}⟩ (.found (.file (utf8 faultyFile))) =
      .ok { code := 1, err := "Failed to load the expressions from ".toList ++
        "tokens.json:\n".toList ++ faultyErrors.flatMap fun e => ['*', ' '] ++ e ++ ['\n'] } := by
  obtain ⟨loaded, s, response, hload, hanswer, hr⟩ :=
    @load_reported ⟨Path.ofText "tokens.json".toList, .avt, {}⟩ (utf8 faultyFile) (by decide)
      (by decide) fun t e ht hexcess => by
        rw [Utf8.decode_utf8] at ht
        cases ht
        rw [unifyLineEnds_of_not_mem (by decide : '\r' ∉ faultyFile), read_faultyFile] at hexcess
        cases hexcess
  rw [load_faultyFile] at hload
  cases hload
  rw [hanswer, hr.response_eq]
  rfl

end Program

end XPathAssembly
