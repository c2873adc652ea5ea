import XPathAssembly.Proofs.Assembly.Outcome
import XPathAssembly.Proofs.Json.Grammar
import XPathAssembly.Proofs.Text.Utf8

/-!
# What becomes of a file

Loading answers every content.  It gives a chain or at least one error, unless the content goes
beyond a limit of the reader; that is passed on as it is, and is none of the errors.

    readFile content = .ok x ↔
      ∃ t, Utf8.decode content = .ok t ∧ Json.IsDocument (unifyLineEnds t) x  (readFile_eq_ok_iff)
    ∃ answer s, load content {} = .ok answer s ∧ Loaded content answer s      (exists_loaded)
    load (utf8 ds) {} = .ok (.error (.excess (.digits ds.length))) {}       (load_of_digits)

So a file is answered with a chain or with errors if no 4301 digits of it stand in a row and it has
no more than 988 opening brackets; and a single integer that is longer is refused otherwise.
-/

namespace XPathAssembly

theorem unifyLineEnds_of_not_mem {t : Text} (hr : '\r' ∉ t) : unifyLineEnds t = t := by
  fun_induction unifyLineEnds t with
  | case1 => rfl
  | case2 rest => exact absurd List.mem_cons_self hr
  | case3 c rest _ ih =>
    obtain ⟨hc, hrest⟩ := not_or.mp (List.mem_cons.not.mp hr)
    rw [if_neg (Ne.symm hc), ih hrest]

namespace Assembly

/-- What loading a content answers. -/
structure Loaded (content : Bytes) (answer : Except Refusal Handle) (s : Store) : Prop where
  chain : ∀ head, answer = .ok head → ∃ es, s.IsConcatenation (some head) es
  errors : ∀ texts, answer = .error (.errors texts) → texts ≠ []
  /-- It is passed on exactly if the reader stops for it. -/
  excess : ∀ e, answer = .error (.excess e) ↔
    ∃ t, Utf8.decode content = .ok t ∧ Json.read (unifyLineEnds t) = .error (.excess e)
  /-- What is too much stands in the text. -/
  occurs : ∀ e, answer = .error (.excess e) →
    ∃ t, Utf8.decode content = .ok t ∧ e.OccursIn Json.depthLimit (unifyLineEnds t)

variable {content : Bytes} {x : Json} {e : Json.Excess} {r : Refusal} {issues : List Issue}
  {s : Store}

/-! ## Reading a file -/

theorem readFile_eq_excess_iff : readFile content = .error (.excess e) ↔
    ∃ t, Utf8.decode content = .ok t ∧ Json.read (unifyLineEnds t) = .error (.excess e) := by
  unfold readFile
  cases hd : Utf8.decode content with
  | error refusal => simp
  | ok t =>
    simp only [Except.ok.injEq, exists_eq_left']
    cases hx : Json.read (unifyLineEnds t) with
    | ok x => simp
    | error stop => cases stop <;> simp

/-- A file holds a value exactly if it is a document in UTF-8. -/
theorem readFile_eq_ok_iff : readFile content = .ok x ↔
    ∃ t, Utf8.decode content = .ok t ∧ Json.IsDocument (unifyLineEnds t) x := by
  unfold readFile
  cases hd : Utf8.decode content with
  | error refusal => simp
  | ok t =>
    simp only [Except.ok.injEq, exists_eq_left', ← Json.read_eq_ok_iff]
    cases hx : Json.read (unifyLineEnds t) with
    | ok x => simp
    | error stop => cases stop <;> simp

theorem errors_ne_nil_of_readFile {texts : List Text}
    (h : readFile content = .error (.errors texts)) : texts ≠ [] := by
  unfold readFile at h
  split at h
  · cases h
    exact List.cons_ne_nil _ _
  · simp only at h
    split at h
    · cases h
    · cases h
      exact List.cons_ne_nil _ _
    · cases h

theorem load_of_error (h : readFile content = .error r) : load content s = .ok (.error r) s := by
  unfold load
  rw [h]
  rfl

theorem load_of_ok (h : readFile content = .ok x) : load content s =
    (assemble x >>= fun
      | .ok head => pure (.ok head)
      | .error issues => pure (.error (.errors (issues.map Issue.text)))) s := by
  unfold load
  rewrite [h]
  rfl

/-! ## Loading a file -/

/-- The chain of a file is all there is. -/
theorem covers_of_load {head : Handle} (h : load content {} = .ok (.ok head) s) :
    s.Covers [some head] ∧ ∃ es, s.IsConcatenation (some head) es := by
  cases hx : readFile content with
  | error r =>
    rw [load_of_error hx] at h
    cases h
  | ok x =>
    rw [load_of_ok hx, Call.bind_apply] at h
    rcases assemble_cases x with ⟨issues, s', hrun, -⟩ | ⟨head', s', es, hrun, hc, hm⟩
    · rw [hrun] at h
      cases h
    · rw [hrun] at h
      cases h
      exact ⟨hc, _, hm.concatenation⟩

/-- **Every file is answered**: with a chain, with at least one error, or with the limit of the
reader that something in the file goes beyond. -/
theorem exists_loaded (content : Bytes) :
    ∃ answer s, load content {} = .ok answer s ∧ Loaded content answer s := by
  cases hx : readFile content with
  | error r =>
    refine ⟨.error r, {}, load_of_error hx, nofun, fun texts he => ?_, fun e => ?_, fun e he => ?_⟩
    · cases he
      exact errors_ne_nil_of_readFile hx
    · rw [← readFile_eq_excess_iff, hx]
      simp
    · cases he
      obtain ⟨t, ht, hread⟩ := readFile_eq_excess_iff.mp hx
      exact ⟨t, ht, Json.occursIn_of_read hread⟩
  | ok x =>
    have hnone : ∀ e, ¬ ∃ t, Utf8.decode content = .ok t ∧
        Json.read (unifyLineEnds t) = .error (.excess e) := by
      intro e
      rw [← readFile_eq_excess_iff, hx]
      exact nofun
    rcases assemble_cases x with ⟨issues, s, hrun, hissues⟩ | ⟨head, s, es, hrun, -, hm⟩
    · refine ⟨.error (.errors (issues.map Issue.text)), s, ?_, nofun, ?_,
        fun e => ⟨nofun, fun h => absurd h (hnone e)⟩, nofun⟩
      · rw [load_of_ok hx, Call.bind_apply, hrun]
        rfl
      · rintro _ ⟨⟩ he
        exact hissues (List.map_eq_nil_iff.mp he)
    · refine ⟨.ok head, s, ?_, ?_, nofun, fun e => ⟨nofun, fun h => absurd h (hnone e)⟩, nofun⟩
      · rw [load_of_ok hx, Call.bind_apply, hrun]
        rfl
      · rintro _ ⟨⟩
        exact ⟨_, hm.concatenation⟩

/-- A file that is one integer with too many digits has neither a chain nor errors. -/
theorem load_of_digits {d : Char} {ds : Text} (hd : ∀ c ∈ d :: ds, c.isDigit) (h0 : d ≠ '0')
    (hlong : Json.digitLimit < (d :: ds).length) :
    load (utf8 (d :: ds)) {} = .ok (.error (.excess (.digits (d :: ds).length))) {} := by
  have hreturn : '\r' ∉ d :: ds := fun hm => absurd (hd _ hm) (by decide)
  refine load_of_error (readFile_eq_excess_iff.mpr ⟨_, Utf8.decode_utf8 _, ?_⟩)
  rw [unifyLineEnds_of_not_mem hreturn]
  exact Json.read_of_digits hd h0 hlong

/-- The digit 1, once more than is read. -/
theorem load_ones : load (utf8 (List.replicate 4301 '1')) {} =
    .ok (.error (.excess (.digits 4301))) {} := by
  have hdigits : ∀ c ∈ '1' :: List.replicate 4300 '1', c.isDigit := by
    intro c hc
    rcases List.mem_cons.mp hc with rfl | hc
    · rfl
    · rw [List.eq_of_mem_replicate hc]
      rfl
  have hlength : ('1' :: List.replicate 4300 '1').length = 4301 := by
    rw [List.length_cons, List.length_replicate]
  have hload := load_of_digits hdigits (by decide) (by rw [hlength]; decide)
  rwa [hlength, ← List.replicate_succ] at hload

end Assembly

end XPathAssembly
