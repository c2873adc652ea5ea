import Mathlib.Data.List.Basic
import XPathAssembly.Proofs.Upkeep.Metadata
import XPathAssembly.Upkeep.Agreement

/-!
# What the check of the metadata finds

The check asks for one field after the other.  If every question is answered, all of them have been
asked, the report has an entry for each field that differs, and the check succeeds exactly if the
distribution and the module agree in everything.

    (∀ f ∈ questions stated, reply f = .written (described f)) →
      (checkAgreement true reply stated).result = .ok r →
        (r.code = 0 ↔ Agree described stated) ∧ (r.err = [] ↔ Agree described stated)
                                                                           (code_eq_zero_iff)

The first question that is not answered ends the check (`checkAgreement_failed`).
-/

namespace XPathAssembly

namespace Upkeep

/-! ## Definitions -/

/-- The fields that are asked for, in order. -/
def questions (fields : List (Text × Option Text)) : List Text :=
  fields.map Prod.fst ++ ["classifiers".toList]

/-- The entry about a field. -/
def entry (described : Text → Text) (f : Text × Option Text) : Text :=
  if some (trim (described f.1)) = f.2 then [] else differs f.1 (trim (described f.1)) f.2

/-- The classifiers that the distribution answers with. -/
def classifiersOf (described : Text → Text) : Text := trim (described "classifiers".toList)

/-- The distribution and the module agree: in every field, and in a status that there is. -/
structure Agree (described : Text → Text) (stated : Stated) : Prop where
  texts : ∀ f ∈ stated.texts, f.2 = some (trim (described f.1))
  status : ∃ s, statusOf? (lineBodies (classifiersOf described)) = some s ∧ stated.status = some s

variable {reply : Text → Reply} {described : Text → Text} {stated : Stated} {status : Option Text}
  {fields : List (Text × Option Text)} {field : Text} {code : Int}

/-! ## The status -/

theorem status_eq_some_iff {c s : Text} :
    (statuses.find? fun s => s.1 = c).map (·.2) = some s ↔ (c, s) ∈ statuses := by
  have hnodup : (statuses.map Prod.fst).Nodup := by decide
  rw [Option.map_eq_some_iff]
  constructor
  · rintro ⟨e, hfind, rfl⟩
    obtain ⟨he, rfl⟩ := (Metadata.find?_eq_some_iff hnodup).mp hfind
    exact he
  · intro hs
    exact ⟨(c, s), (Metadata.find?_eq_some_iff hnodup).mpr ⟨hs, rfl⟩, rfl⟩

/-- The status is that of the first classifier that names one. -/
theorem statusOf?_eq_some_iff {classifiers : List Text} {s : Text} :
    statusOf? classifiers = some s ↔ ∃ before c after, classifiers = before ++ c :: after ∧
      (c, s) ∈ statuses ∧ ∀ c' ∈ before, c' ∉ statuses.map Prod.fst := by
  have hnone : ∀ c' : Text, (statuses.find? fun s => s.1 = c').map (·.2) = none ↔
      c' ∉ statuses.map Prod.fst := by
    intro c'
    rw [Option.map_eq_none_iff, List.find?_eq_none]
    constructor
    · intro hall hm
      obtain ⟨e, he, hname⟩ := List.mem_map.mp hm
      exact hall e he (by simpa using hname)
    · intro hm e he hname
      exact hm (List.mem_map.mpr ⟨e, he, by simpa using hname⟩)
  unfold statusOf?
  rw [List.findSome?_eq_some_iff]
  simp only [status_eq_some_iff, hnone]

theorem noStatus_ne_nil : noStatus ≠ [] := by decide

theorem otherStatus_ne_nil (s : Text) (status : Option Text) : otherStatus s status ≠ [] :=
  List.append_ne_nil_of_right_ne_nil _ (List.cons_ne_nil _ _)

theorem differs_ne_nil (field t : Text) (status : Option Text) : differs field t status ≠ [] :=
  List.append_ne_nil_of_right_ne_nil _ (List.cons_ne_nil _ _)

theorem statusReport_eq_nil_iff (classifiers : Text) (status : Option Text) :
    statusReport classifiers status = [] ↔
      ∃ s, statusOf? (lineBodies classifiers) = some s ∧ status = some s := by
  unfold statusReport
  cases statusOf? (lineBodies classifiers) with
  | none => simp only [noStatus_ne_nil, reduceCtorEq, false_and, exists_false]
  | some s =>
    by_cases hs : status = some s
    · simp only [hs, if_true, Option.some.injEq, exists_eq_left']
    · simp only [hs, if_false, otherStatus_ne_nil, Option.some.injEq, exists_eq_left']

/-! ## Asking -/

theorem ask_written (h : reply field = .written (described field)) :
    ask reply field = ⟨[question field], .ok (trim (described field))⟩ := by
  unfold ask
  rw [h]

theorem ask_failed (h : reply field = .failed code) :
    ask reply field = ⟨[question field], .error (.command (question field) code)⟩ := by
  unfold ask
  rw [h]

/-- If every question is answered, everything is compared. -/
theorem compare_written (h : ∀ f ∈ questions fields, reply f = .written (described f)) :
    compare reply status fields = ⟨(questions fields).map question, .ok
      (fields.flatMap (entry described) ++ statusReport (classifiersOf described) status)⟩ := by
  induction fields with
  | nil =>
    unfold compare
    rw [ask_written (h _ (by simp [questions]))]
    rfl
  | cons f rest ih =>
    obtain ⟨field, value⟩ := f
    have hrest := ih (fun f hf => h f (List.mem_cons_of_mem _ hf))
    unfold compare
    rw [ask_written (h _ List.mem_cons_self)]
    simp only [hrest, Except.map, questions, List.map_cons, List.cons_append, List.nil_append,
      List.flatMap_cons, entry, List.append_assoc]

/-- The first question that is not answered is the last that is asked. -/
theorem compare_failed {before after : List Text}
    (hq : questions fields = before ++ field :: after)
    (hbefore : ∀ f ∈ before, reply f = .written (described f)) (hf : reply field = .failed code) :
    compare reply status fields =
      ⟨(before ++ [field]).map question, .error (.command (question field) code)⟩ := by
  induction fields generalizing before with
  | nil =>
    cases before with
    | nil =>
      obtain ⟨rfl, -⟩ := List.cons.inj hq
      unfold compare
      rw [ask_failed hf]
      rfl
    | cons first before =>
      have hlength := congrArg List.length hq
      simp [questions] at hlength
  | cons f rest ih =>
    obtain ⟨name, value⟩ := f
    unfold compare
    cases before with
    | nil =>
      obtain ⟨rfl, -⟩ := List.cons.inj hq
      rw [ask_failed hf]
      rfl
    | cons first before =>
      obtain ⟨rfl, hrest⟩ := List.cons.inj hq
      rw [ask_written (hbefore _ List.mem_cons_self)]
      simp only [ih hrest (fun f hf => hbefore f (List.mem_cons_of_mem _ hf))]
      rfl

/-! ## The check -/

theorem entry_eq_nil_iff (described : Text → Text) (f : Text × Option Text) :
    entry described f = [] ↔ f.2 = some (trim (described f.1)) := by
  unfold entry
  by_cases h : some (trim (described f.1)) = f.2
  · simp only [h, if_true]
  · simp only [h, if_false, differs_ne_nil, false_iff]
    exact fun heq => h heq.symm

/-- The check reports every field that differs, in order, and then the status. -/
theorem checkAgreement_written
    (h : ∀ f ∈ questions stated.texts, reply f = .written (described f)) :
    ∃ err, err = stated.texts.flatMap (entry described) ++
        statusReport (classifiersOf described) stated.status ∧
      checkAgreement true reply stated = ⟨(questions stated.texts).map question,
        .ok { code := if err = [] then 0 else -1, err }⟩ := by
  refine ⟨_, rfl, ?_⟩
  unfold checkAgreement
  rw [if_pos rfl, compare_written h]
  rfl

/-- **The check tells whether the metadata agree**, once its questions are answered. -/
theorem code_eq_zero_iff {r : Response}
    (h : ∀ f ∈ questions stated.texts, reply f = .written (described f))
    (hr : (checkAgreement true reply stated).result = .ok r) :
    (r.code = 0 ↔ Agree described stated) ∧ (r.err = [] ↔ Agree described stated) := by
  obtain ⟨err, herr, hcheck⟩ := checkAgreement_written h
  rw [hcheck] at hr
  obtain rfl := Except.ok.inj hr
  have hagree : err = [] ↔ Agree described stated := by
    rw [herr, List.append_eq_nil_iff, statusReport_eq_nil_iff, List.flatMap_eq_nil_iff]
    simp only [entry_eq_nil_iff]
    exact ⟨fun hboth => ⟨hboth.1, hboth.2⟩, fun hagree => ⟨hagree.texts, hagree.status⟩⟩
  refine ⟨?_, hagree⟩
  rw [← hagree]
  by_cases hnil : err = []
  · simp only [hnil, if_true]
  · simp only [hnil, if_false, iff_false]
    exact nofun

/-- The first question that is not answered ends the check, and nothing is reported. -/
theorem checkAgreement_failed {before after : List Text}
    (hq : questions stated.texts = before ++ field :: after)
    (hbefore : ∀ f ∈ before, reply f = .written (described f)) (hf : reply field = .failed code) :
    checkAgreement true reply stated =
      ⟨(before ++ [field]).map question, .error (.command (question field) code)⟩ := by
  unfold checkAgreement
  rw [if_pos rfl, compare_failed hq hbefore hf]
  rfl

/-- What a reply wrote, if anything. -/
def Reply.text : Reply → Text
  | written t => t
  | failed _ => []

/-- Every question is answered, or there is a first that is not. -/
theorem answered_or_failed (reply : Text → Reply) (qs : List Text) :
    (∀ f ∈ qs, reply f = .written (reply f).text) ∨
      ∃ before field after code, qs = before ++ field :: after ∧
        (∀ f ∈ before, reply f = .written (reply f).text) ∧ reply field = .failed code := by
  induction qs with
  | nil => exact Or.inl (by simp)
  | cons first rest ih =>
    cases hreply : reply first with
    | failed code => exact Or.inr ⟨[], first, rest, code, rfl, by simp, hreply⟩
    | written t =>
      have hfirst : reply first = .written (reply first).text := by
        rw [hreply]
        rfl
      rcases ih with hall | ⟨before, field, after, code, rfl, hbefore, hf⟩
      · exact Or.inl (List.forall_mem_cons.mpr ⟨hfirst, hall⟩)
      · exact Or.inr ⟨first :: before, field, after, code, rfl,
          List.forall_mem_cons.mpr ⟨hfirst, hbefore⟩, hf⟩

/-- Whatever is replied, the check reports on all fields or ends with a command that failed. -/
theorem checkAgreement_ends (reply : Text → Reply) (stated : Stated) :
    (∃ r, (checkAgreement true reply stated).result = .ok r ∧
        (r.code = 0 ↔ Agree (fun f => (reply f).text) stated)) ∨
      ∃ field ∈ questions stated.texts, ∃ code, reply field = .failed code ∧
        (checkAgreement true reply stated).result = .error (.command (question field) code) := by
  rcases answered_or_failed reply (questions stated.texts) with
    hall | ⟨before, field, after, code, hq, hbefore, hf⟩
  · obtain ⟨err, -, hcheck⟩ := checkAgreement_written hall
    refine Or.inl ⟨{ code := if err = [] then 0 else -1, err }, by rw [hcheck], ?_⟩
    exact (code_eq_zero_iff hall (by rw [hcheck])).1
  · refine Or.inr ⟨field, by rw [hq]; simp, code, hf, ?_⟩
    rw [checkAgreement_failed hq hbefore hf]

/-- The package agrees with what its own metadata say of it. -/
example : (checkAgreement true ownReply {}).result = .ok { code := 0 } := by decide +kernel

end Upkeep

end XPathAssembly
