import Mathlib.Data.List.Basic
import Mathlib.Data.Set.List
import XPathAssembly.Proofs.CommandLine.Options
import XPathAssembly.Proofs.Text.Word
import XPathAssembly.Upkeep.Steps

/-!
# The course of the steps

Before a commit the steps that are wanted are run in their fixed order, and each of them carries out
its jobs in order.  The first job that fails ends the run: it is complained about, and nothing is
started after it.  If none fails, every job has been started, and nothing is complained about.

    parse stepOptions line = .ok (.settings ss) →
      Ends files (isOverwriting ss) (isWanted ss) codes (precommit files codes line)
                                                                              (precommit_ends)

The run is said through its plan, the list of the jobs of all steps that are wanted: what is started
is a front part of it (`Ends.jobs_prefix`), and the run succeeds exactly if all of it does
(`Ends.code_eq_zero_iff`).  Which steps are wanted is read off the line without loss, since it can
only name steps (`isWanted_iff`).
-/

namespace XPathAssembly

namespace Upkeep

/-! ## Definitions -/

/-- The jobs of a step, in order, each with what it is started for. -/
def Step.jobs (files : List SourceFile) (overwrite : Bool) : Step → List (Text × Job)
  | reformat =>
    let files := targets ++ words ["setup.py"]
    if overwrite then [("black".toList, job (words ["black"] ++ files))]
    else [("check with black".toList, job (words ["black", "--check"] ++ files))]
  | mypy => [("mypy".toList, job (words ["mypy", "--strict"] ++ targets))]
  | pylint => [("pylint".toList, job (words ["pylint"] ++ targets))]
  | test =>
    [("execute unit tests".toList,
      job (words ["coverage", "run", "--source", "slax_strings", "-m", "unittest", "discover"])
        (some "true".toList)),
     ("report the coverage".toList, job (words ["coverage", "report"]))]
  | doctest =>
    match modulesWithExamples files with
    | [] => []
    | modules => [("doctest".toList, job (words ["python3", "-m", "doctest"] ++ modules))]
  | coincide =>
    [("check that slax_strings/__init__.py and setup.py coincide".toList,
      job (words ["python3", "continuous_integration/check_init_and_setup_coincide.py"]))]

/-- What a step says when there is nothing for it to do. -/
def Step.remark (files : List SourceFile) : Step → Text
  | doctest =>
    if modulesWithExamples files = [] then
      "There are no doctests in slax_strings.".toList ++ ['\n']
    else []
  | reformat | mypy | pylint | test | coincide => []

/-- What is said about a step when its turn comes. -/
def Step.notice (files : List SourceFile) (wanted : Step → Bool) (s : Step) : Text :=
  if wanted s then "Running ".toList ++ s.name ++ "...".toList ++ ['\n'] ++ s.remark files
  else "Skipped ".toList ++ s.name ++ ['.'] ++ ['\n']

/-- The part of the plan that belongs to a step. -/
def Step.share (files : List SourceFile) (overwrite : Bool) (wanted : Step → Bool) (s : Step) :
    List (Text × Job) :=
  if wanted s then s.jobs files overwrite else []

def plan (files : List SourceFile) (overwrite : Bool) (wanted : Step → Bool) (steps : List Step) :
    List (Text × Job) :=
  steps.flatMap (Step.share files overwrite wanted)

/-- Carries out jobs up to the first that fails. -/
def carryOutAll : List (Text × Job) → Work Bool
  | [] => return true
  | (verb, j) :: rest => do
    if ← carryOut verb j then carryOutAll rest else return false

/-- The line about a job that failed. -/
def complaint (verb : Text) (j : Job) (code : Int) : Text :=
  "Failed to ".toList ++ verb ++ " with exit code ".toList ++ decimal code ++ ": ".toList ++
    Word.line j.words ++ ['\n']

/-- The code that the job with this number ends with. -/
def codeOf (codes : List Int) (n : Nat) : Int := codes.getD n 0

/-- How a run of all steps ends: with the plan carried out, or with the first job that fails. -/
inductive Ends (files : List SourceFile) (overwrite : Bool) (wanted : Step → Bool)
    (codes : List Int) : Response × List Job → Prop
  | succeeded (hzero : ∀ n < (plan files overwrite wanted Step.all).length, codeOf codes n = 0) :
    Ends files overwrite wanted codes
      ({ code := 0, out := Step.all.flatMap (Step.notice files wanted) },
       (plan files overwrite wanted Step.all).map Prod.snd)
  | failed {done rest : List Step} {s : Step} {before after : List (Text × Job)} {verb : Text}
    {j : Job} (hsteps : Step.all = done ++ s :: rest)
    (hjobs : s.share files overwrite wanted = before ++ (verb, j) :: after)
    (hzero : ∀ n < (plan files overwrite wanted done ++ before).length, codeOf codes n = 0)
    (hne : codeOf codes (plan files overwrite wanted done ++ before).length ≠ 0) :
    Ends files overwrite wanted codes
      ({ code := 1, out := (done ++ [s]).flatMap (Step.notice files wanted),
         err := complaint verb j
           (codeOf codes (plan files overwrite wanted done ++ before).length) },
       (plan files overwrite wanted done ++ before).map Prod.snd ++ [j])

/-- The steps that are wanted under these settings. -/
def isWanted (ss : List Options.Setting) (s : Step) : Bool :=
  (Options.valuesOf? ss "--select".toList).all (·.contains s.name) &&
    !(Options.valuesOf? ss "--skip".toList).any (·.contains s.name)

def isOverwriting (ss : List Options.Setting) : Bool :=
  (Options.valuesOf? ss "--overwrite".toList).isSome

variable {files : List SourceFile} {overwrite : Bool} {wanted : Step → Bool} {codes : List Int}
  {steps done rest : List Step} {s : Step} {before after : List (Text × Job)} {verb : Text}
  {j : Job} {p : Progress} {e : Response × List Job}

/-! ## One job -/

theorem Work.bind_apply {α β : Type} (x : Work α) (f : α → Work β) (p : Progress) :
    (x >>= f) p = f (x p).1 (x p).2 := rfl

theorem Work.pure_apply {α : Type} (a : α) (p : Progress) : (pure a : Work α) p = (a, p) := rfl

theorem say_apply (line : Text) (p : Progress) :
    say line p = ((), { p with out := p.out ++ line ++ ['\n'] }) := rfl

theorem complain_apply (line : Text) (p : Progress) :
    complain line p = ((), { p with err := p.err ++ line ++ ['\n'] }) := rfl

theorem start_apply (j : Job) (p : Progress) :
    start j p =
      (codeOf p.codes 0, { p with codes := p.codes.tail, jobs := p.jobs ++ [j] }) := by
  have hcode : codeOf p.codes 0 = p.codes.headD 0 := by
    cases p.codes <;> rfl
  rw [hcode]
  rfl

theorem carryOut_of_zero (verb : Text) (j : Job) (h : codeOf p.codes 0 = 0) :
    carryOut verb j p = (true, { p with codes := p.codes.tail, jobs := p.jobs ++ [j] }) := by
  unfold carryOut
  rw [Work.bind_apply, start_apply, if_pos h, Work.pure_apply]

theorem carryOut_of_ne (verb : Text) (j : Job) (h : codeOf p.codes 0 ≠ 0) :
    carryOut verb j p = (false, { p with
      codes := p.codes.tail, jobs := p.jobs ++ [j],
      err := p.err ++ complaint verb j (codeOf p.codes 0) }) := by
  unfold carryOut complaint
  rw [Work.bind_apply, start_apply, if_neg h, Work.bind_apply, complain_apply, Work.pure_apply]
  simp only [List.append_assoc]

/-! ## Jobs in a row -/

theorem codeOf_tail (codes : List Int) (n : Nat) : codeOf codes.tail n = codeOf codes (n + 1) := by
  unfold codeOf
  cases codes <;> rfl

theorem codeOf_drop (codes : List Int) (m n : Nat) :
    codeOf (codes.drop m) n = codeOf codes (m + n) := by
  unfold codeOf
  simp [List.getD_eq_getElem?_getD]

theorem carryOutAll_of_zero {todo : List (Text × Job)}
    (h : ∀ n < todo.length, codeOf p.codes n = 0) :
    carryOutAll todo p = (true, { p with
      codes := p.codes.drop todo.length
      jobs := p.jobs ++ todo.map Prod.snd }) := by
  induction todo generalizing p with
  | nil => simp [carryOutAll, Work.pure_apply]
  | cons first rest ih =>
    obtain ⟨verb, j⟩ := first
    unfold carryOutAll
    rw [Work.bind_apply, carryOut_of_zero verb j (h 0 (by simp)), if_pos rfl, ih]
    · simp
    · intro n hn
      rw [codeOf_tail]
      exact h (n + 1) (by simpa using hn)

theorem carryOutAll_of_ne (hzero : ∀ n < before.length, codeOf p.codes n = 0)
    (hne : codeOf p.codes before.length ≠ 0) :
    carryOutAll (before ++ (verb, j) :: after) p =
      (false, { p with
        codes := p.codes.drop (before.length + 1)
        jobs := p.jobs ++ before.map Prod.snd ++ [j]
        err := p.err ++ complaint verb j (codeOf p.codes before.length) }) := by
  induction before generalizing p with
  | nil =>
    rw [List.nil_append]
    unfold carryOutAll
    rw [Work.bind_apply, carryOut_of_ne verb j hne, if_neg Bool.false_ne_true, Work.pure_apply]
    simp
  | cons first rest ih =>
    obtain ⟨verb', j'⟩ := first
    rw [List.cons_append]
    unfold carryOutAll
    rw [Work.bind_apply, carryOut_of_zero verb' j' (hzero 0 (by simp)), if_pos rfl, ih]
    · simp [codeOf_tail]
    · intro n hn
      rw [codeOf_tail]
      exact hzero (n + 1) (by simpa using hn)
    · rw [codeOf_tail]
      exact hne

/-! ## Steps -/

theorem carryOutAll_singleton (verb : Text) (j : Job) :
    carryOutAll [(verb, j)] = carryOut verb j := by
  funext p
  unfold carryOutAll
  rw [Work.bind_apply]
  cases hrun : carryOut verb j p with
  | mk ok q => cases ok <;> rfl

theorem Step.run_eq (s : Step) (p : Progress) :
    s.run files overwrite p =
      carryOutAll (s.jobs files overwrite) { p with out := p.out ++ s.remark files } := by
  cases s with
  | reformat =>
    rw [jobs, remark, List.append_nil, run]
    cases overwrite with
    | true => rw [if_pos rfl, if_pos rfl, carryOutAll_singleton]
    | false => rw [if_neg Bool.false_ne_true, if_neg Bool.false_ne_true, carryOutAll_singleton]
  | mypy | pylint | coincide =>
    rw [jobs, carryOutAll_singleton, remark, List.append_nil, run]
  | test =>
    rw [jobs, carryOutAll, carryOutAll_singleton, remark, List.append_nil, run]
  | doctest =>
    unfold run jobs remark
    cases hmodules : modulesWithExamples files with
    | nil =>
      simp only [if_true]
      rw [Work.bind_apply, say_apply]
      rw [carryOutAll, Work.pure_apply, Work.pure_apply, List.append_assoc]
    | cons m ms => simp only [reduceCtorEq, if_false, carryOutAll_singleton, List.append_nil]

/-- A step is announced, then its part of the plan is carried out; the rest is run if that
succeeds. -/
theorem runSteps_cons (s : Step) (rest : List Step) (p : Progress) :
    runSteps files overwrite wanted (s :: rest) p =
      (do if ← carryOutAll (s.share files overwrite wanted) then
            runSteps files overwrite wanted rest
          else return false : Work Bool) { p with out := p.out ++ s.notice files wanted } := by
  rw [runSteps]
  unfold Step.share Step.notice
  by_cases hs : wanted s = true
  · rw [if_pos hs, if_pos hs, if_pos hs, Work.bind_apply, say_apply, Work.bind_apply,
      Work.bind_apply, Step.run_eq]
    simp only [List.append_assoc]
  · rw [if_neg hs, if_neg hs, if_neg hs, Work.bind_apply, say_apply, Work.bind_apply, carryOutAll,
      Work.pure_apply, if_pos rfl]
    simp only [List.append_assoc]

/-- If every job of the plan succeeds, all of them are started and every step is announced. -/
theorem runSteps_of_zero
    (h : ∀ n < (plan files overwrite wanted steps).length, codeOf p.codes n = 0) :
    runSteps files overwrite wanted steps p = (true, { p with
      codes := p.codes.drop (plan files overwrite wanted steps).length
      jobs := p.jobs ++ (plan files overwrite wanted steps).map Prod.snd
      out := p.out ++ steps.flatMap (Step.notice files wanted) }) := by
  induction steps generalizing p with
  | nil => simp [runSteps, plan, Work.pure_apply]
  | cons s rest ih =>
    have hplan : plan files overwrite wanted (s :: rest) =
        s.share files overwrite wanted ++ plan files overwrite wanted rest := rfl
    rw [hplan, List.length_append] at h
    rw [runSteps_cons, Work.bind_apply, carryOutAll_of_zero, if_pos rfl, ih]
    · simp [hplan]
    · intro n hn
      rw [codeOf_drop]
      exact h _ (by omega)
    · intro n hn
      exact h n (by omega)

/-- The first job that fails ends the run, after the announcement of its step. -/
theorem runSteps_of_ne (hjobs : s.share files overwrite wanted = before ++ (verb, j) :: after)
    (hzero : ∀ n < (plan files overwrite wanted done ++ before).length, codeOf p.codes n = 0)
    (hne : codeOf p.codes (plan files overwrite wanted done ++ before).length ≠ 0) :
    runSteps files overwrite wanted (done ++ s :: rest) p = (false, { p with
      codes := p.codes.drop ((plan files overwrite wanted done ++ before).length + 1)
      jobs := p.jobs ++ (plan files overwrite wanted done ++ before).map Prod.snd ++ [j]
      out := p.out ++ (done ++ [s]).flatMap (Step.notice files wanted)
      err := p.err ++
        complaint verb j
          (codeOf p.codes (plan files overwrite wanted done ++ before).length) }) := by
  induction done generalizing p with
  | nil =>
    rw [List.nil_append, runSteps_cons, Work.bind_apply, hjobs, carryOutAll_of_ne,
      if_neg Bool.false_ne_true, Work.pure_apply]
    · simp [plan]
    · exact hzero
    · exact hne
  | cons first done ih =>
    have hplan : plan files overwrite wanted (first :: done) ++ before =
        first.share files overwrite wanted ++ (plan files overwrite wanted done ++ before) := by
      simp [plan]
    rw [hplan, List.length_append] at hzero hne
    rw [List.cons_append, runSteps_cons, Work.bind_apply, carryOutAll_of_zero, if_pos rfl, ih]
    · simp [hplan, codeOf_drop, Nat.add_assoc]
    · intro n hn
      rw [codeOf_drop]
      exact hzero _ (by omega)
    · rw [codeOf_drop]
      exact hne
    · intro n hn
      exact hzero n (by omega)

/-! ## The run -/

/-- A number below the length of the plan is that of a job of one of the steps. -/
theorem exists_job_of_lt {n : Nat} (h : n < (plan files overwrite wanted steps).length) :
    ∃ done s rest before verb j after, steps = done ++ s :: rest ∧
      s.share files overwrite wanted = before ++ (verb, j) :: after ∧
      n = (plan files overwrite wanted done ++ before).length := by
  induction steps generalizing n with
  | nil => simp [plan] at h
  | cons s rest ih =>
    have hplan : plan files overwrite wanted (s :: rest) =
        s.share files overwrite wanted ++ plan files overwrite wanted rest := rfl
    rw [hplan, List.length_append] at h
    by_cases hn : n < (s.share files overwrite wanted).length
    · have hsplit := List.take_append_drop n (s.share files overwrite wanted)
      rw [List.drop_eq_getElem_cons hn] at hsplit
      exact ⟨[], s, rest, _, _, _, _, rfl, hsplit.symm, by simp [plan]; omega⟩
    · obtain ⟨done, s', rest', before, verb, j, after, rfl, hjobs, hlength⟩ :=
        ih (n := n - (s.share files overwrite wanted).length) (by omega)
      refine ⟨s :: done, s', rest', before, verb, j, after, rfl, hjobs, ?_⟩
      simp [plan] at hlength ⊢
      omega

/-- Among the first `m` codes none is bad, or there is a first one that is. -/
theorem codes_zero_or_first (codes : List Int) (m : Nat) :
    (∀ n < m, codeOf codes n = 0) ∨
      ∃ k < m, (∀ n < k, codeOf codes n = 0) ∧ codeOf codes k ≠ 0 := by
  induction m with
  | zero => exact Or.inl (fun n hn => absurd hn (Nat.not_lt_zero n))
  | succ m ih =>
    rcases ih with hzero | ⟨k, hk, hfirst⟩
    · by_cases hm : codeOf codes m = 0
      · refine Or.inl fun n hn => ?_
        rcases Nat.lt_succ_iff_lt_or_eq.mp hn with hn | rfl
        · exact hzero n hn
        · exact hm
      · exact Or.inr ⟨m, by omega, hzero, hm⟩
    · exact Or.inr ⟨k, by omega, hfirst⟩

/-- **The run.**  A command line that is read is answered by a run of the steps that it wants,
whatever codes the jobs end with. -/
theorem precommit_ends {line : List Text} {ss : List Options.Setting}
    (h : Options.parse stepOptions line = .ok (.settings ss)) :
    Ends files (isOverwriting ss) (isWanted ss) codes (precommit files codes line) := by
  have hrun : ∀ steps ok p, Step.all = steps →
      runSteps files (isOverwriting ss) (isWanted ss) steps { codes } = (ok, p) →
        precommit files codes line =
          ({ code := if ok then 0 else 1, out := p.out, err := p.err }, p.jobs) := by
    rintro steps ok p rfl heq
    unfold isOverwriting isWanted at heq
    unfold precommit
    rw [h]
    simp only
    rw [heq]
  have hcodes := codes_zero_or_first codes
    (plan files (isOverwriting ss) (isWanted ss) Step.all).length
  rcases hcodes with hzero | ⟨k, hk, hzero, hne⟩
  · rw [hrun _ _ _ rfl (runSteps_of_zero hzero)]
    exact Ends.succeeded hzero
  · obtain ⟨done, s, rest, before, verb, j, after, hsteps, hjobs, rfl⟩ := exists_job_of_lt hk
    rw [hrun _ _ _ hsteps (runSteps_of_ne hjobs hzero hne)]
    exact Ends.failed hsteps hjobs hzero hne

example : (precommit [] [0, 3] (words ["--select", "mypy", "test"])).1.err =
    "Failed to execute unit tests with exit code 3: ".toList ++
      "coverage run --source slax_strings -m unittest discover\n".toList := by
  decide +kernel

/-- What is started is a front part of the plan. -/
theorem Ends.jobs_prefix (h : Ends files overwrite wanted codes e) :
    e.2 <+: (plan files overwrite wanted Step.all).map Prod.snd := by
  cases h with
  | succeeded => exact List.prefix_rfl
  | failed hsteps hjobs =>
    rw [hsteps]
    simp [plan, hjobs]

/-- The run succeeds exactly if every job of the plan does. -/
theorem Ends.code_eq_zero_iff (h : Ends files overwrite wanted codes e) :
    e.1.code = 0 ↔ ∀ n < (plan files overwrite wanted Step.all).length, codeOf codes n = 0 := by
  cases h with
  | succeeded hzero => exact ⟨fun _ => hzero, fun _ => rfl⟩
  | failed hsteps hjobs hzero hne =>
    refine ⟨nofun, fun hall => absurd (hall _ ?_) hne⟩
    rw [hsteps]
    simp [plan, hjobs]

/-- The run succeeds exactly if nothing is complained about. -/
theorem Ends.err_eq_nil_iff (h : Ends files overwrite wanted codes e) :
    e.1.err = [] ↔ e.1.code = 0 := by
  cases h with
  | succeeded => exact ⟨fun _ => rfl, fun _ => rfl⟩
  | failed =>
    refine ⟨fun herr => ?_, nofun⟩
    unfold complaint at herr
    simp at herr

/-! ## Steps that are wanted -/

theorem Step.name_injective {s t : Step} (h : s.name = t.name) : s = t := by
  cases s <;> cases t <;> first | rfl | exact absurd h (by decide)

theorem Step.mem_all (s : Step) : s ∈ all := by cases s <;> decide

/-- The options that name steps. -/
theorem stepOptions_choices : ∀ o ∈ stepOptions,
    "--select".toList ∈ o.names ∨ "--skip".toList ∈ o.names →
      o.choices = some (Step.all.map Step.name) := by
  decide

/-- An option that names steps was given names of steps only. -/
theorem exists_steps_of_valuesOf? {line : List Text} {ss : List Options.Setting} {name : Text}
    (h : Options.parse stepOptions line = .ok (.settings ss))
    (hname : name = "--select".toList ∨ name = "--skip".toList) :
    ∃ named : Option (List Step),
      Options.valuesOf? ss name = named.map (List.map Step.name) := by
  cases hvalues : Options.valuesOf? ss name with
  | none => exact ⟨none, rfl⟩
  | some values =>
    obtain ⟨t, ht, hmem, rfl⟩ := Options.exists_of_valuesOf? hvalues
    have hfits := (Options.parse_fits h).1 t ht
    have hchoices : t.option.choices = some (Step.all.map Step.name) := by
      apply stepOptions_choices _ hfits.known
      rcases hname with rfl | rfl
      · exact Or.inl hmem
      · exact Or.inr hmem
    have hnames : t.values ∈ Set.range (List.map Step.name) := by
      rw [Set.range_list_map]
      intro v hv
      obtain ⟨s, -, hs⟩ := List.mem_map.mp (hfits.chosen _ hchoices v hv)
      exact ⟨s, hs⟩
    obtain ⟨named, hnamed⟩ := hnames
    exact ⟨some named, by rw [← hnamed]; rfl⟩

/-- A step is wanted if it is among those selected, where any are selected, and is not skipped. -/
theorem isWanted_iff {line : List Text} {ss : List Options.Setting}
    (h : Options.parse stepOptions line = .ok (.settings ss)) :
    ∃ selected skipped : Option (List Step),
      Options.valuesOf? ss "--select".toList = selected.map (List.map Step.name) ∧
      Options.valuesOf? ss "--skip".toList = skipped.map (List.map Step.name) ∧
      ∀ s, isWanted ss s = true ↔ (∀ l ∈ selected, s ∈ l) ∧ ∀ l ∈ skipped, s ∉ l := by
  obtain ⟨selected, hselected⟩ := exists_steps_of_valuesOf? h (Or.inl rfl)
  obtain ⟨skipped, hskipped⟩ := exists_steps_of_valuesOf? h (Or.inr rfl)
  refine ⟨selected, skipped, hselected, hskipped, ?_⟩
  intro s
  have hmem : ∀ l : List Step, s.name ∈ l.map Step.name ↔ s ∈ l := by
    intro l
    refine ⟨fun hm => ?_, List.mem_map_of_mem⟩
    obtain ⟨t, ht, hname⟩ := List.mem_map.mp hm
    exact Step.name_injective hname ▸ ht
  unfold isWanted
  rw [hselected, hskipped]
  cases selected <;> cases skipped <;> simp [hmem]

/-! ## Files -/

/-- The last of several texts that was written at a place. -/
def IsLast (written : List (Path × Text)) (place : List Text) (content : Text) : Prop :=
  ∃ earlier path later, written = earlier ++ (path, content) :: later ∧
    path.place? = some place ∧ ∀ w ∈ later, w.1.place? ≠ some place

theorem isLast_cons {path : Path} {text content : Text} {rest : List (Path × Text)}
    {place : List Text} :
    IsLast ((path, text) :: rest) place content ↔
      IsLast rest place content ∨
        (text = content ∧ path.place? = some place ∧ ∀ w ∈ rest, w.1.place? ≠ some place) := by
  constructor
  · rintro ⟨earlier, path', later, heq, hplace, hlater⟩
    cases earlier with
    | nil =>
      cases heq
      exact Or.inr ⟨rfl, hplace, hlater⟩
    | cons first earlier =>
      cases heq
      exact Or.inl ⟨earlier, path', later, rfl, hplace, hlater⟩
  · rintro (⟨earlier, path', later, rfl, hplace, hlater⟩ | ⟨rfl, hplace, hrest⟩)
    · exact ⟨(path, text) :: earlier, path', later, rfl, hplace, hlater⟩
    · exact ⟨[], path, rest, rfl, hplace, hrest⟩

/-- A file is there exactly with the content that was written last at its place. -/
theorem mem_writtenFiles {written : List (Path × Text)} {place : List Text} {content : Text} :
    ⟨place, content⟩ ∈ writtenFiles written ↔ IsLast written place content := by
  induction written with
  | nil => simp [writtenFiles, IsLast]
  | cons w rest ih =>
    obtain ⟨path, text⟩ := w
    rw [isLast_cons, ← ih, writtenFiles]
    cases hplace : path.place? with
    | none => simp
    | some q =>
      by_cases hany : (rest.any fun later => later.1.place? = some q) = true
      · obtain ⟨w, hw, hq⟩ := List.any_eq_true.mp hany
        have hwq : w.1.place? = some q := by simpa using hq
        simp only [hany, if_true]
        refine ⟨Or.inl, ?_⟩
        rintro (h | ⟨-, hpq, hrest⟩)
        · exact h
        · exact absurd (hwq.trans hpq) (hrest w hw)
      · have hrest : ∀ w ∈ rest, w.1.place? ≠ some q := by simpa using hany
        simp only [hany, Bool.false_eq_true, if_false, List.mem_cons, SourceFile.mk.injEq]
        constructor
        · rintro (⟨rfl, rfl⟩ | h)
          · exact Or.inr ⟨rfl, rfl, hrest⟩
          · exact Or.inl h
        · rintro (h | ⟨rfl, hpq, -⟩)
          · exact Or.inr h
          · exact Or.inl ⟨(Option.some.inj hpq).symm, rfl⟩

/-- The modules are those with examples, in the order of their paths. -/
theorem mem_modulesWithExamples {files : List SourceFile} {t : Text} :
    t ∈ modulesWithExamples files ↔
      ∃ f ∈ files, hasExamples f = true ∧ ['/'].intercalate f.place = t := by
  unfold modulesWithExamples
  rw [List.mem_mergeSort, List.mem_map]
  simp only [List.mem_filter, and_assoc]

theorem pairwise_modulesWithExamples (files : List SourceFile) :
    (modulesWithExamples files).Pairwise fun s t => inOrder s t = true := by
  apply List.pairwise_mergeSort
  · intro s t u
    exact inOrder_trans
  · intro s t
    rw [Bool.or_eq_true]
    exact inOrder_total s t

end Upkeep

end XPathAssembly
