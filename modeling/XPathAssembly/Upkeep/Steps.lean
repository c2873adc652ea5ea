import XPathAssembly.CommandLine.Path
import XPathAssembly.CommandLine.Response
import XPathAssembly.Upkeep.Job

/-!
# Steps before a commit

The steps that a change goes through before it is committed, in their fixed order.  Some may be
selected or skipped; the first that fails ends the run.
-/

namespace XPathAssembly

namespace Upkeep

inductive Step where
  | reformat
  | mypy
  | pylint
  | test
  | doctest
  | coincide
deriving DecidableEq, Repr

namespace Step

def all : List Step := [reformat, mypy, pylint, test, doctest, coincide]

def name : Step → Text
  | reformat => "reformat".toList
  | mypy => "mypy".toList
  | pylint => "pylint".toList
  | test => "test".toList
  | doctest => "doctest".toList
  | coincide => "check-init-and-setup-coincide".toList

end Step

/-! ## Modules with examples -/

/-- A file of the project: the names from its root to the file, and its content. -/
structure SourceFile where
  place : List Text
  content : Text
deriving DecidableEq, Repr

/-- The files that are there after files have been written at these paths, in order: of several at
one place the last remains. -/
def writtenFiles : List (Path × Text) → List SourceFile
  | [] => []
  | (path, content) :: rest =>
    match path.place? with
    | none => writtenFiles rest
    | some place =>
      if rest.any fun later => later.1.place? = some place then writtenFiles rest
      else ⟨place, content⟩ :: writtenFiles rest

/-- Whether `part` occurs in a text. -/
def occurs (part : Text) : Text → Bool
  | [] => part.isEmpty
  | c :: rest => part.isPrefixOf (c :: rest) || occurs part rest

/-- A module of the package with examples in it, apart from the one that is run as a program. -/
def hasExamples (f : SourceFile) : Bool :=
  let name := f.place.getLastD []
  f.place.head? = some "slax_strings".toList && ".py".toList.isSuffixOf name &&
    name ≠ "__main__.py".toList && occurs ">>>".toList f.content

/-- The paths of the modules with examples, in order. -/
def modulesWithExamples (files : List SourceFile) : List Text :=
  ((files.filter hasExamples).map fun f => ['/'].intercalate f.place).mergeSort inOrder

/-- The files of the project itself, as far as they have examples. -/
def ownFiles : List SourceFile :=
  [⟨["slax_strings".toList, "escaping.py".toList], ">>>".toList⟩]

/-! ## Jobs -/

def words (ws : List String) : List Text := ws.map String.toList

/-- A job in the folder of the project. -/
def job (ws : List Text) (slow : Option Text := none) : Job :=
  { words := ws, folder := some ['.'], slow }

/-- The directories that are checked. -/
def targets : List Text := words ["slax_strings", "tests", "continuous_integration"]

/-- Whether a step succeeds. -/
def Step.run (files : List SourceFile) (overwrite : Bool) : Step → Work Bool
  | reformat =>
    let files := targets ++ words ["setup.py"]
    if overwrite then carryOut "black".toList (job (words ["black"] ++ files))
    else carryOut "check with black".toList (job (words ["black", "--check"] ++ files))
  | mypy => carryOut "mypy".toList (job (words ["mypy", "--strict"] ++ targets))
  | pylint => carryOut "pylint".toList (job (words ["pylint"] ++ targets))
  | test => do
    let run := words
      ["coverage", "run", "--source", "slax_strings", "-m", "unittest", "discover"]
    if ← carryOut "execute unit tests".toList (job run (some "true".toList)) then
      carryOut "report the coverage".toList (job (words ["coverage", "report"]))
    else return false
  | doctest =>
    match modulesWithExamples files with
    | [] => do
      say "There are no doctests in slax_strings.".toList
      return true
    | modules => carryOut "doctest".toList (job (words ["python3", "-m", "doctest"] ++ modules))
  | coincide =>
    carryOut "check that slax_strings/__init__.py and setup.py coincide".toList
      (job (words ["python3", "continuous_integration/check_init_and_setup_coincide.py"]))

/-- Runs the steps that are wanted; answers whether all of them succeed. -/
def runSteps (files : List SourceFile) (overwrite : Bool) (wanted : Step → Bool) :
    List Step → Work Bool
  | [] => return true
  | s :: rest => do
    if wanted s then
      say ("Running ".toList ++ s.name ++ "...".toList)
      if ← s.run files overwrite then runSteps files overwrite wanted rest else return false
    else
      say ("Skipped ".toList ++ s.name ++ ['.'])
      runSteps files overwrite wanted rest

/-! ## Command line -/

def stepOptions : List Options.Spec :=
  let choices := some (Step.all.map Step.name)
  [{ names := words ["-h", "--help"], help := true },
   { names := words ["--overwrite"] },
   { names := words ["--select"], arity := .atLeastOne, choices },
   { names := words ["--skip"], arity := .atLeastOne, choices }]

def stepManual : Manual where
  name := "precommit.py".toList
  usage := Manual.ofLines
    ["usage: precommit.py [-h] [--overwrite] [--select  [...]] [--skip  [...]]"]
  details := Manual.ofLines
    ["Run pre-commit checks on the repository.",
     "",
     "options:",
     "  -h, --help        show this help message and exit",
     "  --overwrite       Try to automatically fix the offending files (e.g., by re-",
     "                    formatting).",
     "  --select  [ ...]  If set, only the selected steps are executed. The steps",
     "                    are given as a space-separated list of: reformat mypy",
     "                    pylint test doctest check-init-and-setup-coincide",
     "  --skip  [ ...]    If set, skips the specified steps. The steps are given as",
     "                    a space-separated list of: reformat mypy pylint test",
     "                    doctest check-init-and-setup-coincide"]

/-- The response to a command line, and the jobs that were started. -/
def precommit (files : List SourceFile) (codes : List Int) (line : List Text) :
    Response × List Job :=
  match Options.parse stepOptions line with
  | .error r => (stepManual.refuse r, [])
  | .ok .help => (stepManual.help, [])
  | .ok (.settings settings) =>
    let selected := Options.valuesOf? settings "--select".toList
    let skipped := Options.valuesOf? settings "--skip".toList
    let wanted (s : Step) := selected.all (·.contains s.name) && !skipped.any (·.contains s.name)
    let overwrite := (Options.valuesOf? settings "--overwrite".toList).isSome
    let (succeeded, p) := runSteps files overwrite wanted Step.all { codes }
    ({ code := if succeeded then 0 else 1, out := p.out, err := p.err }, p.jobs)

end Upkeep

end XPathAssembly
