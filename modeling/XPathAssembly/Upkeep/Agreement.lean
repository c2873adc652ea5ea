import XPathAssembly.Text.Blank
import XPathAssembly.Text.Lines
import XPathAssembly.Upkeep.Metadata

/-!
# Agreement of the metadata

The package states its version, author, licence, description and status twice: in the metadata of
the distribution and in the module itself.  The check asks for the first by one command a field and
compares them with the second; every disagreement is reported.
-/

namespace XPathAssembly

namespace Upkeep

/-- The place of the metadata, in the folder of the project. -/
def metadataPlace : List Text := ["setup.py".toList]

/-- Whether the metadata are there after files have been written at these paths. -/
def hasMetadata (paths : List Path) : Bool := paths.any (·.visits metadataPlace)

/-- What the module states about itself; a value may be missing. -/
structure Stated where
  version : Option Text := some Program.version
  author : Option Text := some Metadata.author
  license : Option Text := some Metadata.license
  description : Option Text := some Program.summary
  status : Option Text := some "Beta".toList
deriving DecidableEq, Repr

/-- What a command ends with: what it wrote, or the code it failed with. -/
inductive Reply where
  | written (t : Text)
  | failed (code : Int)
deriving DecidableEq, Repr

/-- Why the check cannot be made. -/
inductive Obstacle where
  /-- The metadata of the distribution are missing. -/
  | noMetadata
  | command (words : List Text) (code : Int)
deriving DecidableEq, Repr

/-! ## Wording -/

/-- The names of the signals that can end a command, by number from 1. -/
def signalNames : List String :=
  ["HUP", "INT", "QUIT", "ILL", "TRAP", "ABRT", "BUS", "FPE", "KILL", "USR1", "SEGV", "USR2",
   "PIPE", "ALRM", "TERM", "STKFLT", "CHLD", "CONT", "STOP", "TSTP", "TTIN", "TTOU", "URG", "XCPU",
   "XFSZ", "VTALRM", "PROF", "WINCH", "IO", "PWR", "SYS"]

def signalName? (n : Nat) : Option Text :=
  if n = 34 then some "RTMIN".toList else if n = 64 then some "RTMAX".toList
  else if n = 0 then none else signalNames[n - 1]?.map String.toList

/-- How a command ended that did not succeed; a negative code is a signal. -/
def endedText (code : Int) : Text :=
  if 0 ≤ code then "returned non-zero exit status ".toList ++ decimal code ++ ['.']
  else
    match signalName? code.natAbs with
    | some name => "died with <Signals.SIG".toList ++ name ++ ": ".toList ++ decimal code.natAbs ++
        ">.".toList
    | none => "died with unknown signal ".toList ++ decimal code.natAbs ++ ['.']

def shownWords (ws : List Text) : Text := Json.enclosed '[' ']' (ws.map Quoted.text)

def Obstacle.message : Obstacle → Text
  | noMetadata => "Could not find the setup.py: <root>/setup.py".toList
  | command words code =>
    "Command '".toList ++ shownWords words ++ "' ".toList ++ endedText code

def shownValue : Option Text → Text
  | none => "None".toList
  | some t => Quoted.text t

def plainValue : Option Text → Text
  | none => "None".toList
  | some t => t

/-- A field that differs. -/
def differs (field : Text) (described : Text) (stated : Option Text) : Text :=
  "The ".toList ++ field ++ " in the setup.py is ".toList ++ Quoted.text described ++
    ", while the ".toList ++ field ++ " in slax_strings/__init__.py is: ".toList ++
    shownValue stated ++ ['\n']

def noStatus : Text :=
  "Expected a status classifier in setup.py ".toList ++
    "(e.g., 'Development Status :: 3 - Alpha'), but found none.\n".toList

def otherStatus (described : Text) (stated : Option Text) : Text :=
  "Expected status ".toList ++ described ++
    " according to setup.py in slax_strings/__init__.py, but found: ".toList ++
    plainValue stated ++ ['\n']

/-! ## The check -/

/-- The stages of development, by the classifiers that name them. -/
def statuses : List (Text × Text) :=
  ["1 - Planning", "2 - Pre-Alpha", "3 - Alpha", "4 - Beta", "5 - Production/Stable", "6 - Mature",
   "7 - Inactive"].map fun s =>
    ("Development Status :: ".toList ++ s.toList, s.toList.drop 4)

/-- The first status among classifiers. -/
def statusOf? (classifiers : List Text) : Option Text :=
  classifiers.findSome? fun c => (statuses.find? fun s => s.1 = c).map (·.2)

/-- The report on the status. -/
def statusReport (classifiers : Text) (stated : Option Text) : Text :=
  match statusOf? (lineBodies classifiers) with
  | none => noStatus
  | some s => if stated = some s then [] else otherStatus s stated

/-- The fields that are compared as texts, with what the module states. -/
def Stated.texts (s : Stated) : List (Text × Option Text) :=
  [("version".toList, s.version), ("author".toList, s.author), ("license".toList, s.license),
   ("description".toList, s.description)]

/-- The command that asks for a field of the distribution. -/
def question (field : Text) : List Text :=
  ["python3".toList, "setup.py".toList, "--".toList ++ field]

/-- The commands that were started, and what came of them. -/
structure Inquiry (α : Type) where
  asked : List (List Text)
  result : Except Obstacle α

/-- The trimmed answer to the question for a field. -/
def ask (reply : Text → Reply) (field : Text) : Inquiry Text :=
  ⟨[question field],
   match reply field with
   | .written t => .ok (trim t)
   | .failed code => .error (.command (question field) code)⟩

/-- The report on the fields, from which the rest follows. -/
def compare (reply : Text → Reply) (stated : Option Text) :
    List (Text × Option Text) → Inquiry Text
  | [] =>
    let classifiers := ask reply "classifiers".toList
    ⟨classifiers.asked, classifiers.result.map (statusReport · stated)⟩
  | (field, value) :: rest =>
    let described := ask reply field
    match described.result with
    | .error o => ⟨described.asked, .error o⟩
    | .ok d =>
      let more := compare reply stated rest
      ⟨described.asked ++ more.asked,
       more.result.map fun report =>
         (if some d = value then [] else differs field d value) ++ report⟩

/-- The response of the check, which fails if there is anything to report. -/
def checkAgreement (described : Bool) (reply : Text → Reply) (stated : Stated) : Inquiry Response :=
  if described then
    let report := compare reply stated.status stated.texts
    ⟨report.asked, report.result.map fun err => { code := if err = [] then 0 else -1, err }⟩
  else ⟨[], .error .noMetadata⟩

/-- The answer of the distribution itself to the question for a field. -/
def ownReply (field : Text) : Reply := .written (Metadata.displayed ["--".toList ++ field])

end Upkeep

end XPathAssembly
