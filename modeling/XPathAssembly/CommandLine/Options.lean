import XPathAssembly.Text.Digit
import XPathAssembly.Text.Quoted

/-!
# Options of a command

A command is called with a list of words.  A word that begins with a dash names an option, in full
or by a beginning that fits no other option; its value follows after an equals sign or as the next
words.  Words that belong to no option are left over.  After the word `--` no word names an option;
attached to an option, it stands for no value.

All words are sorted out before the first option is acted on; after that the options are taken in
order, and asking for help ends the reading.
-/

namespace XPathAssembly

namespace Options

/-- How many words an option takes. -/
inductive Arity where
  | none
  | one
  | atLeastOne
deriving DecidableEq, Repr

structure Spec where
  /-- The ways to name the option. -/
  names : List Text
  arity : Arity := .none
  /-- The values the option can have, if not any. -/
  choices : Option (List Text) := .none
  required : Bool := false
  /-- Whether the option asks for help. -/
  help : Bool := false
deriving DecidableEq, Repr

/-- All names of an option, as messages call it. -/
def Spec.title (o : Spec) : Text := ['/'].intercalate o.names

/-- Why a command line is refused. -/
inductive Refusal where
  | ambiguous (word : Text) (names : List Text)
  | unused (option : Spec) (value : Text)
  | missingOne (option : Spec)
  | missingSome (option : Spec)
  | choice (option : Spec) (value : Text) (choices : List Text)
  | required (options : List Spec)
  | unrecognized (words : List Text)
deriving DecidableEq, Repr

def commas (ts : List Text) : Text := [',', ' '].intercalate ts

/-- A message about an option. -/
def about (o : Spec) (message : Text) : Text :=
  "argument ".toList ++ o.title ++ ": ".toList ++ message

def Refusal.message : Refusal → Text
  | ambiguous word names =>
    "ambiguous option: ".toList ++ word ++ " could match ".toList ++ commas names
  | unused o value => about o ("ignored explicit argument ".toList ++ Quoted.text value)
  | missingOne o => about o "expected one argument".toList
  | missingSome o => about o "expected at least one argument".toList
  | choice o value choices =>
    about o ("invalid choice: ".toList ++ Quoted.text value ++ " (choose from ".toList ++
      commas (choices.map Quoted.text) ++ ")".toList)
  | required os =>
    "the following arguments are required: ".toList ++ commas (os.map Spec.title)
  | unrecognized words => "unrecognized arguments: ".toList ++ [' '].intercalate words

/-! ## Sorting out the words -/

/-- What a word is: a value, an option of the command with the value attached to it, an option the
command does not have, or the end of options. -/
inductive Role where
  | value
  | option (o : Spec) (attached : Option Text)
  | unknown
  | separator
deriving DecidableEq, Repr

/-- The word after which all words are values. -/
def separator : Text := ['-', '-']

def find? (os : List Spec) (name : Text) : Option Spec := os.find? (name ∈ ·.names)

/-- The part before the first equals sign, and the part after it if there is one. -/
def splitEquals (word : Text) : Text × Option Text :=
  match word.span (· != '=') with
  | (before, []) => (before, none)
  | (before, _ :: after) => (before, some after)

/-- All names of all options, in order. -/
def allNames (os : List Spec) : List (Text × Spec) :=
  os.flatMap fun o => o.names.map fun n => (n, o)

/-- The options that a word with two dashes may name by a beginning. -/
def longMatches (os : List Spec) (word : Text) : List (Text × Spec × Option Text) :=
  let (start, value) := splitEquals word
  ((allNames os).filter fun (n, _) => start.isPrefixOf n).map fun (n, o) => (n, o, value)

/-- The options that a word with one dash may name: by one letter with a value after it, or by a
beginning. -/
def shortMatches (os : List Spec) (word : Text) : List (Text × Spec × Option Text) :=
  (allNames os).filterMap fun (n, o) =>
    if n = word.take 2 then some (n, o, some (word.drop 2))
    else if word.isPrefixOf n then some (n, o, none)
    else none

/-- Whether a word is a number below zero, with or without a point. -/
def isNegative (word : Text) : Bool :=
  match word with
  | '-' :: t =>
    let (whole, rest) := t.span isDecimalDigit
    let plain (ds : Text) := !ds.isEmpty
    match rest with
    | [] | ['\n'] => plain whole
    | '.' :: rest =>
      let (fraction, rest) := rest.span isDecimalDigit
      plain fraction && (rest = [] || rest = ['\n'])
    | _ => false
  | _ => false

/-- A word that begins with a dash and is no full name. -/
def rolePartial (os : List Spec) (word : Text) : Except Refusal Role :=
  let found := if separator.isPrefixOf word then longMatches os word else shortMatches os word
  match found with
  | [] => .ok (if isNegative word || ' ' ∈ word then .value else .unknown)
  | [(_, o, attached)] => .ok (.option o attached)
  | found => .error (.ambiguous word (found.map (·.1)))

def roleOf (os : List Spec) (word : Text) : Except Refusal Role :=
  match word with
  | '-' :: _ :: _ =>
    match find? os word, splitEquals word with
    | some o, _ => .ok (.option o none)
    | none, (name, some value) =>
      match find? os name with
      | some o => .ok (.option o (some value))
      | none => rolePartial os word
    | none, _ => rolePartial os word
  | _ => .ok .value

/-- The words with what they are; after the separator all are values. -/
def roles (os : List Spec) : List Text → Except Refusal (List (Text × Role))
  | [] => .ok []
  | word :: rest =>
    if word = separator then .ok ((word, .separator) :: rest.map fun w => (w, .value))
    else
      match roleOf os word, roles os rest with
      | .error r, _ => .error r
      | .ok _, .error r => .error r
      | .ok s, .ok sorted => .ok ((word, s) :: sorted)

/-! ## Taking the options -/

/-- A word that is no value, with the values that follow it. -/
structure Group where
  word : Text
  role : Role
  values : List Text
deriving DecidableEq, Repr

/-- The values before the first group, and the groups. -/
def groups : List (Text × Role) → List Text × List Group
  | [] => ([], [])
  | (word, .value) :: rest => (word :: (groups rest).1, (groups rest).2)
  | (word, role) :: rest => ([], ⟨word, role, (groups rest).1⟩ :: (groups rest).2)

/-- An option with its values. -/
structure Setting where
  option : Spec
  values : List Text
deriving DecidableEq, Repr

/-- What an option word gives: the options to act on, in order, and the words left over. -/
structure Taken where
  settings : List Setting
  left : List Text
deriving DecidableEq, Repr

/-- An option without an attached value takes its values from the words that follow. -/
def takeFollowing (o : Spec) (values : List Text) : Except Refusal Taken :=
  match o.arity, values with
  | .none, _ => .ok ⟨[⟨o, []⟩], values⟩
  | .one, [] => .error (.missingOne o)
  | .one, v :: rest => .ok ⟨[⟨o, [v]⟩], rest⟩
  | .atLeastOne, [] => .error (.missingSome o)
  | .atLeastOne, values => .ok ⟨[⟨o, values⟩], []⟩

/-- The values that an attached text stands for: the separator stands for none. -/
def attachedValues (t : Text) : List Text := if t = separator then [] else [t]

/-- An option with a value attached.  An option of one letter that takes none may have further such
letters attached to it; the last of them takes its values from the words that follow. -/
def takeAttached (os : List Spec) (o : Spec) (short : Bool) (values : List Text) (t : Text) :
    Except Refusal Taken :=
  if o.arity ≠ .none then .ok ⟨[⟨o, attachedValues t⟩], values⟩ else
  match t with
  | [] => .error (.unused o [])
  | c :: rest =>
    match if short then find? os ['-', c] else none with
    | none => .error (.unused o (c :: rest))
    | some next =>
      let more :=
        if rest = [] then takeFollowing next values else takeAttached os next short values rest
      match more with
      | .error r => .error r
      | .ok taken => .ok { taken with settings := ⟨o, []⟩ :: taken.settings }

/-- Whether a word names its option by one letter. -/
def isShort (word : Text) : Bool := !separator.isPrefixOf word

def takeGroup (os : List Spec) (g : Group) : Except Refusal Taken :=
  match g.role with
  | .option o none => takeFollowing o g.values
  | .option o (some value) => takeAttached os o (isShort g.word) g.values value
  | _ => .ok ⟨[], g.word :: g.values⟩

/-- The first value that is not among the choices of its option. -/
def checkChoices (s : Setting) : Except Refusal Unit :=
  match s.option.choices with
  | none => .ok ()
  | some choices =>
    match s.values.find? (· ∉ choices) with
    | none => .ok ()
    | some v => .error (.choice s.option v choices)

/-- What came of reading a command line. -/
inductive Parsed where
  | help
  | settings (settings : List Setting)
deriving DecidableEq, Repr

/-- Acts on options, up to the first that asks for help. -/
def act (done : List Setting) : List Setting → Except Refusal (Bool × List Setting)
  | [] => .ok (false, done)
  | s :: rest =>
    match checkChoices s with
    | .error r => .error r
    | .ok () => if s.option.help then .ok (true, done) else act (done ++ [s]) rest

/-- Takes the groups in order; what is left over comes after what was left before. -/
def takeAll (os : List Spec) (done : List Setting) (left : List Text) :
    List Group → Except Refusal Parsed
  | [] =>
    match os.filter fun o => o.required && !done.any (·.option = o) with
    | [] => if left = [] then .ok (.settings done) else .error (.unrecognized left)
    | missing => .error (.required missing)
  | g :: rest =>
    match takeGroup os g with
    | .error r => .error r
    | .ok taken =>
      match act done taken.settings with
      | .error r => .error r
      | .ok (true, _) => .ok .help
      | .ok (false, done) => takeAll os done (left ++ taken.left) rest

def parse (os : List Spec) (words : List Text) : Except Refusal Parsed :=
  match roles os words with
  | .error r => .error r
  | .ok sorted => takeAll os [] (groups sorted).1 (groups sorted).2

/-- The values that an option was given last. -/
def valuesOf? (settings : List Setting) (name : Text) : Option (List Text) :=
  (settings.reverse.find? (name ∈ ·.option.names)).map (·.values)

end Options

end XPathAssembly
