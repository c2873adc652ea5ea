import XPathAssembly.Assembly.Build
import XPathAssembly.Collapse
import XPathAssembly.CommandLine.Path
import XPathAssembly.CommandLine.Response
import XPathAssembly.Layout.Concatenation
import XPathAssembly.Listing
import XPathAssembly.Report.Bullets

/-!
# The command

The command reads a token file, builds its chain, and writes it in the mode that is asked for.
Whatever is wrong with the file is reported, and every segment that was made is discarded before the
command ends.
-/

namespace XPathAssembly

/-- How the chain is written. -/
inductive Mode where
  | xpath
  | concat
  | avt
  | fuse
  | dump
deriving DecidableEq, Repr

namespace Mode

def all : List Mode := [xpath, concat, avt, fuse, dump]

def name : Mode → Text
  | xpath => "xpath".toList
  | concat => "concat".toList
  | avt => "avt".toList
  | fuse => "fuse".toList
  | dump => "dump".toList

def ofName? (t : Text) : Option Mode := all.find? fun m => m.name = t

end Mode

namespace Program

/-! ## Writing a chain -/

/-- The answer of a look at the store. -/
def look {α : Type} (f : Store → Except Fault α) : Call Store α := do
  match f (← get) with
  | .ok a => return a
  | .error fault => throw fault

/-- The bytes of an expression or a concatenation, after which its chain is discarded. -/
def finish (head : Handle) (bytes : Store → Except Fault Bytes) : Call Store Text := do
  let bs ← look bytes
  Store.discard (some head)
  return Utf8.decodeLossy bs

/-- The text of the chain at `head` in a mode.  The chain is discarded, and so is the segment that
it may have been collapsed into. -/
def produce (mode : Mode) (style : Style) (head : Handle) : Call Store Text :=
  match mode with
  | .xpath => finish head (·.expression (some head) style)
  | .concat => finish head (·.concatCall (some head) style)
  | .avt => finish head (·.template (some head) style)
  | .fuse => do
    let c ← Store.collapse (some head) .bare
    let g ← look (·.segmentOf c.handle)
    Store.discard c.left
    Store.discard (some c.handle)
    return Utf8.decodeLossy g.text
  | .dump => do
    let t ← look (·.listing (some head))
    Store.discard (some head)
    return t

/-! ## Requests -/

structure Request where
  path : Path
  mode : Mode
  style : Style
deriving DecidableEq, Repr

/-- Why the command ends without a response. -/
inductive Halt where
  | fault (f : Fault)
  /-- The file goes beyond what a reader of its format takes. -/
  | excess (e : Json.Excess)
  | longPath (p : Path)
  /-- An option that has to have a value was given none. -/
  | noPath
  | noMode
deriving DecidableEq, Repr

def Halt.message? : Halt → Option Text
  | fault f => f.message?
  | excess e => some e.message
  | longPath p => some p.longMessage
  | noPath => some "expected str, bytes or os.PathLike object, not list".toList
  | noMode => some "unhashable type: 'list'".toList

/-- The report about a file that could not be loaded. -/
def report (path : Path) (errors : List Text) : Except Halt Response :=
  match Report.write ("Failed to load the expressions from ".toList ++ path.shown) errors with
  | .ok err => .ok { code := 1, err }
  | .error f => .error (.fault f)

/-- The response to a request for a file with this content. -/
def respond (r : Request) (content : Bytes) : Except Halt Response :=
  match Assembly.load content {} with
  | .error f _ => .error (.fault f)
  | .ok (.error (.excess e)) _ => .error (.excess e)
  | .ok (.error (.errors errors)) _ => report r.path errors
  | .ok (.ok head) s =>
    match produce r.mode r.style head s with
    | .ok t _ => .ok { code := 0, out := t ++ ['\n'] }
    | .error f _ => .error (.fault f)

/-- The response to a request, given what its path leads to. -/
def answer (r : Request) : Lookup → Except Halt Response
  | .long => .error (.longPath r.path)
  | .nothing =>
    .ok { code := 1, err := "The --input does not exist: ".toList ++ r.path.shown ++ ['\n'] }
  | .found (.folder _) =>
    .ok { code := 1,
          err := "The --input does not point to a file: ".toList ++ r.path.shown ++ ['\n'] }
  | .found (.file content) => respond r content

/-! ## Command line -/

def version : Text := "0.1.0".toList

def summary : Text :=
  "Assemble SLAX token segments into XPath, concat() and attribute-value templates.".toList

def options : List Options.Spec :=
  [{ names := ["-h".toList, "--help".toList], help := true },
   { names := ["--input".toList], arity := .one, required := true },
   { names := ["--mode".toList], arity := .one, choices := some (Mode.all.map Mode.name) },
   { names := ["--quotes".toList] },
   { names := ["--braces".toList] },
   { names := ["--version".toList] }]

def manual (name : Text) : Manual where
  name
  usage := "usage: ".toList ++ name ++
    " [-h] --input INPUT [--mode \x7bxpath,concat,avt,fuse,dump\x7d]\n".toList ++
    List.replicate (name.length + 8) ' ' ++ "[--quotes] [--braces] [--version]\n".toList
  details := Manual.ofLines
    ["Assemble SLAX token segments into XPath, concat() and attribute-value",
     "templates.",
     "",
     "options:",
     "  -h, --help            show this help message and exit",
     "  --input INPUT         path to the JSON file with the pre-tokenized",
     "                        expressions",
     "  --mode \x7bxpath,concat,avt,fuse,dump\x7d",
     "                        how to render the expressions",
     "  --quotes              wrap the quoted literals in quotes",
     "  --braces              double the braces in the quoted literals",
     "  --version             show the current version and exit"]

/-- Whether an option was given. -/
def given (settings : List Options.Setting) (name : String) : Bool :=
  (Options.valuesOf? settings name.toList).isSome

/-- The value an option was given last; an option given without a value is no option left out. -/
def value? (settings : List Options.Setting) (name : String) : Option (Option Text) :=
  (Options.valuesOf? settings name.toList).map List.head?

/-- The mode that is asked for. -/
def modeOf (settings : List Options.Setting) : Except Halt Mode :=
  match value? settings "--mode" with
  | none => .ok .concat
  | some name =>
    match name.bind Mode.ofName? with
    | some mode => .ok mode
    | none => .error .noMode

def requestOf (settings : List Options.Setting) : Except Halt Request :=
  match (value? settings "--input").join, modeOf settings with
  | none, _ => .error .noPath
  | some _, .error h => .error h
  | some path, .ok mode =>
    .ok { path := Path.ofText path, mode,
          style := { quotes := given settings "--quotes", braces := given settings "--braces" } }

/-- What a command line asks for. -/
inductive Asked where
  | version
  | chain (request : Request)
  /-- Help, or the reason why the line is refused. -/
  | manual (response : Response)
deriving DecidableEq, Repr

/-- What a command line asks of the command called `name`.  The version is asked for whenever its
option stands anywhere among the words and the one for help does not. -/
def read (name : Text) (words : List Text) : Except Halt Asked :=
  if words.contains "--version".toList && !words.contains "--help".toList then .ok .version
  else
    match Options.parse options words with
    | .error r => .ok (.manual ((manual name).refuse r))
    | .ok .help => .ok (.manual (manual name).help)
    | .ok (.settings settings) =>
      match requestOf settings with
      | .error h => .error h
      | .ok request => .ok (.chain request)

/-! ## Ways to call the command -/

/-- The name a command is called by, and whether it passes on the code of its response. -/
structure Invocation where
  name : Text
  passesCode : Bool
deriving DecidableEq, Repr

/-- The command under its own name. -/
def command : Invocation := ⟨"slax-strings".toList, true⟩

/-- The command by the name of its package, which only passes on the codes of refusals and help. -/
def package : Invocation := ⟨"slax_strings".toList, false⟩

/-- What a call writes, and its code if it has one. -/
structure Ending where
  code : Option Int
  out : Text
  err : Text
deriving DecidableEq, Repr

/-- The ending of a call with this response. -/
def Invocation.ending (i : Invocation) (r : Response) : Ending :=
  ⟨if i.passesCode then some r.code else none, r.out, r.err⟩

/-- The ending of a call, given what comes of following a path. -/
def Invocation.call (i : Invocation) (follow : Path → Lookup) (words : List Text) :
    Except Halt Ending :=
  match read i.name words with
  | .error h => .error h
  | .ok (.manual r) => .ok ⟨some r.code, r.out, r.err⟩
  | .ok .version => .ok (i.ending { code := 0, out := version ++ ['\n'] })
  | .ok (.chain request) =>
    match answer request (follow request.path) with
    | .error h => .error h
    | .ok r => .ok (i.ending r)

end Program

end XPathAssembly
