import XPathAssembly.CommandLine.Program
import XPathAssembly.Text.Quoted
import XPathAssembly.Upkeep.Readme

/-!
# Metadata of the package

The fields that describe the package, and how they are shown: each option names a field, in full,
by a beginning that fits no other option, or by a letter, and the fields are shown in the order
asked for.  The first word that is no option ends the options.

Only what an option can show is a field here; how the package is built and installed is left out.
-/

namespace XPathAssembly

namespace Upkeep

/-- What a field of the package is. -/
inductive Field where
  | text (t : Text)
  /-- One value a line. -/
  | lines (ts : List Text)
  /-- Not given. -/
  | absent
  /-- Not given, and not to be shown. -/
  | unusable
deriving DecidableEq, Repr

/-- What is shown for a field. -/
def Field.shown : Field → Option Text
  | .text t => some (t ++ ['\n'])
  | .lines ts => some (['\n'].intercalate ts ++ ['\n'])
  | .absent => some "None\n".toList
  | .unusable => none

namespace Metadata

def name : Text := "slax-strings".toList

def author : Text := "The slax-strings developers".toList

def license : Text := "License :: OSI Approved :: BSD License".toList

def status : Text := "Development Status :: 4 - Beta".toList

def language : Text := "Programming Language :: Python :: ".toList

def classifiers : List Text :=
  [status, license, language ++ "3.9".toList, language ++ "3.10".toList,
   language ++ "3.11".toList, language ++ "3.12".toList]

/-- The fields by name. -/
def fields : List (Text × Field) :=
  [("name".toList, .text name),
   ("version".toList, .text Program.version),
   ("fullname".toList, .text ("slax_strings-".toList ++ Program.version)),
   ("author".toList, .text author),
   ("author-email".toList, .absent),
   ("maintainer".toList, .absent),
   ("maintainer-email".toList, .absent),
   ("contact".toList, .text author),
   ("contact-email".toList, .absent),
   ("url".toList, .absent),
   ("license".toList, .text license),
   ("licence".toList, .text license),
   ("description".toList, .text Program.summary),
   ("long-description".toList, .text readme),
   ("platforms".toList, .unusable),
   ("classifiers".toList, .lines classifiers),
   ("keywords".toList, .text "slax xslt xpath attribute value template string literal".toList),
   ("provides".toList, .lines []),
   ("requires".toList, .lines []),
   ("obsoletes".toList, .lines [])]

/-! ## Options -/

/-- The options that show no field, and whether they take a value. -/
def otherOptions : List (Text × Bool) :=
  ["verbose", "quiet", "dry-run", "help", "no-user-cfg", "help-commands"].map
    (fun name => (name.toList, false)) ++ [("command-packages".toList, true)]

def allOptions : List (Text × Bool) := fields.map (fun f => (f.1, false)) ++ otherOptions

/-- The option with a name, or with a beginning that no other option has. -/
def option? (start : Text) : Option (Text × Bool) :=
  match allOptions.find? (·.1 = start), allOptions.filter fun o => start.isPrefixOf o.1 with
  | some o, _ => some o
  | none, [o] => some o
  | none, _ => none

/-- The option of a letter. -/
def letter? : Char → Option Text
  | 'V' => some "version".toList
  | 'v' => some "verbose".toList
  | 'q' => some "quiet".toList
  | 'n' => some "dry-run".toList
  | 'h' => some "help".toList
  | _ => none

/-- The names of the options at the front of a command line, up to the first word that is none; a
word that names no option is not understood. -/
def optionsOf? : List Text → Option (List Text)
  | [] => some []
  | ('-' :: '-' :: []) :: _ => some []
  | ('-' :: '-' :: body) :: rest =>
    match Options.splitEquals body with
    | (start, value) =>
      match option? start, value, rest with
      | none, _, _ => none
      | some (name, false), none, rest => (name :: ·) <$> optionsOf? rest
      | some (_, false), some _, _ => none
      | some (name, true), some _, rest => (name :: ·) <$> optionsOf? rest
      | some (_, true), none, [] => none
      | some (name, true), none, _ :: rest => (name :: ·) <$> optionsOf? rest
  | ('-' :: c :: letters) :: rest =>
    match (c :: letters).mapM letter?, optionsOf? rest with
    | some names, some more => some (names ++ more)
    | _, _ => none
  | _ => some []

/-- The fields with these names, up to the first that cannot be shown. -/
def showNamed : List Text → Text
  | [] => []
  | name :: rest =>
    match fields.find? fun f => f.1 = name with
    | none => showNamed rest
    | some f =>
      match f.2.shown with
      | none => []
      | some t => t ++ showNamed rest

/-- What the options show; if one is not understood, nothing is shown. -/
def displayed (words : List Text) : Text :=
  match optionsOf? words with
  | none => []
  | some names => showNamed names

end Metadata

end Upkeep

end XPathAssembly
