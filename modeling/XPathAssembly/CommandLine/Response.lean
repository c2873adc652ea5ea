import XPathAssembly.CommandLine.Options

/-!
# Responses of a command

What a command writes and the code it ends with.  A refused command line is answered by the usage
of the command and the reason, a request for help by its manual.
-/

namespace XPathAssembly

structure Response where
  code : Int
  out : Text := []
  err : Text := []
deriving DecidableEq, Repr

/-- The texts a command has about itself. -/
structure Manual where
  name : Text
  usage : Text
  /-- What follows the usage when help is asked for. -/
  details : Text
deriving DecidableEq, Repr

namespace Manual

/-- Lines of text, each with its end. -/
def ofLines (lines : List String) : Text := lines.flatMap fun l => l.toList ++ ['\n']

def help (m : Manual) : Response := { code := 0, out := m.usage ++ '\n' :: m.details }

def refuse (m : Manual) (r : Options.Refusal) : Response where
  code := 2
  err := m.usage ++ m.name ++ ": error: ".toList ++ r.message ++ ['\n']

end Manual

end XPathAssembly
