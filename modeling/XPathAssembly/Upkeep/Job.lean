import XPathAssembly.Text.Word

/-!
# Commands of the upkeep

The tools for the upkeep of the project start other programs and report those that fail.  What is
started is kept as a list of jobs, and the codes that the jobs end with are an input: they are dealt
out in order, and when none is left every further job succeeds.
-/

namespace XPathAssembly

namespace Upkeep

/-- A started command: its words, the folder it is started in, and the setting of the slow checks
that it is given. -/
structure Job where
  words : List Text
  folder : Option Text := none
  slow : Option Text := none
deriving DecidableEq, Repr

/-- What has happened so far, and the codes that are still to be dealt out. -/
structure Progress where
  codes : List Int := []
  jobs : List Job := []
  out : Text := []
  err : Text := []
deriving DecidableEq, Repr

abbrev Work := StateM Progress

def say (line : Text) : Work Unit := modify fun p => { p with out := p.out ++ line ++ ['\n'] }

def complain (line : Text) : Work Unit := modify fun p => { p with err := p.err ++ line ++ ['\n'] }

/-- Starts a job and answers its code. -/
def start (j : Job) : Work Int :=
  modifyGet fun p => (p.codes.headD 0, { p with codes := p.codes.tail, jobs := p.jobs ++ [j] })

/-- Starts a job and reports it if it fails; answers whether it succeeded. -/
def carryOut (verb : Text) (j : Job) : Work Bool := do
  let code ← start j
  if code = 0 then return true
  complain ("Failed to ".toList ++ verb ++ " with exit code ".toList ++ decimal code ++
    ": ".toList ++ Word.line j.words)
  return false

end Upkeep

end XPathAssembly
