import XPathAssembly.Assembly.Token
import XPathAssembly.Chain
import XPathAssembly.Json.Reader
import XPathAssembly.Text.Utf8

/-!
# Building the chain of an input

The tokens of each expression become the segments of one chain, and the chains one concatenation.
An expression of statement terminators alone has no segments and is an issue of the input; what was
built for the others is then discarded.
-/

namespace XPathAssembly

namespace Assembly

/-! ## Segments -/

/-- The handles of the tokens that have segments. -/
def insertTokens : List Token → Call Store (List Handle)
  | [] => return []
  | t :: rest => do
    let h ← Store.insertToken t.text ⟨0, t.text.length⟩ t.kind
    return h.toList ++ (← insertTokens rest)

/-- The head of an expression, if it has any segment. -/
def buildExpression (tokens : List Token) : Call Store (Option Handle) := do
  let handles ← insertTokens tokens
  if !handles.all (← get).isLive then throw .dead
  return (← Store.extendAll .next none handles).map Ends.first

def buildExpressions : List (List Token) → Call Store (List (Option Handle))
  | [] => return []
  | tokens :: rest => do
    let head ← buildExpression tokens
    return head :: (← buildExpressions rest)

/-- The issues of the expressions without segments, the first expression being the `i`-th. -/
def emptyIssues (i : Nat) : List (Option Handle) → List Issue
  | [] => []
  | some _ :: rest => emptyIssues (i + 1) rest
  | none :: rest =>
    { location := some (expressionPlace i),
      message := "Expected at least one token which is not a statement terminator".toList } ::
      emptyIssues (i + 1) rest

def discardAll : List (Option Handle) → Call Store Unit
  | [] => return
  | head :: rest => do
    Store.discard head
    discardAll rest

/-- The concatenation of the expressions, or the issues of those that have no segment. -/
def build (expressions : List (List Token)) : Call Store (Except (List Issue) Handle) := do
  let heads ← buildExpressions expressions
  match emptyIssues 0 heads with
  | [] =>
    match ← Store.concatenate heads with
    | some head => return .ok head
    -- every expression has a head and there is a first one, so that none comes here (`build_spec`)
    | none => return .error [noExpressions]
  | issues =>
    discardAll heads
    return .error issues

/-- The chain of an input. -/
def assemble (x : Json) : Call Store (Except (List Issue) Handle) :=
  match readExpressions x with
  | .error issues => return .error issues
  | .ok expressions => build expressions

/-! ## Files -/

/-- Why a file gives no chain: its errors, or something in it beyond what is read. -/
inductive Refusal where
  | errors (texts : List Text)
  | excess (e : Json.Excess)
deriving DecidableEq, Repr

def encodingError (r : Utf8.Refusal) : Text :=
  "Expected the input to be encoded in UTF-8, but failed to decode the byte at offset ".toList ++
    decimal r.offset ++ ": ".toList ++ r.defect.message

def syntaxError (t : Text) (c : Json.Complaint) (remaining : Nat) : Text :=
  let place := Json.placeOf t remaining
  "Invalid JSON at line ".toList ++ decimal place.line ++ " and column ".toList ++
    decimal place.column ++ ": ".toList ++ c.message

/-- The JSON value that a file holds; its line ends are unified before it is read. -/
def readFile (content : Bytes) : Except Refusal Json :=
  match Utf8.decode content with
  | .error r => .error (.errors [encodingError r])
  | .ok t =>
    let t := unifyLineEnds t
    match Json.read t with
    | .ok x => .ok x
    | .error (.malformed c remaining) => .error (.errors [syntaxError t c remaining])
    | .error (.excess e) => .error (.excess e)

/-- The chain of a file. -/
def load (content : Bytes) : Call Store (Except Refusal Handle) := do
  match readFile content with
  | .error r => return .error r
  | .ok x =>
    match ← assemble x with
    | .ok head => return .ok head
    | .error issues => return .error (.errors (issues.map Issue.text))

end Assembly

end XPathAssembly
