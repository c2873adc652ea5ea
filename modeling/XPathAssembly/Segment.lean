import XPathAssembly.Escape
import XPathAssembly.Kind
import XPathAssembly.Text.Quoted

/-!
# Segments

A segment is a piece of decoded token text with its kind and the quotation marks that occur in it.
The marks are found in one pass that ends at the first mark of a second sort.  A token of a source
becomes a segment only if it is a range of the source, and a quoted one only between matching
quotes.
-/

namespace XPathAssembly

/-! ## Marks -/

/-- The bytes of the two quotation marks and of the escape before them. -/
def singleMark : UInt8 := byteOf '\''

def doubleMark : UInt8 := byteOf '"'

def backslash : UInt8 := byteOf '\\'

/-- Which quotation marks a text contains. -/
structure Marks where
  single : Bool := false
  double : Bool := false
  both : Bool := false
deriving DecidableEq, Repr

namespace Marks

/-- The marks of a text whose earlier part has only the mark `seen`, if any. -/
def scan (seen : Option UInt8) : Bytes → Marks
  | [] => ⟨seen == some singleMark, seen == some doubleMark, false⟩
  | b :: rest =>
    if b = singleMark ∨ b = doubleMark then
      if seen = none ∨ seen = some b then scan (some b) rest else ⟨true, true, true⟩
    else scan seen rest

def ofBytes (bs : Bytes) : Marks := scan none bs

/-- The names of the marks that are set. -/
def names (m : Marks) : List Text :=
  (if m.single then ["SINGLE".toList] else []) ++ (if m.double then ["DOUBLE".toList] else []) ++
    (if m.both then ["BOTH".toList] else [])

/-- The marks as a constant. -/
def constant (m : Marks) : Text :=
  match m.names with
  | [] => "NONE".toList
  | names => ['|'].intercalate names

end Marks

/-! ## Segments -/

structure Segment where
  text : Bytes
  kind : Kind
  marks : Marks
deriving DecidableEq, Repr

namespace Segment

/-- The segment of these bytes, with their marks. -/
def ofBytes (text : Bytes) (kind : Kind) : Segment := ⟨text, kind, Marks.ofBytes text⟩

/-- The segment of a text that is taken as it stands, without escapes. -/
def ofText (t : Text) (kind : Kind) : Segment := ofBytes (utf8 t) kind

/-- The segment as an expression that builds it. -/
def describe (s : Segment) : Text :=
  "Segment(text=".toList ++ Quoted.bytes s.text ++ ", kind=TokenKind.".toList ++ s.kind.constant ++
    ", quote_flags=QuoteFlags.".toList ++ s.marks.constant ++ ")".toList

end Segment

/-! ## Tokens of a source -/

namespace Token

/-- A range of a source, counted in characters; the ends may lie outside. -/
structure Range where
  start : Int
  stop : Int
deriving DecidableEq, Repr

/-- The character at a position; a negative position counts from the end. -/
def charAt? (source : Text) (i : Int) : Option Char :=
  if 0 ≤ i then source[i.toNat]? else
    if (-i).toNat ≤ source.length then source[source.length - (-i).toNat]? else none

def isMark (c : Char) : Bool := c = '\'' || c = '"'

/-- Refuses a range that is not delimited by matching quotes; a position that has to be looked at
and lies outside the source is a fault of its own. -/
def checkQuotes (source : Text) (r : Range) : Except Fault Unit :=
  if r.stop - r.start < 2 then .error .unquoted else
  match charAt? source r.start with
  | none => .error (.lookingAt r.start .outside)
  | some first =>
    if !isMark first then .error .unquoted else
    match charAt? source (r.stop - 1) with
    | none => .error (.lookingAt (r.stop - 1) .outside)
    | some last => if last = first then .ok () else .error .unquoted

/-- The part of a source between two positions. -/
def slice (source : Text) (start stop : Nat) : Text := (source.take stop).drop start

/-- The segment of a token: a quoted literal loses its quotes and its escapes are decoded; a
statement terminator has no segment. -/
def segment? (source : Text) (r : Range) (kind : Kind) : Except Fault (Option Segment) := do
  if kind = .quoted then checkQuotes source r
  if !(0 ≤ r.start && r.start ≤ r.stop && r.stop ≤ source.length) then throw .range
  let start := r.start.toNat
  let stop := r.stop.toNat
  match kind with
  | .eos => return none
  | .quoted => return some (.ofBytes (Escape.decode (slice source (start + 1) (stop - 1))) kind)
  | _ => return some (.ofText (slice source start stop) kind)

end Token

end XPathAssembly
