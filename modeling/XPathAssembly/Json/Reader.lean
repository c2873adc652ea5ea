import XPathAssembly.Json.Value

/-!
# Reading JSON

A reader takes a text and answers a value with the rest of the text, or stops with a complaint
about a place, which is kept as the number of characters from there to the end.  Beside the
standard it accepts the names of the numbers that are not finite.  An integer may have 4300 digits,
and arrays and objects may stand 988 deep in each other.
-/

namespace XPathAssembly

namespace Json

/-- What the reader did not find, or found in a wrong place. -/
inductive Complaint where
  | value
  | comma
  | colon
  | key
  | extra
  | unterminated
  | control
  | codeDigits
  | letter
  | mark
deriving DecidableEq, Repr

/-- What goes beyond the limits of the reader. -/
inductive Excess where
  | digits (count : Nat)
  /-- An array, or an object, too deep in others. -/
  | array
  | object
deriving DecidableEq, Repr

inductive Stop where
  /-- A complaint, and the number of characters from its place on. -/
  | malformed (complaint : Complaint) (remaining : Nat)
  | excess (e : Excess)
deriving DecidableEq, Repr

def Complaint.message : Complaint → Text
  | value => "Expecting value".toList
  | comma => "Expecting ',' delimiter".toList
  | colon => "Expecting ':' delimiter".toList
  | key => "Expecting property name enclosed in double quotes".toList
  | extra => "Extra data".toList
  | unterminated => "Unterminated string starting at".toList
  | control => "Invalid control character at".toList
  | codeDigits => "Invalid \\uXXXX escape".toList
  | letter => "Invalid \\escape".toList
  | mark => "Unexpected UTF-8 BOM (decode using utf-8-sig)".toList

def Excess.message : Excess → Text
  | digits count =>
    "Exceeds the limit (4300 digits) for integer string conversion: value has ".toList ++
      decimal count ++ " digits; use sys.set_int_max_str_digits() to increase the limit".toList
  | array => tooDeep "array"
  | object => tooDeep "object"
where
  tooDeep (part : String) : Text :=
    "maximum recursion depth exceeded while decoding a JSON ".toList ++ part.toList ++
      " from a unicode string".toList

/-- What a reader answers: a result and the rest of the text. -/
abbrev Reading (α : Type) := Except Stop (α × Text)

def complain {α : Type} (c : Complaint) (rest : Text) : Except Stop α :=
  .error (.malformed c rest.length)

/-! ## White space -/

/-- The four separators between the parts of a value. -/
def isSeparator (c : Char) : Bool := c = ' ' || c = '\t' || c = '\n' || c = '\r'

def skip (t : Text) : Text := t.dropWhile isSeparator

/-! ## Strings -/

/-- The character that a letter after a backslash names. -/
def named? : Char → Option Char
  | '"' => some '"'
  | '\\' => some '\\'
  | '/' => some '/'
  | 'b' => some '\x08'
  | 'f' => some '\x0c'
  | 'n' => some '\n'
  | 'r' => some '\r'
  | 't' => some '\t'
  | _ => none

/-- The value of four hexadecimal digits. -/
def code? (a b c d : Char) : Option Nat := do
  return (((← hexValue? a) * 16 + (← hexValue? b)) * 16 + (← hexValue? c)) * 16 + (← hexValue? d)

/-- Reads a string after its opening mark; `start` is the text after that mark, and `before` holds
the points read so far, the last one first. -/
def stringFrom (start : Text) (before : List Point) : Text → Reading (List Point)
  | [] => complain .unterminated ('"' :: start)
  | '"' :: rest => .ok (Point.joinPairs before.reverse, rest)
  | ['\\'] => complain .unterminated ('"' :: start)
  | '\\' :: 'u' :: a :: b :: c :: d :: e :: rest =>
    match code? a b c d with
    | some n => stringFrom start (Point.ofCodePoint n :: before) (e :: rest)
    | none => complain .codeDigits ('u' :: a :: b :: c :: d :: e :: rest)
  | '\\' :: 'u' :: rest => complain .codeDigits ('u' :: rest)
  | '\\' :: c :: rest =>
    match named? c with
    | some n => stringFrom start (.char n :: before) rest
    | none => complain .letter ('\\' :: c :: rest)
  | c :: rest =>
    if c.toNat < 0x20 then complain .control (c :: rest)
    else stringFrom start (.char c :: before) rest

/-- Reads a string after its opening mark. -/
def stringAfter (t : Text) : Reading (List Point) := stringFrom t [] t

/-! ## Numbers -/

def digitLimit : Nat := 4300

/-- The digits before the point: a zero stands alone. -/
def wholeOf : Text → Text × Text
  | '0' :: rest => (['0'], rest)
  | t => Binary.digitsOf t

/-- The digits after a point, if a point with digits follows. -/
def fractionOf : Text → Option Text × Text
  | '.' :: rest =>
    match Binary.digitsOf rest with
    | ([], _) => (none, '.' :: rest)
    | (digits, rest) => (some digits, rest)
  | t => (none, t)

/-- An exponent, if one with digits follows. -/
def exponentOf (t : Text) : Option Int × Text :=
  match t with
  | [] => (none, t)
  | e :: rest =>
    let (negative, rest) := Binary.signOf rest
    match Binary.digitsOf rest with
    | ([], _) => (none, t)
    | (digits, rest) =>
      if e = 'e' ∨ e = 'E' then
        (some (if negative then -Binary.natOf digits else Binary.natOf digits), rest)
      else (none, t)

/-- Reads a number; one without fraction and exponent is an integer. -/
def number (t : Text) : Reading Json :=
  let (negative, body) := match t with
    | '-' :: rest => (true, rest)
    | _ => (false, t)
  match wholeOf body with
  | ([], _) => complain .value t
  | (whole, rest) =>
    match fractionOf rest with
    | (fraction, rest) =>
      match exponentOf rest with
      | (exponent, rest) =>
        if fraction.isNone && exponent.isNone then
          if digitLimit < whole.length then .error (.excess (.digits whole.length))
          else
            let n := Binary.natOf whole
            .ok (.integer (if negative then -n else n), rest)
        else
          .ok (.float (.ofDigits negative whole (fraction.getD []) (exponent.getD 0)), rest)

/-- Reads a value that has no parts. -/
def scalar : Text → Reading Json
  | 'n' :: 'u' :: 'l' :: 'l' :: rest => .ok (.null, rest)
  | 't' :: 'r' :: 'u' :: 'e' :: rest => .ok (.bool true, rest)
  | 'f' :: 'a' :: 'l' :: 's' :: 'e' :: rest => .ok (.bool false, rest)
  | 'N' :: 'a' :: 'N' :: rest => .ok (.float .nan, rest)
  | 'I' :: 'n' :: 'f' :: 'i' :: 'n' :: 'i' :: 't' :: 'y' :: rest =>
    .ok (.float (.infinite false), rest)
  | '-' :: 'I' :: 'n' :: 'f' :: 'i' :: 'n' :: 'i' :: 't' :: 'y' :: rest =>
    .ok (.float (.infinite true), rest)
  | t => number t

/-! ## Values -/

/-- How many arrays and objects may stand in each other. -/
def depthLimit : Nat := 988

mutual

/-- Reads a value in at most `n` steps, with room for `room` arrays and objects in each other. -/
def value (n room : Nat) (t : Text) : Except Stop (Json × Text) :=
  match n with
  | 0 => complain .value t
  | n + 1 =>
    match t with
    | '"' :: rest => do
      let (s, rest) ← stringAfter rest
      return (.string s, rest)
    | '[' :: rest =>
      match room, skip rest with
      | 0, _ => .error (.excess .array)
      | _ + 1, ']' :: rest => .ok (.array [], rest)
      | room + 1, rest => elements n room [] rest
    | '\x7b' :: rest =>
      match room, skip rest with
      | 0, _ => .error (.excess .object)
      | _ + 1, '\x7d' :: rest => .ok (.object [], rest)
      | room + 1, rest => members n room [] rest
    | t => scalar t

/-- Reads the elements of an array, of which those `before` have been read, the last one first. -/
def elements (n room : Nat) (before : List Json) (t : Text) : Except Stop (Json × Text) :=
  match n with
  | 0 => complain .value t
  | n + 1 => do
    let (x, rest) ← value n room t
    match skip rest with
    | ']' :: rest => return (.array (x :: before).reverse, rest)
    | ',' :: rest => elements n room (x :: before) (skip rest)
    | rest => complain .comma rest

/-- Reads the members of an object that has some already. -/
def members (n room : Nat) (before : List (List Point × Json)) (t : Text) :
    Except Stop (Json × Text) :=
  match n with
  | 0 => complain .value t
  | n + 1 =>
    match t with
    | '"' :: rest => do
      let (key, rest) ← stringAfter rest
      match skip rest with
      | ':' :: rest => do
        let (x, rest) ← value n room (skip rest)
        match skip rest with
        | '\x7d' :: rest => return (.object (putMember key x before), rest)
        | ',' :: rest => members n room (putMember key x before) (skip rest)
        | rest => complain .comma rest
      | rest => complain .colon rest
    | t => complain .key t

end

/-- Reads a text that is one value.  A step takes a character or goes into a part, so twice the
length bounds the steps. -/
def read (t : Text) : Except Stop Json :=
  if t.head? = some '\ufeff' then complain .mark t else
  match value (2 * t.length + 2) depthLimit (skip t) with
  | .error stop => .error stop
  | .ok (x, rest) => if skip rest = [] then .ok x else complain .extra (skip rest)

/-! ## Places -/

/-- A line and a column, both counted from 1. -/
structure Place where
  line : Nat
  column : Nat
deriving DecidableEq, Repr

/-- The place before the last `remaining` characters of a text. -/
def placeOf (t : Text) (remaining : Nat) : Place :=
  let before := t.take (t.length - remaining)
  ⟨before.count '\n' + 1, (before.reverse.takeWhile (· != '\n')).length + 1⟩

end Json

end XPathAssembly
