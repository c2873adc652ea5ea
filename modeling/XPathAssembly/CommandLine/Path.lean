import XPathAssembly.Text.Quoted

/-!
# Paths

A path is where it starts and the names it goes through.  Empty names and names of the same folder
are dropped, so that paths which differ only in these are shown alike; a way back up is kept, since
it cannot be undone without looking at the folders.  Names and paths can be too long to be followed.

A path comes from the words of a command line, which are taken to be encoded in UTF-8, so that it is
a text without lone surrogates.
-/

namespace XPathAssembly

structure Path where
  /-- The slashes at the start of an absolute path. -/
  root : Text
  names : List Text
deriving DecidableEq, Repr

namespace Path

/-- The parts of a text between slashes. -/
def parts : Text → List Text
  | [] => [[]]
  | c :: rest =>
    if c = '/' then [] :: parts rest
    else match parts rest with
      | [] => [[c]]
      | p :: ps => (c :: p) :: ps

/-- One slash, or the two that a path may start with; more than two are one. -/
def rootOf : Text → Text
  | ['/', '/'] => ['/', '/']
  | '/' :: '/' :: c :: _ => if c = '/' then ['/'] else ['/', '/']
  | '/' :: _ => ['/']
  | _ => []

def ofText (t : Text) : Path :=
  ⟨rootOf t, (parts t).filter fun name => name ≠ [] ∧ name ≠ ['.']⟩

def shown (p : Path) : Text :=
  if p.root = [] ∧ p.names = [] then ['.'] else p.root ++ ['/'].intercalate p.names

/-- The name of the folder above. -/
def up : Text := ['.', '.']

/-! ## Places -/

/-- The place that a name leads to from a place below a folder: the way up undoes the last name, and
does not lead out of the folder. -/
def step? (place : List Text) (name : Text) : Option (List Text) :=
  if name ≠ up then some (place ++ [name])
  else if place = [] then none else some place.dropLast

/-- The place below a folder to which names lead, as the names from the folder to it, if every
folder on the way is made where it is missing and none of the way lies outside. -/
def placeOf? (names : List Text) : Option (List Text) := names.foldlM step? []

/-- The place of a path below the folder where it starts. -/
def place? (p : Path) : Option (List Text) := if p.root = [] then placeOf? p.names else none

/-- Whether a path goes through a place or ends there. -/
def visits (p : Path) (place : List Text) : Bool :=
  (List.range (p.names.length + 1)).any fun n =>
    place? ⟨p.root, p.names.take n⟩ = some place

/-! ## Lengths -/

/-- The bytes that a name, and that a path, may have. -/
def nameLimit : Nat := 255

def limit : Nat := 4095

def isLong (p : Path) : Bool := limit < (utf8 p.shown).length

/-- The message about a path that is too long to be followed. -/
def longMessage (p : Path) : Text :=
  "[Errno 36] File name too long: ".toList ++ Quoted.text p.shown

end Path

/-! ## Folders -/

/-- What a path can lead to. -/
inductive Entry where
  | file (content : Bytes)
  | folder (entries : List (Text × Entry))

/-- What comes of following a path. -/
inductive Lookup where
  | found (e : Entry)
  | nothing
  /-- The path, or a name that has to be looked for in a folder, is too long. -/
  | long

namespace Entry

/-- Follows the names from an entry in the folders `above` it, the innermost first.  The way up from
the last of them leads to `outermost`, and from there no further. -/
def descend (outermost : Entry) (above : List Entry) (here : Entry) : List Text → Lookup
  | [] => .found here
  | name :: rest =>
    match here with
    | file _ => .nothing
    | folder entries =>
      if name = Path.up then
        match above with
        | [] => descend outermost [] outermost rest
        | outer :: further => descend outermost further outer rest
      else if Path.nameLimit < (utf8 name).length then .long
      else
        match entries.find? fun e => e.1 = name with
        | none => .nothing
        | some e => descend outermost (folder entries :: above) e.2 rest

/-- What comes of following a path from a folder, or from `root` if the path is absolute.  Nothing
is known of the folders around the one where a relative path starts; and no name has a null
character. -/
def follow (root here : Entry) (p : Path) : Lookup :=
  if '\x00' ∈ p.shown then .nothing
  else if p.isLong then .long
  else if p.root = [] then descend (folder []) [] here p.names
  else descend root [] root p.names

end Entry

end XPathAssembly
