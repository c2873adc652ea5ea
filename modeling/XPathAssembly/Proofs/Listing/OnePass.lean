import XPathAssembly.Listing
import XPathAssembly.Proofs.Text.Blocks
import XPathAssembly.Proofs.Text.Quoted

/-!
# Listings in one pass

A listing moves what it has listed of the values inside one margin to the right, again on each
level.  The same text is written by one pass that is told how deep it is and begins each line with
two spaces for each level.  What it writes is a block of lines, and one level deeper it writes the
same block with a margin behind each line feed, which is all that moving it does.

    v.IsPlain → shifted margin (v.printAt d) = v.printAt (d + 1)           (IsPlain.shifted_printAt)
    v.IsPlain → v.print = .ok (v.printAt 0)                                       (IsPlain.print_eq)
-/

namespace XPathAssembly

namespace Listing

/-- Texts on lines of their own, with a comma after each but the last, between an opening and a
closing. -/
def bracketed (opening : Text) (ts : List Text) (closing : Char) : Text :=
  opening ++ '\n' :: (onLines ts ++ [closing])

/-- What stands before a line at a depth. -/
def tab (depth : Nat) : Text := List.replicate (2 * depth) ' '

namespace Value

mutual

/-- What one pass over a value writes that stands at a depth.  No line is moved afterwards. -/
def printAt (depth : Nat) : Value → Text
  | nothing => "None".toList
  | bool b => boolText b
  | integer n => decimal n
  | float x => x.written
  | text t => Quoted.text t
  | bytes bs => Quoted.bytes bs
  | list [] => ['[', ']']
  | list xs => bracketed ['['] (elementsAt (depth + 1) xs) ']'
  | entity name [] => name ++ ['(', ')']
  | entity name properties => bracketed (name ++ ['(']) (propertiesAt (depth + 1) properties) ')'

def elementsAt (depth : Nat) : List Value → List Text
  | [] => []
  | x :: rest => (tab depth ++ printAt depth x) :: elementsAt depth rest

def propertiesAt (depth : Nat) : List (Text × Value) → List Text
  | [] => []
  | (name, x) :: rest => (tab depth ++ name ++ '=' :: printAt depth x) :: propertiesAt depth rest

end

/-- No floating-point number is in the value, and every name is on one line. -/
inductive IsPlain : Value → Prop where
  | nothing : IsPlain nothing
  | bool (b : Bool) : IsPlain (bool b)
  | integer (n : Int) : IsPlain (integer n)
  | text (t : Text) : IsPlain (text t)
  | bytes (bs : Bytes) : IsPlain (bytes bs)
  | list {xs : List Value} (h : ∀ x ∈ xs, IsPlain x) : IsPlain (list xs)
  | entity {name : Text} {properties : List (Text × Value)} (hname : OneLine name)
    (hnames : ∀ p ∈ properties, OneLine p.1) (h : ∀ p ∈ properties, IsPlain p.2) :
    IsPlain (entity name properties)

/-- The value itself or one inside it. -/
inductive Within (x : Value) : Value → Prop where
  | self : Within x x
  | element {y : Value} {xs : List Value} (hy : y ∈ xs) (h : Within x y) : Within x (list xs)
  | property {name : Text} {p : Text × Value} {properties : List (Text × Value)}
    (hp : p ∈ properties) (h : Within x p.2) : Within x (entity name properties)

end Value

/-! ## Brackets -/

variable {c : Char} {m opening t : Text} {ts : List Text}

theorem onLines_singleton (t : Text) : onLines [t] = t := List.intercalate_singleton

theorem onLines_cons (t : Text) (hne : ts ≠ []) :
    onLines (t :: ts) = t ++ [','] ++ '\n' :: onLines ts := by
  unfold onLines
  rw [List.intercalate_cons_of_ne_nil hne]
  simp only [List.append_assoc, List.cons_append, List.nil_append]

theorem isBlock_onLines (h : ∀ t ∈ ts, IsBlock t) (hne : ts ≠ []) : IsBlock (onLines ts) := by
  induction ts with
  | nil => exact absurd rfl hne
  | cons t ts ih =>
    obtain ⟨ht, hts⟩ := List.forall_mem_cons.1 h
    by_cases hnil : ts = []
    · rwa [hnil, onLines_singleton]
    · rw [onLines_cons t hnil]
      exact (ht.append_oneLine (by decide)).append_newline (ih hts hnil)

theorem shifted_onLines (hne : ts ≠ []) :
    m ++ shifted m (onLines ts) = onLines (ts.map fun t => m ++ shifted m t) := by
  induction ts with
  | nil => exact absurd rfl hne
  | cons t ts ih =>
    by_cases hnil : ts = []
    · rw [hnil, List.map_singleton, onLines_singleton, onLines_singleton]
    · have hcomma : shifted m [','] = [','] := shifted_of_oneLine (by decide)
      rw [List.map_cons, onLines_cons t hnil,
        onLines_cons _ fun he => hnil (List.map_eq_nil_iff.1 he), ← ih hnil, shifted_append,
        shifted_append, hcomma, shifted_newline]
      simp only [List.append_assoc]

theorem isBlock_bracketed (ho : OneLine opening) (hb : isBlankText opening = false)
    (hc : endsLine c = false) (h : ∀ t ∈ ts, IsBlock t) (hne : ts ≠ []) :
    IsBlock (bracketed opening ts c) :=
  .lines ho hb ((isBlock_onLines h hne).append_oneLine (.cons hc .nil))

theorem shifted_bracketed (ho : OneLine opening) (hc : endsLine c = false) (hne : ts ≠ []) :
    shifted m (bracketed opening ts c) =
      bracketed opening (ts.map fun t => m ++ shifted m t) c := by
  have hclosing : shifted m [c] = [c] := shifted_of_oneLine (.cons hc .nil)
  unfold bracketed
  rw [shifted_append, shifted_of_oneLine ho, shifted_newline, shifted_append, hclosing,
    ← shifted_onLines hne, List.append_assoc]

/-! ## Depths -/

theorem margin_append_tab (d : Nat) : margin ++ tab d = tab (d + 1) := rfl

theorem oneLine_tab (d : Nat) : OneLine (tab d) := .replicate _ rfl

namespace Value

variable {v x : Value} {xs : List Value} {properties : List (Text × Value)} {d : Nat}

/-- A property at a depth. -/
def propertyAt (d : Nat) (p : Text × Value) : Text := tab d ++ p.1 ++ '=' :: p.2.printAt d

theorem elementsAt_eq (d : Nat) (xs : List Value) :
    elementsAt d xs = xs.map fun x => tab d ++ x.printAt d := by
  induction xs with
  | nil => rfl
  | cons x xs ih => rw [elementsAt, ih, List.map_cons]

theorem propertiesAt_eq (d : Nat) (properties : List (Text × Value)) :
    propertiesAt d properties = properties.map (propertyAt d) := by
  induction properties with
  | nil => rfl
  | cons p properties ih =>
    rw [propertiesAt, ih, List.map_cons]
    rfl

theorem printAt_list (d : Nat) (hne : xs ≠ []) :
    (list xs).printAt d =
      bracketed ['['] (xs.map fun x => tab (d + 1) ++ x.printAt (d + 1)) ']' := by
  rw [printAt, elementsAt_eq]
  exact hne

theorem printAt_entity (name : Text) (d : Nat) (hne : properties ≠ []) :
    (entity name properties).printAt d =
      bracketed (name ++ ['(']) (properties.map (propertyAt (d + 1))) ')' := by
  rw [printAt, propertiesAt_eq]
  exact hne

/-! ## Blocks -/

theorem isBlock_nothing : IsBlock "None".toList := .line (by decide) (by decide)

theorem isBlock_brackets : IsBlock ['[', ']'] := .line (by decide) (by decide)

theorem isBlock_boolText (b : Bool) : IsBlock (boolText b) := by
  cases b <;> exact .line (by decide) (by decide)

theorem not_isBlankText_toDigits (n : Nat) : isBlankText (Nat.toDigits 10 n) = false := by
  have hdigit : ∀ d < 10, isBlankText [Nat.digitChar d] = false := by decide
  by_cases hn : n < 10
  · rw [Nat.toDigits_of_lt_base hn]
    exact hdigit n hn
  · rw [Nat.toDigits_of_base_le (by decide) (by omega), isBlankText_append,
      hdigit _ (Nat.mod_lt n (by decide)), Bool.and_false]

theorem isBlock_decimal (n : Int) : IsBlock (decimal n) := by
  refine .line (.decimal n) ?_
  cases n with
  | ofNat n => exact not_isBlankText_toDigits n
  | negSucc n => rfl

namespace IsPlain

/-- What one pass writes is a block. -/
theorem isBlock (h : v.IsPlain) (d : Nat) : IsBlock (v.printAt d) := by
  induction h generalizing d with
  | nothing => exact isBlock_nothing
  | bool b => exact isBlock_boolText b
  | integer n => exact isBlock_decimal n
  | text t => exact .line (.quotedText t) (Quoted.not_isBlankText_literal _)
  | bytes bs => exact .line (.quotedBytes bs) rfl
  | @list xs _ ih =>
    by_cases hne : xs = []
    · subst hne
      exact isBlock_brackets
    · rw [printAt_list d hne]
      refine isBlock_bracketed (by decide) (by decide) rfl (List.forall_mem_map.2 fun x hx => ?_)
        fun he => hne (List.map_eq_nil_iff.1 he)
      exact (ih x hx (d + 1)).prepend (oneLine_tab (d + 1))
  | @entity name properties hname hnames _ ih =>
    have hopening : OneLine (name ++ ['(']) := hname.append (by decide)
    have hblank : isBlankText (name ++ ['(']) = false := by
      rw [isBlankText_append]
      exact Bool.and_false _
    by_cases hne : properties = []
    · subst hne
      have hclosed : (IsBlock (name ++ ['('] ++ [')'])) :=
        (IsBlock.line hopening hblank).append_oneLine (by decide)
      rwa [List.append_assoc] at hclosed
    · rw [printAt_entity name d hne]
      refine isBlock_bracketed hopening hblank rfl (List.forall_mem_map.2 fun p hp => ?_)
        fun he => hne (List.map_eq_nil_iff.1 he)
      have hvalue : IsBlock (['='] ++ p.2.printAt (d + 1)) := (ih p hp (d + 1)).prepend (by decide)
      exact hvalue.prepend ((oneLine_tab (d + 1)).append (hnames p hp))

/-- One level deeper, each line but the first stands one margin further in. -/
theorem shifted_printAt (h : v.IsPlain) (d : Nat) :
    shifted margin (v.printAt d) = v.printAt (d + 1) := by
  induction h generalizing d with
  | nothing => rfl
  | bool b => cases b <;> rfl
  | integer n => exact shifted_of_oneLine (.decimal n)
  | text t => exact shifted_of_oneLine (.quotedText t)
  | bytes bs => exact shifted_of_oneLine (.quotedBytes bs)
  | @list xs _ ih =>
    by_cases hne : xs = []
    · subst hne
      rfl
    · rw [printAt_list d hne, printAt_list (d + 1) hne, shifted_bracketed (by decide) rfl
        fun he => hne (List.map_eq_nil_iff.1 he), List.map_map]
      congr 1
      refine List.map_congr_left fun x hx => ?_
      show margin ++ shifted margin (tab (d + 1) ++ x.printAt (d + 1)) = _
      rw [shifted_append, shifted_of_oneLine (oneLine_tab _), ih x hx, ← List.append_assoc,
        margin_append_tab]
  | @entity name properties hname hnames _ ih =>
    by_cases hne : properties = []
    · subst hne
      exact shifted_of_oneLine (hname.append (by decide))
    · rw [printAt_entity name d hne, printAt_entity name (d + 1) hne,
        shifted_bracketed (hname.append (by decide)) rfl
          fun he => hne (List.map_eq_nil_iff.1 he), List.map_map]
      congr 1
      refine List.map_congr_left fun p hp => ?_
      have hequals : shifted margin ('=' :: p.2.printAt (d + 1)) =
          '=' :: p.2.printAt (d + 2) := by
        show shifted margin (['='] ++ _) = _
        rw [shifted_append, shifted_of_oneLine (by decide), ih p hp]
        rfl
      show margin ++ shifted margin (tab (d + 1) ++ p.1 ++ '=' :: _) = _
      rw [shifted_append, shifted_of_oneLine ((oneLine_tab _).append (hnames p hp)), hequals,
        ← List.append_assoc, ← List.append_assoc, margin_append_tab]
      rfl

/-- Moving an element to the right is writing it one level deeper. -/
theorem indent_printAt (h : v.IsPlain) :
    indent margin (v.printAt 0) = tab 1 ++ v.printAt 1 := by
  rw [(h.isBlock 0).indent_eq, h.shifted_printAt]
  rfl

/-- The same for a value behind its name. -/
theorem hang_printAt (h : v.IsPlain) : hang margin (v.printAt 0) = v.printAt 1 := by
  rw [(h.isBlock 0).hang_eq, h.shifted_printAt]

end IsPlain

/-! ## Listings -/

theorem printElements_eq (hp : ∀ x ∈ xs, x.IsPlain) (h : ∀ x ∈ xs, x.print = .ok (x.printAt 0)) :
    printElements xs = .ok (elementsAt 1 xs) := by
  induction xs with
  | nil => rfl
  | cons x xs ih =>
    obtain ⟨hx, hxs⟩ := List.forall_mem_cons.1 h
    obtain ⟨hpx, hpxs⟩ := List.forall_mem_cons.1 hp
    rw [printElements, elementsAt, hx, ih hpxs hxs, ← hpx.indent_printAt]
    rfl

theorem printProperties_eq (hp : ∀ p ∈ properties, p.2.IsPlain)
    (h : ∀ p ∈ properties, p.2.print = .ok (p.2.printAt 0)) :
    printProperties properties = .ok (propertiesAt 1 properties) := by
  induction properties with
  | nil => rfl
  | cons p properties ih =>
    obtain ⟨hx, hrest⟩ := List.forall_mem_cons.1 h
    obtain ⟨hpx, hprest⟩ := List.forall_mem_cons.1 hp
    rw [printProperties, propertiesAt, hx, ih hprest hrest, ← hpx.hang_printAt]
    rfl

theorem IsPlain.print_eq (h : v.IsPlain) : v.print = .ok (v.printAt 0) := by
  induction h with
  | nothing | bool | integer | text | bytes => rfl
  | @list xs h ih =>
    by_cases hne : xs = []
    · subst hne
      rfl
    · rw [print, printAt, printElements_eq h ih]
      · exact congrArg Except.ok (List.cons_append.symm)
      · exact hne
      · exact hne
  | @entity name properties _ _ h ih =>
    by_cases hne : properties = []
    · subst hne
      rfl
    · rw [print, printAt, printProperties_eq h ih]
      · refine congrArg Except.ok ?_
        unfold bracketed
        simp only [List.append_assoc, List.cons_append, List.nil_append]
      · exact hne
      · exact hne

theorem IsPlain.within (h : v.IsPlain) (hx : Within x v) : x.IsPlain := by
  induction hx with
  | self => exact h
  | element hy _ ih =>
    cases h with
    | list h => exact ih (h _ hy)
  | property hp _ ih =>
    cases h with
    | entity _ _ h => exact ih (h _ hp)

/-- **A listing is what one pass writes.**  And no value inside it is listed as an empty text, so
that there always is a first line, which is not moved. -/
theorem print_onePass (hv : v.IsPlain) :
    v.print = .ok (v.printAt 0) ∧
      ∀ x, Within x v → ∃ t, x.print = .ok t ∧ t ≠ [] ∧ ∃ first others,
        lineBodies t = first :: others := by
  refine ⟨hv.print_eq, fun x hx => ?_⟩
  have hplain : x.IsPlain := hv.within hx
  have hblock : IsBlock (x.printAt 0) := hplain.isBlock 0
  exact ⟨x.printAt 0, hplain.print_eq, hblock.ne_nil,
    List.exists_cons_of_ne_nil hblock.lineBodies_ne_nil⟩

/-- A list inside an entity inside a list, with a text that has an end of a line in it. -/
def nested : Value :=
  .list [.entity "Outer".toList
    [("values".toList, .list [.integer (-1), .text "a\u2028b".toList]),
     ("inner".toList, .entity "Inner".toList [])], .nothing]

theorem isPlain_nested : nested.IsPlain := by
  have hvalues : (list [integer (-1), text "a\u2028b".toList]).IsPlain :=
    .list (List.forall_mem_cons.2 ⟨.integer _, List.forall_mem_singleton.2 (.text _)⟩)
  have hinner : (entity "Inner".toList []).IsPlain := .entity (by decide) nofun nofun
  have houter : (entity "Outer".toList [("values".toList, list [integer (-1),
      text "a\u2028b".toList]), ("inner".toList, entity "Inner".toList [])]).IsPlain :=
    .entity (by decide) (by decide)
      (List.forall_mem_cons.2 ⟨hvalues, List.forall_mem_singleton.2 hinner⟩)
  exact .list (List.forall_mem_cons.2 ⟨houter, List.forall_mem_singleton.2 .nothing⟩)

theorem print_nested : nested.print = .ok
    ("[\n  Outer(\n    values=[\n      -1,\n      'a\\u2028b'],\n".toList ++
      "    inner=Inner()),\n  None]".toList) :=
  (print_onePass isPlain_nested).1.trans (congrArg Except.ok (by decide +kernel))

end Value

end Listing

end XPathAssembly
