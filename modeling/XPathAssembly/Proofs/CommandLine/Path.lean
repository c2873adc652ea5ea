import Mathlib.Data.List.Flatten
import Mathlib.Data.List.Infix
import Mathlib.Tactic.SplitIfs
import XPathAssembly.CommandLine.Path

/-!
# Paths and the places they lead to

A path that was read from a text is in normal form, and what it is shown as is read as the same
path: two texts are the same path exactly if they are shown alike.

The place of a path leads where the path does: a way back up undoes the name before it.  So two
paths with one place lead to one entry.

    p.IsNormal → ofText p.shown = p                                           (ofText_shown)
    p.place? = some place → follow root here p = .found e →
      follow root here ⟨[], place⟩ = .found e                               (follow_place)
-/

namespace XPathAssembly

namespace Path

/-! ## Normal form -/

/-- A text that stands for itself between two slashes. -/
structure IsName (name : Text) : Prop where
  ne_nil : name ≠ []
  ne_here : name ≠ ['.']
  noSlash : '/' ∉ name

structure IsNormal (p : Path) : Prop where
  root : p.root = [] ∨ p.root = ['/'] ∨ p.root = ['/', '/']
  names : ∀ name ∈ p.names, IsName name

variable {name t : Text} {names place : List Text} {p q : Path}

theorem parts_ne_nil (t : Text) : parts t ≠ [] := by
  cases t with
  | nil => nofun
  | cons c t =>
    unfold parts
    split_ifs
    · nofun
    · split <;> nofun

theorem noSlash_of_mem_parts (h : name ∈ parts t) : '/' ∉ name := by
  induction t generalizing name with
  | nil =>
    rw [parts, List.mem_singleton] at h
    rw [h]
    exact List.not_mem_nil
  | cons c t ih =>
    rw [parts] at h
    split_ifs at h with hc
    · rcases List.mem_cons.1 h with rfl | h
      · exact List.not_mem_nil
      · exact ih h
    · cases hparts : parts t with
      | nil => exact absurd hparts (parts_ne_nil t)
      | cons first rest =>
        rw [hparts] at h ih
        rcases List.mem_cons.1 h with rfl | h
        · have hfirst : '/' ∉ first := ih List.mem_cons_self
          simp [Ne.symm hc, hfirst]
        · exact ih (List.mem_cons_of_mem _ h)

theorem isNormal_ofText (t : Text) : (ofText t).IsNormal where
  root := by
    show rootOf t = [] ∨ rootOf t = ['/'] ∨ rootOf t = ['/', '/']
    unfold rootOf
    split
    · exact .inr (.inr rfl)
    · split_ifs
      · exact .inr (.inl rfl)
      · exact .inr (.inr rfl)
    · exact .inr (.inl rfl)
    · exact .inl rfl
  names := by
    intro name h
    obtain ⟨hmem, hne⟩ := List.mem_filter.1 h
    obtain ⟨hnil, hhere⟩ := of_decide_eq_true hne
    exact ⟨hnil, hhere, noSlash_of_mem_parts hmem⟩

/-! ## Reading what is shown -/

theorem parts_of_noSlash (h : '/' ∉ name) : parts name = [name] := by
  induction name with
  | nil => rfl
  | cons c name ih =>
    have hc : c ≠ '/' := (List.ne_of_not_mem_cons h).symm
    rw [parts, if_neg hc, ih (List.not_mem_of_not_mem_cons h)]

theorem parts_append_slash (h : '/' ∉ name) (t : Text) :
    parts (name ++ '/' :: t) = name :: parts t := by
  induction name with
  | nil => rfl
  | cons c name ih =>
    have hc : c ≠ '/' := (List.ne_of_not_mem_cons h).symm
    rw [List.cons_append, parts, if_neg hc, ih (List.not_mem_of_not_mem_cons h)]

theorem parts_intercalate (hne : names ≠ []) (h : ∀ name ∈ names, '/' ∉ name) :
    parts (['/'].intercalate names) = names := by
  induction names with
  | nil => exact absurd rfl hne
  | cons name names ih =>
    obtain ⟨hname, hnames⟩ := List.forall_mem_cons.1 h
    cases names with
    | nil => rw [List.intercalate_singleton, parts_of_noSlash hname]
    | cons name' names =>
      rw [List.intercalate_cons_cons, List.append_assoc, List.singleton_append,
        parts_append_slash hname, ih nofun hnames]

/-- What comes after the root does not begin with a slash, so that the root is told. -/
theorem rootOf_append {root : Text} (hroot : root = [] ∨ root = ['/'] ∨ root = ['/', '/'])
    (ht : t.head? ≠ some '/') : rootOf (root ++ t) = root := by
  cases t with
  | nil => rcases hroot with rfl | rfl | rfl <;> rfl
  | cons c t =>
    have hc : c ≠ '/' := fun h => ht (congrArg some h)
    rcases hroot with rfl | rfl | rfl <;> simp [rootOf, hc]

theorem head?_intercalate_ne (h : ∀ name ∈ names, IsName name) :
    (['/'].intercalate names).head? ≠ some '/' := by
  cases names with
  | nil => nofun
  | cons name names =>
    obtain ⟨hname, -⟩ := List.forall_mem_cons.1 h
    cases name with
    | nil => exact absurd rfl hname.ne_nil
    | cons c name =>
      have hc : c ≠ '/' := (List.ne_of_not_mem_cons hname.noSlash).symm
      cases names <;> simpa [List.intercalate_cons_cons] using hc

/-- The parts of the root are empty, and no name is dropped. -/
theorem filter_parts {root : Text} (hroot : root = [] ∨ root = ['/'] ∨ root = ['/', '/'])
    (hne : names ≠ []) (h : ∀ name ∈ names, IsName name) :
    ((parts (root ++ ['/'].intercalate names)).filter fun name => name ≠ [] ∧ name ≠ ['.']) =
      names := by
  have hnames : names.filter (fun name => name ≠ [] ∧ name ≠ ['.']) = names :=
    List.filter_eq_self.2 fun name hn => decide_eq_true ⟨(h name hn).ne_nil, (h name hn).ne_here⟩
  have hparts := parts_intercalate hne fun name hn => (h name hn).noSlash
  rcases hroot with rfl | rfl | rfl <;> simpa [parts, hparts] using hnames

/-- What a path is shown as tells the path. -/
theorem ofText_shown (h : p.IsNormal) : ofText p.shown = p := by
  obtain ⟨root, names⟩ := p
  obtain ⟨hroot, hnames⟩ := h
  unfold shown ofText
  by_cases hempty : names = []
  · subst hempty
    rcases hroot with hroot | hroot | hroot <;> simp only at hroot <;> subst hroot <;> decide
  · rw [if_neg fun he => hempty he.2, rootOf_append hroot (head?_intercalate_ne hnames),
      filter_parts hroot hempty hnames]

theorem ofText_eq_iff (s t : Text) : ofText s = ofText t ↔ (ofText s).shown = (ofText t).shown := by
  constructor
  · exact congrArg shown
  · intro h
    rw [← ofText_shown (isNormal_ofText s), h, ofText_shown (isNormal_ofText t)]

example : ofText "./a//b/../c".toList = ofText "a/b/.././c/".toList := by decide

/-! ## Places -/

theorem sublist_of_foldlM_step {start : List Text} (h : names.foldlM step? start = some place) :
    place.Sublist (start ++ names) := by
  induction names generalizing start with
  | nil =>
    obtain rfl := Option.some.inj h
    rw [List.append_nil]
  | cons name names ih =>
    rw [List.foldlM_cons] at h
    obtain ⟨next, hnext, h⟩ := Option.bind_eq_some_iff.1 h
    have hsub : next.Sublist (start ++ [name]) := by
      unfold step? at hnext
      split_ifs at hnext with hname hstart
      · rw [← Option.some.inj hnext]
      · rw [← Option.some.inj hnext]
        exact (List.dropLast_sublist start).trans (List.sublist_append_left _ _)
    have hall := (ih h).trans (hsub.append_right names)
    rwa [List.append_assoc, List.singleton_append] at hall

theorem sublist_of_placeOf (h : placeOf? names = some place) : place.Sublist names :=
  sublist_of_foldlM_step h

theorem visits_iff (p : Path) (place : List Text) :
    p.visits place = true ↔
      ∃ names, names <+: p.names ∧ (Path.mk p.root names).place? = some place := by
  unfold visits
  rw [List.any_eq_true]
  constructor
  · rintro ⟨n, -, h⟩
    exact ⟨p.names.take n, List.take_prefix n _, of_decide_eq_true h⟩
  · rintro ⟨names, hprefix, h⟩
    refine ⟨names.length, List.mem_range.2 (Nat.lt_succ_of_le hprefix.length_le), ?_⟩
    rw [← List.prefix_iff_eq_take.1 hprefix]
    exact decide_eq_true h

/-! ## What is shown of a place -/

theorem intercalate_sublist {sep : Text} (h : place.Sublist names) :
    (sep.intercalate place).Sublist (sep.intercalate names) := by
  induction h with
  | slnil => exact .refl _
  | @cons place names name h ih =>
    cases names with
    | nil => rw [List.sublist_nil.1 h]; exact List.nil_sublist _
    | cons name' names =>
      rw [List.intercalate_cons_cons]
      exact ih.trans (List.sublist_append_right _ _)
  | @cons_cons place names name h ih =>
    cases place with
    | nil =>
      rw [List.intercalate_singleton]
      cases names with
      | nil => rw [List.intercalate_singleton]
      | cons name' names =>
        rw [List.intercalate_cons_cons, List.append_assoc]
        exact List.sublist_append_left _ _
    | cons first place =>
      cases names with
      | nil => exact absurd h nofun
      | cons name' names =>
        rw [List.intercalate_cons_cons, List.intercalate_cons_cons]
        exact ih.append_left _

theorem shown_of_sublist (hroot : p.root = []) (h : place.Sublist p.names) :
    (Path.mk [] place).shown = ['.'] ∨ (Path.mk [] place).shown.Sublist p.shown := by
  cases place with
  | nil => exact .inl rfl
  | cons name place =>
    have hne : p.names ≠ [] := fun he => absurd (he ▸ h) nofun
    have hplace : (Path.mk [] (name :: place)).shown = ['/'].intercalate (name :: place) := rfl
    have hp : p.shown = ['/'].intercalate p.names := by
      rw [shown, if_neg fun he => hne he.2, hroot, List.nil_append]
    rw [hplace, hp]
    exact .inr (intercalate_sublist h)

end Path

/-! ## Following a path -/

namespace Entry

/-- An entry lies at a place below another, in the folders `above` it, the innermost first. -/
inductive Lies (start : Entry) : List Text → List Entry → Entry → Prop
  | here : Lies start [] [] start
  | inside {place : List Text} {above : List Entry} {entries : List (Text × Entry)} {name : Text}
      {e : Entry} (h : Lies start place above (folder entries)) (hup : name ≠ Path.up)
      (hshort : (utf8 name).length ≤ Path.nameLimit)
      (hfind : entries.find? (fun e => e.1 = name) = some (name, e)) :
      Lies start (place ++ [name]) (folder entries :: above) e

variable {start outermost outer e e' here root : Entry} {above : List Entry}
  {entries : List (Text × Entry)} {name : Text} {place place' names : List Text} {p q : Path}

theorem descend_up : descend outermost (outer :: above) (folder entries) (Path.up :: names) =
    descend outermost above outer names := by
  rw [descend.eq_def]
  rfl

theorem descend_inside (hup : name ≠ Path.up) (hshort : (utf8 name).length ≤ Path.nameLimit)
    (hfind : entries.find? (fun e => e.1 = name) = some (name, e)) :
    descend outermost above (folder entries) (name :: names) =
      descend outermost (folder entries :: above) e names := by
  rw [descend.eq_def]
  simp only [if_neg hup, if_neg (Nat.not_lt.2 hshort), hfind]

/-- A name that is followed is short and in the folder. -/
theorem exists_of_descend_inside (hup : name ≠ Path.up)
    (h : descend outermost above (folder entries) (name :: names) = .found e) :
    (utf8 name).length ≤ Path.nameLimit ∧
      ∃ e, entries.find? (fun e => e.1 = name) = some (name, e) := by
  rw [descend.eq_def] at h
  simp only [if_neg hup] at h
  split_ifs at h with hlong
  cases hfind : entries.find? (fun e => e.1 = name) with
  | none => simp [hfind] at h
  | some e =>
    have hname : e.1 = name := by simpa using List.find?_some hfind
    exact ⟨Nat.not_lt.1 hlong, e.2, by rw [← hname]⟩

namespace Lies

/-- The names of the place lead to the entry. -/
theorem descend_append (h : Lies start place above e) (names : List Text) :
    descend outermost [] start (place ++ names) = descend outermost above e names := by
  induction h generalizing names with
  | here => rfl
  | inside h hup hshort hfind ih =>
    rw [List.append_assoc, ih, List.singleton_append, descend_inside hup hshort hfind]

theorem descend_eq_found (h : Lies start place above e) :
    descend outermost [] start place = .found e := by
  have hend : descend outermost [] start (place ++ []) = descend outermost above e [] :=
    h.descend_append []
  rwa [List.append_nil, descend] at hend

/-- From an entry at a place, names lead to an entry at the place that they make of it. -/
theorem exists_of_descend (h : Lies start place above e)
    (hplace : names.foldlM Path.step? place = some place')
    (hfound : descend outermost above e names = .found e') :
    ∃ above', Lies start place' above' e' := by
  induction names generalizing place above e with
  | nil =>
    obtain rfl := Option.some.inj hplace
    obtain rfl := Lookup.found.inj hfound
    exact ⟨above, h⟩
  | cons name names ih =>
    rw [List.foldlM_cons] at hplace
    obtain ⟨next, hnext, hplace⟩ := Option.bind_eq_some_iff.1 hplace
    cases e with
    | file content => exact absurd hfound nofun
    | folder entries =>
      unfold Path.step? at hnext
      split_ifs at hnext with hup hempty
      · obtain ⟨hshort, e, hfind⟩ := exists_of_descend_inside hup hfound
        obtain rfl := Option.some.inj hnext
        rw [descend_inside hup hshort hfind] at hfound
        exact ih (.inside h hup hshort hfind) hplace hfound
      · obtain rfl := not_not.1 hup
        obtain rfl := Option.some.inj hnext
        cases h with
        | here => exact absurd rfl hempty
        | inside h =>
          rw [descend_up] at hfound
          rw [List.dropLast_concat] at hplace
          exact ih h hplace hfound

end Lies

/-- The place of the names leads where the names do. -/
theorem descend_placeOf (hplace : Path.placeOf? names = some place)
    (hfound : descend outermost [] here names = .found e) :
    descend outermost [] here place = .found e := by
  obtain ⟨above, h⟩ := Lies.here.exists_of_descend hplace hfound
  exact h.descend_eq_found

/-- The place of a path leads where the path does. -/
theorem follow_place (hplace : p.place? = some place) (hfound : follow root here p = .found e) :
    follow root here ⟨[], place⟩ = .found e := by
  unfold Path.place? at hplace
  split_ifs at hplace with hroot
  unfold follow at hfound ⊢
  rw [if_pos hroot] at hfound
  split_ifs at hfound with hnull hlong
  have hshown := Path.shown_of_sublist hroot (Path.sublist_of_placeOf hplace)
  have hnull' : '\x00' ∉ (Path.mk [] place).shown := by
    rcases hshown with hshown | hshown
    · rw [hshown]
      decide
    · exact fun hmem => hnull (hshown.subset hmem)
  have hlong' : ¬ (Path.mk [] place).isLong = true := by
    unfold Path.isLong at hlong ⊢
    rw [decide_eq_true_iff, Nat.not_lt] at hlong ⊢
    rcases hshown with hshown | hshown
    · rw [hshown]
      decide
    · exact (hshown.flatMap _).length_le.trans hlong
  rw [if_neg hnull', if_neg hlong', if_pos rfl]
  exact descend_placeOf hplace hfound

/-- Two paths with one place lead to one entry. -/
theorem follow_eq_of_place (hp : p.place? = some place) (hq : q.place? = some place)
    (hfound : follow root here p = .found e) (hfound' : follow root here q = .found e') :
    e = e' := by
  have hplace := follow_place hp hfound
  rw [follow_place hq hfound'] at hplace
  exact (Lookup.found.inj hplace).symm

end Entry

end XPathAssembly
