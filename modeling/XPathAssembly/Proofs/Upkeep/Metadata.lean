import Mathlib.Data.List.Forall2
import Mathlib.Data.List.Nodup
import XPathAssembly.Proofs.CommandLine.Options
import XPathAssembly.Upkeep.Metadata

/-!
# What is shown of the package

An option is found by its name, or by a beginning of it that begins no other name; so each beginning
finds at most one option, and finds it whatever else is asked for.

    option? start = some o ↔
      o ∈ allOptions ∧ (start = o.1 ∨ Abbreviates start o.1)        (option?_eq_some_iff)

What is shown is what the options name, in their order (`displayed_of_spells`); in particular every
field that can be shown is shown for its full name (`displayed_fields`).
-/

namespace XPathAssembly

namespace Upkeep

namespace Metadata

/-! ## Definitions -/

/-- A beginning of a name that begins no other name, and is no name itself. -/
structure Abbreviates (start name : Text) : Prop where
  begins : start <+: name
  other : start ∉ allOptions.map Prod.fst
  only : ∀ n ∈ allOptions.map Prod.fst, start <+: n → n = name

/-- How a word names options that take no value. -/
inductive Spells : Text → List Text → Prop
  | long {start name : Text} (hne : start ≠ []) (hequals : '=' ∉ start)
    (h : option? start = some (name, false)) : Spells ('-' :: '-' :: start) [name]
  | letters {c : Char} {cs : Text} {names : List Text} (hc : c ≠ '-')
    (h : (c :: cs).mapM letter? = some names) : Spells ('-' :: c :: cs) names

variable {start name : Text} {o : Text × Bool} {words rest : List Text} {names : List Text}
  {named : List (List Text)}

/-! ## Finding an option -/

theorem nodup_names : (allOptions.map Prod.fst).Nodup := by decide

theorem nodup_fields : (fields.map Prod.fst).Nodup := by decide

/-- An option with a name is the only one with it. -/
theorem eq_of_name_eq {o' : Text × Bool} (ho : o ∈ allOptions) (ho' : o' ∈ allOptions)
    (h : o.1 = o'.1) : o = o' :=
  List.inj_on_of_nodup_map nodup_names ho ho' h

/-- In a list by name the first entry with a name is the only one. -/
theorem find?_eq_some_iff {β : Type} {l : List (Text × β)} (hl : (l.map Prod.fst).Nodup)
    {n : Text} {e : Text × β} : (l.find? fun e => e.1 = n) = some e ↔ e ∈ l ∧ e.1 = n := by
  constructor
  · intro h
    exact ⟨List.mem_of_find?_eq_some h, by simpa using List.find?_some h⟩
  · rintro ⟨he, rfl⟩
    cases hfind : l.find? fun e' => e'.1 = e.1 with
    | none =>
      have hnone := List.find?_eq_none.mp hfind e he
      simp at hnone
    | some e' =>
      have hname : e'.1 = e.1 := by simpa using List.find?_some hfind
      rw [List.inj_on_of_nodup_map hl (List.mem_of_find?_eq_some hfind) he hname]

theorem mem_begun (start : Text) (o : Text × Bool) :
    o ∈ allOptions.filter (fun o => start.isPrefixOf o.1) ↔ o ∈ allOptions ∧ start <+: o.1 := by
  rw [List.mem_filter, List.isPrefixOf_iff_prefix]

theorem abbreviates_iff (hother : start ∉ allOptions.map Prod.fst) (ho : o ∈ allOptions) :
    Abbreviates start o.1 ↔ allOptions.filter (fun o => start.isPrefixOf o.1) = [o] := by
  constructor
  · intro h
    have honly : ∀ o' ∈ allOptions.filter (fun o => start.isPrefixOf o.1), o' = o := by
      intro o' hm
      obtain ⟨ho', hbegins⟩ := (mem_begun start o').mp hm
      exact eq_of_name_eq ho' ho (h.only o'.1 (List.mem_map_of_mem ho') hbegins)
    have hnodup := (List.Nodup.of_map _ nodup_names).filter (fun o => start.isPrefixOf o.1)
    have hmem : o ∈ allOptions.filter (fun o => start.isPrefixOf o.1) :=
      (mem_begun start o).mpr ⟨ho, h.begins⟩
    cases hl : allOptions.filter (fun o => start.isPrefixOf o.1) with
    | nil =>
      rw [hl] at hmem
      cases hmem
    | cons first others =>
      rw [hl] at honly hnodup
      obtain rfl := honly first List.mem_cons_self
      cases others with
      | nil => rfl
      | cons second others =>
        obtain rfl := honly second (by simp)
        simp at hnodup
  · intro h
    have hmem : ∀ o', o' ∈ allOptions ∧ start <+: o'.1 ↔ o' = o := by
      intro o'
      rw [← mem_begun, h, List.mem_singleton]
    refine ⟨((hmem o).mpr rfl).2, hother, ?_⟩
    intro n hn hbegins
    obtain ⟨o', ho', rfl⟩ := List.mem_map.mp hn
    rw [(hmem o').mp ⟨ho', hbegins⟩]

theorem option?_of_mem (ho : o ∈ allOptions) : option? o.1 = some o := by
  unfold option?
  rw [(find?_eq_some_iff nodup_names).mpr ⟨ho, rfl⟩]

theorem option?_of_not_mem (hother : start ∉ allOptions.map Prod.fst) :
    option? start = some o ↔
      allOptions.filter (fun o => start.isPrefixOf o.1) = [o] := by
  have hfind : allOptions.find? (fun o => o.1 = start) = none := by
    rw [List.find?_eq_none]
    intro o' ho' hname
    exact hother (List.mem_map.mpr ⟨o', ho', by simpa using hname⟩)
  unfold option?
  rw [hfind]
  cases allOptions.filter (fun o => start.isPrefixOf o.1) with
  | nil => simp
  | cons first others => cases others <;> simp

/-- **Options are named without doubt**: by their full name, or by a beginning of it that begins no
other. -/
theorem option?_eq_some_iff :
    option? start = some o ↔ o ∈ allOptions ∧ (start = o.1 ∨ Abbreviates start o.1) := by
  by_cases hm : start ∈ allOptions.map Prod.fst
  · obtain ⟨o', ho', rfl⟩ := List.mem_map.mp hm
    rw [option?_of_mem ho', Option.some.injEq]
    constructor
    · rintro rfl
      exact ⟨ho', Or.inl rfl⟩
    · rintro ⟨ho, hsame | habbreviates⟩
      · exact eq_of_name_eq ho' ho hsame
      · exact absurd hm habbreviates.other
  · rw [option?_of_not_mem hm]
    constructor
    · intro h
      have ho := ((mem_begun start o).mp (by rw [h]; exact List.mem_singleton_self o)).1
      exact ⟨ho, Or.inr ((abbreviates_iff hm ho).mpr h)⟩
    · rintro ⟨ho, rfl | habbreviates⟩
      · exact absurd (List.mem_map_of_mem ho) hm
      · exact (abbreviates_iff hm ho).mp habbreviates

/-! ## Showing fields -/

/-- The options at the front are those that their words spell, in order. -/
theorem optionsOf?_append (h : List.Forall₂ Spells words named) :
    optionsOf? (words ++ rest) = (optionsOf? rest).map (named.flatten ++ ·) := by
  induction h with
  | nil => simp
  | cons hw _ ih =>
    cases hw with
    | @long start name hne hequals hfound =>
      obtain ⟨c, cs, rfl⟩ := List.exists_cons_of_ne_nil hne
      rw [List.cons_append, optionsOf?, Options.splitEquals_of_not_mem hequals]
      · simp only [hfound, ih]
        cases optionsOf? rest <;> simp
      · exact hne
    | @letters c cs names hc hnames =>
      rw [List.cons_append, optionsOf?, hnames, ih]
      · cases optionsOf? rest <;> simp
      · intro hdash _
        exact hc hdash
      · exact hc

/-- What is shown is what the options name, in order. -/
theorem displayed_of_spells (h : List.Forall₂ Spells words named) :
    displayed words = showNamed named.flatten := by
  have hread : optionsOf? (words ++ []) = (optionsOf? []).map (named.flatten ++ ·) :=
    optionsOf?_append h
  rw [List.append_nil] at hread
  unfold displayed
  rw [hread]
  simp [optionsOf?]

theorem optionOf_field : ∀ f ∈ fields, (f.1, false) ∈ allOptions ∧ f.1 ≠ [] ∧ '=' ∉ f.1 := by
  intro f hf
  have hplain : ∀ n ∈ fields.map Prod.fst, n ≠ [] ∧ '=' ∉ n := by decide
  exact ⟨List.mem_append_left _ (List.mem_map.mpr ⟨f, hf, rfl⟩),
    hplain f.1 (List.mem_map_of_mem hf)⟩

theorem spells_field {f : Text × Field} (hf : f ∈ fields) : Spells ('-' :: '-' :: f.1) [f.1] := by
  obtain ⟨ho, hne, hequals⟩ := optionOf_field f hf
  exact Spells.long hne hequals (option?_of_mem ho)

theorem showNamed_fields {fs : List (Text × Field)} (hfields : ∀ f ∈ fs, f ∈ fields)
    (hshown : ∀ f ∈ fs, f.2 ≠ .unusable) :
    showNamed (fs.map Prod.fst) = fs.flatMap fun f => f.2.shown.getD [] := by
  induction fs with
  | nil => rfl
  | cons f fs ih =>
    have hrest := ih (fun f' hf' => hfields f' (List.mem_cons_of_mem _ hf'))
      (fun f' hf' => hshown f' (List.mem_cons_of_mem _ hf'))
    obtain ⟨name, field⟩ := f
    have hfind := (find?_eq_some_iff nodup_fields).mpr ⟨hfields _ List.mem_cons_self, rfl⟩
    rw [List.map_cons, showNamed, hfind, List.flatMap_cons, ← hrest]
    cases field with
    | text t | lines ts | absent => rfl
    | unusable => exact absurd rfl (hshown _ List.mem_cons_self)

/-- **Every field that can be shown is shown** for its full name, as many of them as are asked for
and in the order they are asked for in. -/
theorem displayed_fields {fs : List (Text × Field)} (hfields : ∀ f ∈ fs, f ∈ fields)
    (hshown : ∀ f ∈ fs, f.2 ≠ .unusable) :
    displayed (fs.map fun f => '-' :: '-' :: f.1) = fs.flatMap fun f => f.2.shown.getD [] := by
  have hspells :
      List.Forall₂ Spells (fs.map fun f => '-' :: '-' :: f.1) (fs.map fun f => [f.1]) := by
    rw [List.forall₂_map_left_iff, List.forall₂_map_right_iff, List.forall₂_same]
    exact fun f hf => spells_field (hfields f hf)
  have hnames : (fs.map fun f => [f.1]).flatten = fs.map Prod.fst := by
    rw [← List.flatMap_def, List.map_eq_flatMap]
  rw [displayed_of_spells hspells, hnames, showNamed_fields hfields hshown]

/-- Asked for, the long description is shown as it is. -/
theorem displayed_readme : displayed ["--long-description".toList] = readme ++ ['\n'] := by
  have hfields : ∀ f ∈ [("long-description".toList, Field.text readme)], f ∈ fields := by
    unfold fields
    simp
  rw [← List.append_nil (readme ++ ['\n'])]
  exact displayed_fields hfields (by simp)

theorem infix_ofLines {l : String} {lines : List String} (h : l ∈ lines) :
    l.toList ++ ['\n'] <:+: Manual.ofLines lines := by
  obtain ⟨before, after, rfl⟩ := List.append_of_mem h
  refine ⟨Manual.ofLines before, Manual.ofLines after, ?_⟩
  simp [Manual.ofLines]

/-- The long description has an entry for every mode of the command. -/
theorem readme_modes (m : Mode) : "``".toList ++ m.name ++ "``".toList ++ ['\n'] <:+: readme := by
  unfold readme
  cases m with
  | xpath => exact infix_ofLines (l := "``xpath``") (by simp)
  | concat => exact infix_ofLines (l := "``concat``") (by simp)
  | avt => exact infix_ofLines (l := "``avt``") (by simp)
  | fuse => exact infix_ofLines (l := "``fuse``") (by simp)
  | dump => exact infix_ofLines (l := "``dump``") (by simp)

end Metadata

end Upkeep

end XPathAssembly
