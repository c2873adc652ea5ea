import XPathAssembly.CommandLine.Program
import XPathAssembly.Proofs.CommandLine.Options

/-!
# Requests from a command line

The command understands every command line or refuses it, and every request can be made by one: the
path and the mode are attached to their options, so that a path may begin with a dash.  The one text
that cannot be attached is the separator, which stands for no value.

    path ≠ separator →
      read name (wordsOf path mode style) = .ok (.chain ⟨Path.ofText path, mode, style⟩)
                                                                              (read_wordsOf)
    AttachNoSeparator words → ∃ asked, read name words = .ok asked             (exists_read)
-/

namespace XPathAssembly

namespace Program

open Options

/-! ## Every request can be made -/

def inputOption : Spec := { names := ["--input".toList], arity := .one, required := true }

def modeOption : Spec :=
  { names := ["--mode".toList], arity := .one, choices := some (Mode.all.map Mode.name) }

/-- An option without a value. -/
def switch (name : String) : Spec := { names := [name.toList] }

/-- The words of the options that a style has. -/
def styleWords (style : Style) : List Text :=
  (if style.quotes then ["--quotes".toList] else []) ++
    (if style.braces then ["--braces".toList] else [])

/-- Words that ask for a chain. -/
def wordsOf (path : Text) (mode : Mode) (style : Style) : List Text :=
  ("--input=".toList ++ path) :: ("--mode=".toList ++ mode.name) :: styleWords style

def styleSettings (style : Style) : List Setting :=
  (if style.quotes then [⟨switch "--quotes", []⟩] else []) ++
    (if style.braces then [⟨switch "--braces", []⟩] else [])

/-- The settings that such words give. -/
def settingsOf (path : Text) (mode : Mode) (style : Style) : List Setting :=
  ⟨inputOption, attachedValues path⟩ :: ⟨modeOption, [mode.name]⟩ :: styleSettings style

variable {path name : Text} {mode : Mode} {style : Style}

def styleGroups (style : Style) : List Group :=
  (if style.quotes then [⟨"--quotes".toList, .option (switch "--quotes") none, []⟩] else []) ++
    (if style.braces then [⟨"--braces".toList, .option (switch "--braces") none, []⟩] else [])

def groupsOf (path : Text) (mode : Mode) (style : Style) : List Group :=
  ⟨"--input=".toList ++ path, .option inputOption (some path), []⟩ ::
    ⟨"--mode=".toList ++ mode.name, .option modeOption (some mode.name), []⟩ :: styleGroups style

theorem roles_wordsOf (path : Text) (mode : Mode) (style : Style) :
    ∃ sorted, roles options (wordsOf path mode style) = .ok sorted ∧
      groups sorted = ([], groupsOf path mode style) := by
  obtain ⟨quotes, braces⟩ := style
  cases mode <;> cases quotes <;> cases braces <;> exact ⟨_, rfl, rfl⟩

theorem gives_groupsOf (path : Text) (mode : Mode) (style : Style) :
    List.Forall₂ (Group.Gives options) (groupsOf path mode style) (settingsOf path mode style) := by
  have hmode : Group.Gives options
      ⟨"--mode=".toList ++ mode.name, .option modeOption (some mode.name), []⟩
      ⟨modeOption, [mode.name]⟩ := by
    cases mode <;> exact ⟨rfl, rfl, rfl⟩
  have hinput : takeGroup options
      ⟨"--input=".toList ++ path, .option inputOption (some path), []⟩ =
        .ok ⟨[⟨inputOption, attachedValues path⟩], []⟩ := by
    unfold takeGroup takeAttached
    exact if_pos (by decide)
  refine .cons ⟨hinput, rfl, rfl⟩ (.cons hmode ?_)
  obtain ⟨quotes, braces⟩ := style
  cases quotes <;> cases braces
  · exact .nil
  · exact .cons ⟨rfl, rfl, rfl⟩ .nil
  · exact .cons ⟨rfl, rfl, rfl⟩ .nil
  · exact .cons ⟨rfl, rfl, rfl⟩ (.cons ⟨rfl, rfl, rfl⟩ .nil)

theorem parse_wordsOf (path : Text) (mode : Mode) (style : Style) :
    parse options (wordsOf path mode style) = .ok (.settings (settingsOf path mode style)) := by
  obtain ⟨sorted, hroles, hgroups⟩ := roles_wordsOf path mode style
  have hrequired : ∀ o ∈ options, o.required = true →
      ∃ s ∈ settingsOf path mode style, s.option = o := by
    have honly : ∀ o ∈ options, o.required = true → o = inputOption := by decide
    intro o ho hr
    exact ⟨_, List.mem_cons_self, (honly o ho hr).symm⟩
  unfold parse
  rw [hroles]
  simp only [hgroups]
  exact takeAll_of_gives (gives_groupsOf path mode style) hrequired

theorem requestOf_settingsOf (path : Text) (mode : Mode) (style : Style) :
    requestOf (settingsOf path mode style) =
      if path = separator then .error .noPath else .ok ⟨Path.ofText path, mode, style⟩ := by
  have hvalues : attachedValues path = if path = separator then [] else [path] := rfl
  unfold settingsOf
  rw [hvalues]
  obtain ⟨quotes, braces⟩ := style
  split
  · cases mode <;> cases quotes <;> cases braces <;> rfl
  · cases mode <;> cases quotes <;> cases braces <;> rfl

/-- The version is not asked for by these words, whatever the path is. -/
theorem not_contains_version (path : Text) (mode : Mode) (style : Style) :
    (wordsOf path mode style).contains "--version".toList = false := by
  obtain ⟨quotes, braces⟩ := style
  cases mode <;> cases quotes <;> cases braces <;> rfl

theorem read_wordsOf (name : Text) (hp : path ≠ separator) (mode : Mode) (style : Style) :
    read name (wordsOf path mode style) = .ok (.chain ⟨Path.ofText path, mode, style⟩) := by
  unfold read
  rw [not_contains_version, parse_wordsOf, Bool.false_and, if_neg Bool.false_ne_true]
  simp only [requestOf_settingsOf, if_neg hp]

/-- The separator stands for no value, and cannot be the path. -/
theorem read_wordsOf_separator (name : Text) (mode : Mode) (style : Style) :
    read name (wordsOf separator mode style) = .error .noPath := by
  unfold read
  rw [not_contains_version, parse_wordsOf, Bool.false_and, if_neg Bool.false_ne_true]
  simp only [requestOf_settingsOf, if_pos]

/-- **Every request can be made.**  Whatever the path, the mode and the style, there are words that
a call answers as the request is answered. -/
theorem call_wordsOf (i : Invocation) (follow : Path → Lookup) (hp : path ≠ separator) (mode : Mode)
    (style : Style) :
    i.call follow (wordsOf path mode style) =
      (answer ⟨Path.ofText path, mode, style⟩ (follow (Path.ofText path))).map i.ending := by
  unfold Invocation.call
  rw [read_wordsOf i.name hp]
  simp only
  cases answer ⟨Path.ofText path, mode, style⟩ (follow (Path.ofText path)) <;> rfl

/-! ## Every command line is understood or refused -/

variable {words : List Text} {ss : List Setting} {s : Setting}

/-- The words attach the separator to no option. -/
def AttachNoSeparator (words : List Text) : Prop :=
  ∀ w ∈ words, separator <:+ w → w = separator

theorem exists_value (hw : AttachNoSeparator words) (hs : s.Fits options words)
    (ho : s.option.arity = .one) : ∃ v, s.values = [v] := by
  have hne : s.values ≠ [] := by
    intro hnil
    obtain ⟨w, hmem, hw', hsuffix⟩ := hs.valued (by rw [ho]; nofun) hnil
    exact hw' (hw w hmem hsuffix)
  have hlength := hs.one ho
  obtain ⟨v, rest, hv⟩ := List.exists_cons_of_ne_nil hne
  rw [hv] at hlength
  simp only [List.length_cons] at hlength
  obtain rfl : rest = [] := List.length_eq_zero_iff.mp (by omega)
  exact ⟨v, hv⟩

/-- The options with a value are found by their names. -/
theorem options_spec : ∀ o ∈ options,
    ("--input".toList ∈ o.names → o = inputOption) ∧
      ("--mode".toList ∈ o.names → o = modeOption) := by
  decide

theorem exists_requestOf (hw : AttachNoSeparator words) (hs : ∀ s ∈ ss, s.Fits options words)
    (hi : ∃ s ∈ ss, s.option = inputOption) : ∃ r, requestOf ss = .ok r := by
  have hinput : ∃ path, (value? ss "--input").join = some path := by
    obtain ⟨s, hmem, ho⟩ := hi
    have hsome : (valuesOf? ss "--input".toList).isSome = true :=
      valuesOf?_isSome hmem (by rw [ho]; decide)
    obtain ⟨values, hvalues⟩ := Option.isSome_iff_exists.mp hsome
    obtain ⟨s', hmem', hname, rfl⟩ := exists_of_valuesOf? hvalues
    have ho' := (options_spec _ (hs s' hmem').known).1 hname
    obtain ⟨v, hv⟩ := exists_value hw (hs s' hmem') (by rw [ho']; rfl)
    refine ⟨v, ?_⟩
    unfold value?
    rw [hvalues, hv]
    rfl
  have hmode : ∃ mode, modeOf ss = .ok mode := by
    unfold modeOf value?
    cases hvalues : valuesOf? ss "--mode".toList with
    | none => exact ⟨_, rfl⟩
    | some values =>
      obtain ⟨s', hmem', hname, rfl⟩ := exists_of_valuesOf? hvalues
      have ho' := (options_spec _ (hs s' hmem').known).2 hname
      obtain ⟨v, hv⟩ := exists_value hw (hs s' hmem') (by rw [ho']; rfl)
      have hchoice : v ∈ Mode.all.map Mode.name :=
        (hs s' hmem').chosen _ (by rw [ho']; rfl) v (by rw [hv]; exact List.mem_singleton_self v)
      obtain ⟨mode, -, rfl⟩ := List.mem_map.mp hchoice
      refine ⟨mode, ?_⟩
      rw [hv]
      cases mode <;> rfl
  obtain ⟨path, hpath⟩ := hinput
  obtain ⟨mode, hm⟩ := hmode
  unfold requestOf
  rw [hpath, hm]
  exact ⟨_, rfl⟩

/-- **Every command line is understood or refused**, and a call never ends without a response for
the words it is given, unless they attach the separator to an option. -/
theorem exists_read (name : Text) (hw : AttachNoSeparator words) :
    ∃ asked, read name words = .ok asked := by
  unfold read
  split
  · exact ⟨_, rfl⟩
  · split
    · exact ⟨_, rfl⟩
    · exact ⟨_, rfl⟩
    · next ss hparse =>
      obtain ⟨hs, hrequired⟩ := parse_fits hparse
      have hinput := hrequired inputOption (by decide) rfl
      obtain ⟨r, hr⟩ := exists_requestOf hw hs hinput
      rw [hr]
      exact ⟨_, rfl⟩

end Program

end XPathAssembly
