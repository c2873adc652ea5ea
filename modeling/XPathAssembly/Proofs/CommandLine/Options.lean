import Mathlib.Data.List.TakeDrop
import Mathlib.Data.List.TakeWhile
import Mathlib.Tactic.SplitIfs
import XPathAssembly.CommandLine.Options

/-!
# What a command line can give

Whatever the words of a command line are, if it is read then every option that is required is among
what it gives, and every setting fits its option: as many values as the option takes, each of them
one of its choices and each of them a word of the line or the end of one.

    parse os words = .ok (.settings ss) →
      (∀ s ∈ ss, s.Fits os words) ∧ ∀ o ∈ os, o.required → ∃ s ∈ ss, s.option = o   (parse_fits)

The words are sorted out before any option is acted on, so that the invariant is carried by what
each sorted word may say (`Role.Says`), then by what each group offers (`Setting.Offered`).
-/

namespace XPathAssembly

namespace Options

/-! ## Definitions -/

/-- The option word has this text attached to it, if any. -/
def Role.Says (os : List Spec) (word : Text) : Role → Prop
  | .option o attached =>
    o ∈ os ∧ word ≠ Options.separator ∧ ∀ t, attached = some t → t <:+ word
  | _ => True

/-- A setting of a known option, with values from the words.  An option that takes values is
without any only if the separator is attached to its word. -/
structure Setting.Offered (os : List Spec) (words : List Text) (s : Setting) : Prop where
  known : s.option ∈ os
  none : s.option.arity = .none → s.values = []
  one : s.option.arity = .one → s.values.length ≤ 1
  given : ∀ v ∈ s.values, ∃ w ∈ words, v <:+ w
  valued : s.option.arity ≠ .none → s.values = [] → ∃ w ∈ words, w ≠ separator ∧ separator <:+ w

/-- A setting that the command can go on with. -/
structure Setting.Fits (os : List Spec) (words : List Text) (s : Setting) : Prop
    extends s.Offered os words where
  chosen : ∀ choices, s.option.choices = some choices → ∀ v ∈ s.values, v ∈ choices
  noHelp : s.option.help = false

variable {os : List Spec} {o : Spec} {word t : Text} {words values : List Text} {role : Role}
  {rs : List (Text × Role)} {ss done : List Setting} {s : Setting} {g : Group}

/-! ## Sorting out the words -/

theorem find?_mem (h : find? os word = some o) : o ∈ os := List.mem_of_find?_eq_some h

theorem mem_of_mem_allNames {n : Text} (h : (n, o) ∈ allNames os) : o ∈ os := by
  unfold allNames at h
  obtain ⟨o', ho', hn⟩ := List.mem_flatMap.mp h
  obtain ⟨n', -, he⟩ := List.mem_map.mp hn
  cases he
  exact ho'

theorem suffix_of_splitEquals {before after : Text} (h : splitEquals word = (before, some after)) :
    word = before ++ '=' :: after := by
  unfold splitEquals at h
  rw [List.span_eq_takeWhile_dropWhile] at h
  have happend := List.takeWhile_append_dropWhile (p := (· != '=')) (l := word)
  cases hdrop : word.dropWhile (· != '=') with
  | nil =>
    rw [hdrop] at h
    cases h
  | cons c rest =>
    have hc : c = '=' := by
      have hnot := List.head_dropWhile_not (· != '=') (l := word) (by simp [hdrop])
      simpa [hdrop] using hnot
    rw [hdrop] at h happend
    subst hc
    obtain ⟨rfl, hafter⟩ := Prod.mk.inj h
    rw [← Option.some.inj hafter, happend]

theorem splitEquals_of_not_mem (h : '=' ∉ word) : splitEquals word = (word, none) := by
  have hall : ∀ c ∈ word, (c != '=') = true := by
    intro c hc
    rw [bne_iff_ne]
    rintro rfl
    exact h hc
  unfold splitEquals
  rw [List.span_eq_takeWhile_dropWhile, List.takeWhile_eq_self_iff.mpr hall,
    List.dropWhile_eq_nil_iff.mpr hall]

theorem of_mem_longMatches {n : Text} {attached : Option Text}
    (h : (n, o, attached) ∈ longMatches os word) :
    o ∈ os ∧ ∀ t, attached = some t → t <:+ word := by
  unfold longMatches at h
  obtain ⟨⟨n', o'⟩, hm, he⟩ := List.mem_map.mp h
  cases he
  refine ⟨mem_of_mem_allNames (List.mem_filter.mp hm).1, ?_⟩
  intro t ht
  have hsplit : word = (splitEquals word).1 ++ '=' :: t := suffix_of_splitEquals (Prod.ext rfl ht)
  rw [hsplit]
  exact ⟨(splitEquals word).1 ++ ['='], by simp⟩

theorem of_mem_shortMatches {n : Text} {attached : Option Text}
    (h : (n, o, attached) ∈ shortMatches os word) :
    o ∈ os ∧ ∀ t, attached = some t → t <:+ word := by
  unfold shortMatches at h
  obtain ⟨⟨n', o'⟩, hm, he⟩ := List.mem_filterMap.mp h
  have ho := mem_of_mem_allNames hm
  simp only at he
  split_ifs at he
  · cases he
    refine ⟨ho, ?_⟩
    rintro t ⟨⟩
    exact List.drop_suffix 2 word
  · cases he
    exact ⟨ho, nofun⟩

theorem says_rolePartial (hw : word ≠ separator) (h : rolePartial os word = .ok role) :
    role.Says os word := by
  have hfound : ∀ n o attached, (n, o, attached) ∈
      (if separator.isPrefixOf word then longMatches os word else shortMatches os word) →
        o ∈ os ∧ ∀ t, attached = some t → t <:+ word := by
    intro n o attached hm
    split_ifs at hm
    · exact of_mem_longMatches hm
    · exact of_mem_shortMatches hm
  unfold rolePartial at h
  simp only at h
  split at h
  · cases h
    split <;> trivial
  · next heq =>
    cases h
    have hone := hfound _ _ _ (by rw [heq]; exact List.mem_singleton_self _)
    exact ⟨hone.1, hw, hone.2⟩
  · cases h

theorem says_roleOf (hw : word ≠ separator) (h : roleOf os word = .ok role) :
    role.Says os word := by
  unfold roleOf at h
  split at h
  · split at h
    · next o _ _ hfind =>
      cases h
      exact ⟨find?_mem hfind, hw, nofun⟩
    · next name value _ hsplit =>
      split at h
      · next o hfind =>
        cases h
        refine ⟨find?_mem hfind, hw, ?_⟩
        rintro t ⟨⟩
        rw [suffix_of_splitEquals hsplit]
        exact ⟨name ++ ['='], by simp⟩
      · exact says_rolePartial hw h
    · exact says_rolePartial hw h
  · cases h
    trivial

/-- Sorting out loses no word and adds none. -/
theorem map_fst_roles (h : roles os words = .ok rs) : rs.map Prod.fst = words := by
  induction words generalizing rs with
  | nil =>
    cases h
    rfl
  | cons word rest ih =>
    unfold roles at h
    split at h
    · cases h
      simp [Function.comp_def]
    · split at h
      · cases h
      · cases h
      · next sorted _ hrest =>
        cases h
        rw [List.map_cons, ih hrest]

theorem says_roles (h : roles os words = .ok rs) : ∀ r ∈ rs, r.2.Says os r.1 := by
  induction words generalizing rs with
  | nil =>
    cases h
    simp
  | cons word rest ih =>
    unfold roles at h
    split at h
    · cases h
      intro r hr
      rcases List.mem_cons.mp hr with rfl | hr
      · trivial
      · obtain ⟨w, -, rfl⟩ := List.mem_map.mp hr
        trivial
    · next hw =>
      split at h
      · cases h
      · cases h
      · next hrole hrest =>
        cases h
        intro r hr
        rcases List.mem_cons.mp hr with rfl | hr
        · exact says_roleOf hw hrole
        · exact ih hrest r hr

/-- The words of the groups and the values before them are the sorted words, in order. -/
theorem flatMap_groups (rs : List (Text × Role)) :
    (groups rs).1 ++ (groups rs).2.flatMap (fun g => g.word :: g.values) = rs.map Prod.fst := by
  induction rs with
  | nil => rfl
  | cons r rest ih =>
    obtain ⟨word, role⟩ := r
    cases role <;> simp [groups, ← ih]

theorem role_groups : ∀ g ∈ (groups rs).2, (g.word, g.role) ∈ rs := by
  induction rs with
  | nil => simp [groups]
  | cons r rest ih =>
    obtain ⟨word, role⟩ := r
    have hrest : ∀ g ∈ (groups rest).2, (g.word, g.role) ∈ (word, role) :: rest :=
      fun g hg => List.mem_cons_of_mem _ (ih g hg)
    cases role with
    | value => exact hrest
    | option o attached | unknown | separator =>
      intro g hg
      rcases List.mem_cons.mp hg with rfl | hg
      · exact List.mem_cons_self
      · exact hrest g hg

/-! ## Taking the options -/

/-- The words of a group stand in the line. -/
def Group.Stands (words : List Text) (g : Group) : Prop :=
  g.word ∈ words ∧ ∀ v ∈ g.values, v ∈ words

theorem offered_takeFollowing {taken : Taken} (ho : o ∈ os) (hv : ∀ v ∈ values, v ∈ words)
    (h : takeFollowing o values = .ok taken) : ∀ s ∈ taken.settings, s.Offered os words := by
  have hgiven : ∀ v ∈ values, ∃ w ∈ words, v <:+ w := fun v hm => ⟨v, hv v hm, List.suffix_rfl⟩
  unfold takeFollowing at h
  split at h
  · next harity =>
    cases h
    simp only [List.mem_singleton, forall_eq]
    exact ⟨ho, fun _ => rfl, fun _ => by simp, by simp, fun hne => absurd harity hne⟩
  · cases h
  · next harity =>
    cases h
    simp only [List.mem_singleton, forall_eq]
    refine ⟨ho, fun hnone => ?_, fun _ => by simp, ?_, nofun⟩
    · rw [harity] at hnone
      cases hnone
    · simpa using hgiven _ List.mem_cons_self
  · cases h
  · next harity hvalues =>
    cases h
    simp only [List.mem_singleton, forall_eq]
    refine ⟨ho, fun hnone => ?_, fun hone => ?_, hgiven, fun _ hnil => absurd hnil hvalues⟩
    · rw [harity] at hnone
      cases hnone
    · rw [harity] at hone
      cases hone

theorem offered_attached (ho : o ∈ os) (harity : o.arity ≠ .none) (hw : word ∈ words)
    (hne : word ≠ separator) (ht : t <:+ word) :
    Setting.Offered os words ⟨o, attachedValues t⟩ := by
  unfold attachedValues
  by_cases hs : t = separator
  · rw [if_pos hs]
    exact ⟨ho, fun h => absurd h harity, fun _ => by simp, by simp, fun _ _ =>
      ⟨word, hw, hne, hs ▸ ht⟩⟩
  · rw [if_neg hs]
    exact ⟨ho, fun h => absurd h harity, fun _ => by simp, by simpa using ⟨word, hw, ht⟩, nofun⟩

theorem offered_takeAttached {taken : Taken} {short : Bool} (ho : o ∈ os) (hw : word ∈ words)
    (hne : word ≠ separator) (hv : ∀ v ∈ values, v ∈ words) (ht : t <:+ word)
    (h : takeAttached os o short values t = .ok taken) :
    ∀ s ∈ taken.settings, s.Offered os words := by
  induction t generalizing o taken with
  | nil =>
    unfold takeAttached at h
    split at h
    · next harity =>
      cases h
      simpa using offered_attached ho harity hw hne ht
    · cases h
  | cons c rest ih =>
    unfold takeAttached at h
    split at h
    · next harity =>
      cases h
      simpa using offered_attached ho harity hw hne ht
    · next harity =>
      simp only at h
      split at h
      · cases h
      · next next hfind =>
        have hnext : next ∈ os := by
          split at hfind
          · exact find?_mem hfind
          · cases hfind
        split at h
        · cases h
        · next more hmore =>
          cases h
          have hrest : ∀ s ∈ more.settings, s.Offered os words := by
            split at hmore
            · exact offered_takeFollowing hnext hv hmore
            · exact ih hnext ((List.suffix_cons c rest).trans ht) hmore
          intro s hs
          rcases List.mem_cons.mp hs with rfl | hs
          · exact ⟨ho, fun _ => rfl, fun _ => by simp, by simp, fun h => absurd h harity⟩
          · exact hrest s hs

theorem offered_takeGroup {taken : Taken} (hg : g.Stands words)
    (hs : g.role.Says os g.word) (h : takeGroup os g = .ok taken) :
    ∀ s ∈ taken.settings, s.Offered os words := by
  obtain ⟨word, role, values⟩ := g
  unfold takeGroup at h
  cases role with
  | option o attached =>
    obtain ⟨ho, hne, ht⟩ := hs
    cases attached with
    | none => exact offered_takeFollowing ho hg.2 h
    | some t => exact offered_takeAttached ho hg.1 hne hg.2 (ht t rfl) h
  | value | unknown | separator =>
    cases h
    simp

/-! ## Acting on the options -/

theorem checkChoices_eq_ok_iff : checkChoices s = .ok () ↔
    ∀ choices, s.option.choices = some choices → ∀ v ∈ s.values, v ∈ choices := by
  unfold checkChoices
  cases hc : s.option.choices with
  | none => simp
  | some choices =>
    simp only [Option.some.injEq, forall_eq']
    cases hf : s.values.find? (· ∉ choices) with
    | none =>
      have hall := List.find?_eq_none.mp hf
      simpa using hall
    | some v =>
      have hv := List.find?_some hf
      simp only [decide_not, Bool.not_eq_true', decide_eq_false_iff_not] at hv
      refine ⟨nofun, fun h => absurd (h v (List.mem_of_find?_eq_some hf)) hv⟩

/-- What is acted on without a request for help is kept, in order, and has been checked. -/
theorem fits_act {all : List Setting} (ho : ∀ s ∈ ss, s.Offered os words)
    (h : act done ss = .ok (false, all)) : all = done ++ ss ∧ ∀ s ∈ ss, s.Fits os words := by
  induction ss generalizing done with
  | nil =>
    cases h
    simp
  | cons s rest ih =>
    unfold act at h
    split at h
    · cases h
    · next hchoices =>
      split at h
      · cases h
      · next hhelp =>
        obtain ⟨hall, hrest⟩ := ih (fun s' hs' => ho s' (by simp [hs'])) h
        refine ⟨by rw [hall, List.append_assoc, List.singleton_append], ?_⟩
        intro s' hs'
        rcases List.mem_cons.mp hs' with rfl | hs'
        · exact ⟨ho s' (by simp), checkChoices_eq_ok_iff.mp hchoices, by simpa using hhelp⟩
        · exact hrest s' hs'

theorem fits_takeAll {gs : List Group} {left : List Text} (hg : ∀ g ∈ gs, g.Stands words)
    (hs : ∀ g ∈ gs, g.role.Says os g.word) (hd : ∀ s ∈ done, s.Fits os words)
    (h : takeAll os done left gs = .ok (.settings ss)) :
    (∀ s ∈ ss, s.Fits os words) ∧ ∀ o ∈ os, o.required = true → ∃ s ∈ ss, s.option = o := by
  induction gs generalizing done left with
  | nil =>
    unfold takeAll at h
    split at h
    · next hmissing =>
      split at h
      · cases h
        refine ⟨hd, ?_⟩
        intro o ho hr
        have hnot := List.filter_eq_nil_iff.mp hmissing o ho
        simpa [hr] using hnot
      · cases h
    · cases h
  | cons g rest ih =>
    unfold takeAll at h
    split at h
    · cases h
    · next taken htaken =>
      split at h
      · cases h
      · cases h
      · next all hact =>
        have hoffered := offered_takeGroup (hg g (by simp)) (hs g (by simp)) htaken
        obtain ⟨rfl, hfits⟩ := fits_act hoffered hact
        refine ih (fun g' hg' => hg g' (by simp [hg'])) (fun g' hg' => hs g' (by simp [hg'])) ?_ h
        intro s hmem
        rcases List.mem_append.mp hmem with hmem | hmem
        · exact hd s hmem
        · exact hfits s hmem

/-- **Settings fit.**  What a command line gives can be gone on with: no option is unknown or given
a value that is not among its choices, no value is made up, and nothing that is required is
missing. -/
theorem parse_fits (h : parse os words = .ok (.settings ss)) :
    (∀ s ∈ ss, s.Fits os words) ∧ ∀ o ∈ os, o.required = true → ∃ s ∈ ss, s.option = o := by
  unfold parse at h
  split at h
  · cases h
  · next sorted hsorted =>
    have hwords : (groups sorted).1 ++ (groups sorted).2.flatMap (fun g => g.word :: g.values) =
        words := (flatMap_groups sorted).trans (map_fst_roles hsorted)
    refine fits_takeAll ?_ ?_ (by simp) h
    · intro g hg
      have hmem : ∀ w ∈ g.word :: g.values, w ∈ words := by
        intro w hw
        rw [← hwords]
        exact List.mem_append_right _ (List.mem_flatMap_of_mem hg hw)
      exact ⟨hmem _ List.mem_cons_self, fun v hv => hmem v (List.mem_cons_of_mem _ hv)⟩
    · intro g hg
      exact says_roles hsorted _ (role_groups g hg)

/-- The group gives one setting, which can be gone on with, and leaves nothing over. -/
def Group.Gives (os : List Spec) (g : Group) (s : Setting) : Prop :=
  takeGroup os g = .ok ⟨[s], []⟩ ∧ checkChoices s = .ok () ∧ s.option.help = false

/-- Groups that give settings are read, if nothing that is required is missing. -/
theorem takeAll_of_gives {gs : List Group} (h : List.Forall₂ (Group.Gives os) gs ss)
    (hr : ∀ o ∈ os, o.required = true → ∃ s ∈ done ++ ss, s.option = o) :
    takeAll os done [] gs = .ok (.settings (done ++ ss)) := by
  induction h generalizing done with
  | nil =>
    have hmissing : (os.filter fun o => o.required && !done.any (·.option = o)) = [] := by
      rw [List.filter_eq_nil_iff]
      intro o ho
      by_cases hreq : o.required = true
      · simpa [hreq] using hr o ho hreq
      · simp [hreq]
    unfold takeAll
    simp [hmissing]
  | cons hg _ ih =>
    obtain ⟨htake, hchoices, hhelp⟩ := hg
    unfold takeAll
    simp only [htake, act, hchoices, hhelp, Bool.false_eq_true, if_false, List.append_nil]
    rw [ih (by simpa using hr), List.append_assoc, List.singleton_append]

/-- The values of an option are those of a setting with that name. -/
theorem exists_of_valuesOf? {name : Text} (h : valuesOf? ss name = some values) :
    ∃ s ∈ ss, name ∈ s.option.names ∧ s.values = values := by
  unfold valuesOf? at h
  obtain ⟨s, hs, rfl⟩ := Option.map_eq_some_iff.mp h
  have hname := List.find?_some hs
  refine ⟨s, List.mem_reverse.mp (List.mem_of_find?_eq_some hs), ?_, rfl⟩
  simpa using hname

/-- An option that was given has values, perhaps none. -/
theorem valuesOf?_isSome {name : Text} (hs : s ∈ ss) (hname : name ∈ s.option.names) :
    (valuesOf? ss name).isSome = true := by
  unfold valuesOf?
  rw [Option.isSome_map, List.find?_isSome]
  exact ⟨s, List.mem_reverse.mpr hs, by simpa using hname⟩

end Options

end XPathAssembly
