import XPathAssembly.Proofs.Json.Literals

/-!
# The grammar of the reader

A document is one value with gaps around it.  Gaps may stand between the parts of arrays and
objects, which may stand in each other up to a depth; of two members with one key the later one
counts.  The reader takes the documents of this grammar, each as its value, and nothing else.

    read t = .ok v ↔ IsDocument t v                                            (read_eq_ok_iff)
-/

namespace XPathAssembly

namespace Json

def IsGap (g : Text) : Prop := ∀ c ∈ g, isSeparator c

/-- The members of an object, put into it one after the other. -/
def putMembers (members : List (List Point × Json)) (ms : List (List Point × Json)) :
    List (List Point × Json) := ms.foldl (fun before m => putMember m.1 m.2 before) members

/-- A key with the gaps around its colon. -/
def keyed (key g g' : Text) : Text := '"' :: key ++ '"' :: g ++ ':' :: g'

mutual

/-- A spelling of a value, with room for so many arrays and objects in each other. -/
inductive Spells : Nat → Text → Json → Prop
  | scalar {room : Nat} {t : Text} {v : Json} (h : SpellsScalar t v) : Spells room t v
  | string {room : Nat} {t : Text} {ps : List Point} (h : SpellsPoints t ps) :
      Spells room ('"' :: t ++ ['"']) (.string (Point.joinPairs ps))
  | noElements {room : Nat} {g : Text} (hg : IsGap g) :
      Spells (room + 1) ('[' :: g ++ [']']) (.array [])
  | array {room : Nat} {g t : Text} {vs : List Json} (hg : IsGap g)
      (h : SpellsElements room t vs) : Spells (room + 1) ('[' :: g ++ t ++ [']']) (.array vs)
  | noMembers {room : Nat} {g : Text} (hg : IsGap g) :
      Spells (room + 1) ('\x7b' :: g ++ ['\x7d']) (.object [])
  | object {room : Nat} {g t : Text} {ms : List (List Point × Json)} (hg : IsGap g)
      (h : SpellsMembers room t ms) :
      Spells (room + 1) ('\x7b' :: g ++ t ++ ['\x7d']) (.object (putMembers [] ms))

/-- The elements of an array, with commas between them. -/
inductive SpellsElements : Nat → Text → List Json → Prop
  | last {room : Nat} {t g : Text} {v : Json} (h : Spells room t v) (hg : IsGap g) :
      SpellsElements room (t ++ g) [v]
  | more {room : Nat} {t u g g' : Text} {v : Json} {vs : List Json} (h : Spells room t v)
      (hg : IsGap g) (hg' : IsGap g') (hs : SpellsElements room u vs) :
      SpellsElements room (t ++ g ++ ',' :: g' ++ u) (v :: vs)

/-- The members of an object, with commas between them. -/
inductive SpellsMembers : Nat → Text → List (List Point × Json) → Prop
  | last {room : Nat} {key g g' t w : Text} {ps : List Point} {v : Json}
      (hk : SpellsPoints key ps) (hg : IsGap g) (hg' : IsGap g') (h : Spells room t v)
      (hw : IsGap w) : SpellsMembers room (keyed key g g' ++ t ++ w) [(Point.joinPairs ps, v)]
  | more {room : Nat} {key g g' t u w w' : Text} {ps : List Point} {v : Json}
      {ms : List (List Point × Json)} (hk : SpellsPoints key ps) (hg : IsGap g) (hg' : IsGap g')
      (h : Spells room t v) (hw : IsGap w) (hw' : IsGap w') (hs : SpellsMembers room u ms) :
      SpellsMembers room (keyed key g g' ++ t ++ w ++ ',' :: w' ++ u)
        ((Point.joinPairs ps, v) :: ms)

end

/-- A value with gaps around it. -/
def IsDocument (t : Text) (v : Json) : Prop :=
  ∃ g u g', t = g ++ u ++ g' ∧ IsGap g ∧ IsGap g' ∧ Spells depthLimit u v

variable {n room : Nat} {t u g g' rest : Text} {c : Char} {v : Json} {vs before : List Json}
  {ms had : List (List Point × Json)}

/-! ## Gaps -/

theorem skip_gap (hg : IsGap g) (t : Text) : skip (g ++ t) = skip t :=
  List.dropWhile_append_of_pos hg

theorem skip_cons (hc : isSeparator c = false) (t : Text) : skip (c :: t) = c :: t :=
  List.dropWhile_cons_of_neg (by rw [hc]; exact Bool.false_ne_true)

theorem skip_gap_cons (hg : IsGap g) (hc : isSeparator c = false) (t : Text) :
    skip (g ++ c :: t) = c :: t := by
  rw [skip_gap hg, skip_cons hc]

theorem exists_gap (t : Text) : ∃ g, IsGap g ∧ t = g ++ skip t :=
  ⟨t.takeWhile isSeparator, fun _ => List.mem_takeWhile_imp,
    List.takeWhile_append_dropWhile.symm⟩

theorem continues_of_isSeparator (hc : isSeparator c) : continues c = false := by
  simp only [isSeparator, Bool.or_eq_true, decide_eq_true_eq] at hc
  rcases hc with ((rfl | rfl) | rfl) | rfl <;> decide

theorem stops_gap (hg : IsGap g) (h : Stops continues t) : Stops continues (g ++ t) := by
  cases g with
  | nil => exact h
  | cons c g => exact stops_cons.2 (continues_of_isSeparator (hg c List.mem_cons_self))

/-! ## First characters -/

/-- The characters that a value without parts can begin with. -/
def beginsScalar (c : Char) : Bool := c.isDigit || "-ntfNI".toList.contains c

/-- The characters that a value can begin with. -/
def begins (c : Char) : Bool := beginsScalar c || c = '"' || opens c

theorem SpellsScalar.exists_cons (h : SpellsScalar u v) :
    ∃ c t, u = c :: t ∧ beginsScalar c := by
  cases h with
  | number h =>
    obtain ⟨negative, d, t, rfl, hd⟩ := h.exists_digit
    cases negative with
    | true => exact ⟨'-', d :: t, rfl, by decide⟩
    | false => exact ⟨d, t, rfl, by rw [beginsScalar, hd, Bool.true_or]⟩
  | _ => exact ⟨_, _, rfl, by decide⟩

theorem Spells.exists_cons (h : Spells room u v) : ∃ c t, u = c :: t ∧ begins c := by
  cases h with
  | scalar h =>
    obtain ⟨c, t, rfl, hc⟩ := h.exists_cons
    exact ⟨c, t, rfl, by rw [begins, hc, Bool.true_or, Bool.true_or]⟩
  | _ => exact ⟨_, _, rfl, by decide⟩

theorem SpellsElements.exists_cons (h : SpellsElements room u vs) :
    ∃ c t, u = c :: t ∧ begins c := by
  cases h with
  | last h | more h =>
    obtain ⟨c, t, rfl, hc⟩ := h.exists_cons
    exact ⟨c, _, rfl, hc⟩

theorem SpellsMembers.exists_cons (h : SpellsMembers room u ms) : ∃ t, u = '"' :: t := by
  cases h <;> exact ⟨_, rfl⟩

/-! ## The readers, step by step -/

theorem ne_of_beginsScalar (hc : beginsScalar c) {d : Char} (hd : beginsScalar d = false) :
    c ≠ d := by
  rintro rfl
  rw [hd] at hc
  cases hc

theorem ne_of_begins (hc : begins c) {d : Char} (hd : begins d = false) : c ≠ d := by
  rintro rfl
  rw [hd] at hc
  cases hc

theorem isSeparator_of_begins (hc : begins c) : isSeparator c = false := by
  rw [isSeparator, decide_eq_false (ne_of_begins hc (by decide)),
    decide_eq_false (ne_of_begins hc (by decide)), decide_eq_false (ne_of_begins hc (by decide)),
    decide_eq_false (ne_of_begins hc (by decide))]
  rfl

theorem value_scalar (hc : beginsScalar c) : value (n + 1) room (c :: t) = scalar (c :: t) := by
  unfold value
  split
  case h_4 => rfl
  all_goals
    next he => exact absurd (List.cons.inj he).1 (ne_of_beginsScalar hc (by decide))

theorem value_string {s : List Point} (h : stringAfter t = .ok (s, rest)) :
    value (n + 1) room ('"' :: t) = .ok (.string s, rest) := by
  rw [value, h]
  rfl

theorem value_noElements (h : skip t = ']' :: rest) :
    value (n + 1) (room + 1) ('[' :: t) = .ok (.array [], rest) := by
  simp only [value, h]

theorem value_array (h : skip t = c :: rest) (hc : begins c) :
    value (n + 1) (room + 1) ('[' :: t) = elements n room [] (c :: rest) := by
  simp only [value, h]
  split
  · next he => cases he
  · next he => exact absurd (List.cons.inj he).1 (ne_of_begins hc (by decide))
  · next hroom _ =>
    cases hroom
    rfl

theorem value_noMembers (h : skip t = '\x7d' :: rest) :
    value (n + 1) (room + 1) ('\x7b' :: t) = .ok (.object [], rest) := by
  simp only [value, h]

theorem value_object (h : skip t = '"' :: rest) :
    value (n + 1) (room + 1) ('\x7b' :: t) = members n room [] ('"' :: rest) := by
  simp only [value, h]
  rfl

theorem elements_last (hv : value n room t = .ok (v, u)) (h : skip u = ']' :: rest) :
    elements (n + 1) room before t = .ok (.array (v :: before).reverse, rest) := by
  simp only [elements, hv, bind, Except.bind, h]
  rfl

theorem elements_more (hv : value n room t = .ok (v, u)) (h : skip u = ',' :: rest) :
    elements (n + 1) room before t = elements n room (v :: before) (skip rest) := by
  simp only [elements, hv, bind, Except.bind, h]

theorem members_last {key : List Point} {u' u'' : Text} (hk : stringAfter t = .ok (key, u))
    (hcolon : skip u = ':' :: u') (hv : value n room (skip u') = .ok (v, u''))
    (h : skip u'' = '\x7d' :: rest) :
    members (n + 1) room had ('"' :: t) = .ok (.object (putMember key v had), rest) := by
  simp only [members, hk, bind, Except.bind, hcolon, hv, h]
  rfl

theorem members_more {key : List Point} {u' u'' : Text} (hk : stringAfter t = .ok (key, u))
    (hcolon : skip u = ':' :: u') (hv : value n room (skip u') = .ok (v, u''))
    (h : skip u'' = ',' :: rest) :
    members (n + 1) room had ('"' :: t) = members n room (putMember key v had) (skip rest) := by
  simp only [members, hk, bind, Except.bind, hcolon, hv, h]

/-! ## What is spelled is read -/

/-- The three readers take every spelling that they have the steps for. -/
structure Takes (n : Nat) : Prop where
  value : ∀ {room u v rest}, Spells room u v → Stops continues rest →
    2 * (u ++ rest).length < n → Json.value n room (u ++ rest) = .ok (v, rest)
  elements : ∀ {room u vs} before rest, SpellsElements room u vs →
    2 * (u ++ ']' :: rest).length + 1 < n →
    Json.elements n room before (u ++ ']' :: rest) = .ok (.array (before.reverse ++ vs), rest)
  members : ∀ {room u ms} had rest, SpellsMembers room u ms →
    2 * (u ++ '\x7d' :: rest).length + 1 < n →
    Json.members n room had (u ++ '\x7d' :: rest) = .ok (.object (putMembers had ms), rest)

theorem takes_value (h : Takes n) (hu : Spells room u v) (hrest : Stops continues rest)
    (hn : 2 * (u ++ rest).length < n + 1) : value (n + 1) room (u ++ rest) = .ok (v, rest) := by
  cases hu with
  | scalar hu =>
    obtain ⟨c, t, rfl, hc⟩ := hu.exists_cons
    rw [List.cons_append, value_scalar hc]
    exact scalar_of_spells hu hrest
  | @string _ t ps hps =>
    have hshape : '"' :: t ++ ['"'] ++ rest = '"' :: (t ++ '"' :: rest) := by simp
    rw [hshape]
    exact value_string (stringAfter_of_spells hps rest)
  | @noElements room g hg =>
    have hshape : '[' :: g ++ [']'] ++ rest = '[' :: (g ++ ']' :: rest) := by simp
    rw [hshape]
    exact value_noElements (skip_gap_cons hg rfl _)
  | @array room g t vs hg ht =>
    obtain ⟨c, t, rfl, hc⟩ := ht.exists_cons
    have hshape : '[' :: g ++ c :: t ++ [']'] ++ rest =
        '[' :: (g ++ c :: (t ++ ']' :: rest)) := by simp
    rw [hshape] at hn ⊢
    rw [value_array (skip_gap_cons hg (isSeparator_of_begins hc) _) hc, ← List.cons_append]
    refine h.elements [] rest ht ?_
    simp only [List.length_append, List.length_cons] at hn ⊢
    omega
  | @noMembers room g hg =>
    have hshape : '\x7b' :: g ++ ['\x7d'] ++ rest = '\x7b' :: (g ++ '\x7d' :: rest) := by simp
    rw [hshape]
    exact value_noMembers (skip_gap_cons hg rfl _)
  | @object room g t ms hg ht =>
    obtain ⟨t, rfl⟩ := ht.exists_cons
    have hshape : '\x7b' :: g ++ '"' :: t ++ ['\x7d'] ++ rest =
        '\x7b' :: (g ++ '"' :: (t ++ '\x7d' :: rest)) := by simp
    rw [hshape] at hn ⊢
    rw [value_object (skip_gap_cons hg rfl _), ← List.cons_append]
    refine h.members [] rest ht ?_
    simp only [List.length_append, List.length_cons] at hn ⊢
    omega

theorem takes_elements (h : Takes n) (before : List Json) (rest : Text)
    (hu : SpellsElements room u vs) (hn : 2 * (u ++ ']' :: rest).length + 1 < n + 1) :
    elements (n + 1) room before (u ++ ']' :: rest) =
      .ok (.array (before.reverse ++ vs), rest) := by
  cases hu with
  | @last _ t g v ht hg =>
    rw [List.append_assoc] at hn ⊢
    have hv : value n room (t ++ (g ++ ']' :: rest)) = .ok (v, g ++ ']' :: rest) :=
      h.value ht (stops_gap hg (stops_cons.2 rfl)) (by omega)
    rw [elements_last hv (skip_gap_cons hg rfl rest), List.reverse_cons]
  | @more _ t w g g' v vs ht hg hg' hw =>
    obtain ⟨c, w, rfl, hc⟩ := hw.exists_cons
    have hshape : t ++ g ++ ',' :: g' ++ c :: w ++ ']' :: rest =
        t ++ (g ++ ',' :: (g' ++ c :: (w ++ ']' :: rest))) := by simp
    rw [hshape] at hn ⊢
    have hv : value n room (t ++ (g ++ ',' :: (g' ++ c :: (w ++ ']' :: rest)))) =
        .ok (v, g ++ ',' :: (g' ++ c :: (w ++ ']' :: rest))) :=
      h.value ht (stops_gap hg (stops_cons.2 rfl)) (by omega)
    rw [elements_more hv (skip_gap_cons hg rfl _),
      skip_gap_cons hg' (isSeparator_of_begins hc), ← List.cons_append,
      h.elements (v :: before) rest hw, List.reverse_cons, List.append_assoc,
      List.singleton_append]
    simp only [List.length_append, List.length_cons] at hn ⊢
    omega

/-- A member up to its value: the key, the colon and the value are read one after the other. -/
theorem takes_member (h : Takes n) {key : Text} {ps : List Point} (hk : SpellsPoints key ps)
    (hg : IsGap g) (hg' : IsGap g') (ht : Spells room t v) (hrest : Stops continues rest)
    (hn : 2 * (keyed key g g' ++ t ++ rest).length < n) :
    ∃ body u u', keyed key g g' ++ t ++ rest = '"' :: body ∧
      stringAfter body = .ok (Point.joinPairs ps, u) ∧ skip u = ':' :: u' ∧
      value n room (skip u') = .ok (v, rest) := by
  obtain ⟨c, t, rfl, hc⟩ := ht.exists_cons
  have hshape : keyed key g g' ++ c :: t ++ rest =
      '"' :: (key ++ '"' :: (g ++ ':' :: (g' ++ c :: (t ++ rest)))) := by simp [keyed]
  rw [hshape] at hn ⊢
  refine ⟨_, _, _, rfl, stringAfter_of_spells hk _, skip_gap_cons hg rfl _, ?_⟩
  rw [skip_gap_cons hg' (isSeparator_of_begins hc), ← List.cons_append]
  refine h.value ht hrest ?_
  simp only [List.length_append, List.length_cons] at hn ⊢
  omega

theorem takes_members (h : Takes n) (had : List (List Point × Json)) (rest : Text)
    (hu : SpellsMembers room u ms) (hn : 2 * (u ++ '\x7d' :: rest).length + 1 < n + 1) :
    members (n + 1) room had (u ++ '\x7d' :: rest) =
      .ok (.object (putMembers had ms), rest) := by
  cases hu with
  | @last _ key g g' t w ps v hk hg hg' ht hw =>
    rw [List.append_assoc] at hn ⊢
    obtain ⟨body, u, u', hbody, hkey, hcolon, hv⟩ :=
      takes_member h hk hg hg' ht (stops_gap hw (stops_cons.2 rfl)) (Nat.lt_of_succ_lt_succ hn)
    rw [hbody, members_last hkey hcolon hv (skip_gap_cons hw rfl rest)]
    rfl
  | @more _ key g g' t u w w' ps v ms hk hg hg' ht hw hw' hu =>
    obtain ⟨u, rfl⟩ := hu.exists_cons
    have hshape : keyed key g g' ++ t ++ w ++ ',' :: w' ++ '"' :: u ++ '\x7d' :: rest =
        keyed key g g' ++ t ++ (w ++ ',' :: (w' ++ '"' :: (u ++ '\x7d' :: rest))) := by simp
    rw [hshape] at hn ⊢
    obtain ⟨body, s, s', hbody, hkey, hcolon, hv⟩ :=
      takes_member h hk hg hg' ht (stops_gap hw (stops_cons.2 rfl)) (Nat.lt_of_succ_lt_succ hn)
    rw [hbody, members_more hkey hcolon hv (skip_gap_cons hw rfl _), skip_gap_cons hw' rfl,
      ← List.cons_append, h.members (putMember (Point.joinPairs ps) v had) rest hu]
    · rfl
    · simp only [List.length_append, List.length_cons] at hn ⊢
      omega

theorem takes (n : Nat) : Takes n := by
  induction n with
  | zero => exact ⟨nofun, nofun, nofun⟩
  | succ n ih =>
    exact ⟨takes_value ih, takes_elements ih, takes_members ih⟩

/-! ## What is read is spelled -/

/-- The three readers take nothing but spellings. -/
structure Spelled (n : Nat) : Prop where
  value : ∀ {room t v rest}, Json.value n room t = .ok (v, rest) →
    ∃ u, t = u ++ rest ∧ Spells room u v
  elements : ∀ {room before t v rest}, Json.elements n room before t = .ok (v, rest) →
    ∃ u vs, t = u ++ ']' :: rest ∧ SpellsElements room u vs ∧ v = .array (before.reverse ++ vs)
  members : ∀ {room had t v rest}, Json.members n room had t = .ok (v, rest) →
    ∃ u ms, t = u ++ '\x7d' :: rest ∧ SpellsMembers room u ms ∧ v = .object (putMembers had ms)

theorem exists_of_bind {α β : Type} {x : Except Stop α} {f : α → Except Stop β} {b : β}
    (h : x >>= f = .ok b) : ∃ a, x = .ok a ∧ f a = .ok b := by
  cases x with
  | error e => cases h
  | ok a => exact ⟨a, rfl, h⟩

theorem exists_gap_of_skip (h : skip t = c :: rest) : ∃ g, IsGap g ∧ t = g ++ c :: rest :=
  h ▸ exists_gap t

theorem spelled_value (hs : Spelled n) (h : value (n + 1) room t = .ok (v, rest)) :
    ∃ u, t = u ++ rest ∧ Spells room u v := by
  unfold value at h
  split at h
  · obtain ⟨⟨s, rest'⟩, hstring, h⟩ := exists_of_bind h
    cases h
    obtain ⟨u, ps, rfl, hps, rfl⟩ := spells_of_stringAfter hstring
    exact ⟨_, by simp, .string hps⟩
  · next t =>
    split at h
    · cases h
    · next hskip =>
      cases h
      obtain ⟨g, hg, rfl⟩ := exists_gap_of_skip hskip
      exact ⟨_, by simp, .noElements hg⟩
    · obtain ⟨g, hg, ht⟩ := exists_gap t
      obtain ⟨u, vs, hu, helements, rfl⟩ := hs.elements h
      exact ⟨_, by rw [ht, hu]; simp, .array hg helements⟩
  · next t =>
    split at h
    · cases h
    · next hskip =>
      cases h
      obtain ⟨g, hg, rfl⟩ := exists_gap_of_skip hskip
      exact ⟨_, by simp, .noMembers hg⟩
    · obtain ⟨g, hg, ht⟩ := exists_gap t
      obtain ⟨u, ms, hu, hmembers, rfl⟩ := hs.members h
      exact ⟨_, by rw [ht, hu]; simp, .object hg hmembers⟩
  · obtain ⟨u, ht, hu⟩ := spells_of_scalar h
    exact ⟨u, ht, .scalar hu⟩

theorem spelled_elements (hs : Spelled n) (h : elements (n + 1) room before t = .ok (v, rest)) :
    ∃ u vs, t = u ++ ']' :: rest ∧ SpellsElements room u vs ∧
      v = .array (before.reverse ++ vs) := by
  unfold elements at h
  obtain ⟨⟨x, t'⟩, hx, hend⟩ := exists_of_bind h
  obtain ⟨u, ht, hu⟩ := hs.value hx
  simp only at hend
  split at hend
  · next hskip =>
    cases hend
    obtain ⟨g, hg, ht'⟩ := exists_gap_of_skip hskip
    refine ⟨_, [x], ?_, .last hu hg, by simp⟩
    simp [ht, ht']
  · next after hskip =>
    obtain ⟨g, hg, ht'⟩ := exists_gap_of_skip hskip
    obtain ⟨g', hg', hafter⟩ := exists_gap after
    obtain ⟨w, vs, hw, helements, rfl⟩ := hs.elements hend
    refine ⟨_, x :: vs, ?_, .more hu hg hg' helements, by simp⟩
    rw [ht, ht', hafter, hw]
    simp
  · cases hend

theorem spelled_members (hs : Spelled n) {had : List (List Point × Json)}
    (h : members (n + 1) room had t = .ok (v, rest)) :
    ∃ u ms, t = u ++ '\x7d' :: rest ∧ SpellsMembers room u ms ∧
      v = .object (putMembers had ms) := by
  unfold members at h
  split at h
  · obtain ⟨⟨key, t'⟩, hkey, hcolon⟩ := exists_of_bind h
    obtain ⟨k, ps, ht, hps, rfl⟩ := spells_of_stringAfter hkey
    simp only at hcolon
    split at hcolon
    · next body hskip =>
      obtain ⟨g, hg, ht'⟩ := exists_gap_of_skip hskip
      obtain ⟨g', hg', hbody⟩ := exists_gap body
      obtain ⟨⟨x, t''⟩, hx, hend⟩ := exists_of_bind hcolon
      obtain ⟨u, hu, hspells⟩ := hs.value hx
      simp only at hend
      split at hend
      · next hskip =>
        cases hend
        obtain ⟨w, hw, ht''⟩ := exists_gap_of_skip hskip
        refine ⟨_, [(Point.joinPairs ps, x)], ?_, .last hps hg hg' hspells hw, rfl⟩
        rw [ht, ht', hbody, hu, ht'']
        simp [keyed]
      · next after hskip =>
        obtain ⟨w, hw, ht''⟩ := exists_gap_of_skip hskip
        obtain ⟨w', hw', hafter⟩ := exists_gap after
        obtain ⟨r, ms, hr, hmembers, rfl⟩ := hs.members hend
        refine ⟨_, (Point.joinPairs ps, x) :: ms, ?_, .more hps hg hg' hspells hw hw' hmembers, rfl⟩
        rw [ht, ht', hbody, hu, ht'', hafter, hr]
        simp [keyed]
      · cases hend
    · cases hcolon
  · cases h

theorem spelled (n : Nat) : Spelled n := by
  induction n with
  | zero => exact ⟨nofun, nofun, nofun⟩
  | succ n ih => exact ⟨spelled_value ih, spelled_elements ih, spelled_members ih⟩

/-! ## Documents -/

theorem skip_of_isGap (hg : IsGap g) : skip g = [] := List.dropWhile_eq_nil_iff.2 hg

theorem stops_of_isGap (hg : IsGap g) : Stops continues g := by
  rw [← List.append_nil g]
  exact stops_gap hg nofun

/-- No document begins with a byte order mark. -/
theorem head_ne_mark (hg : IsGap g) (hc : begins c) (t : Text) :
    (g ++ c :: t).head? ≠ some '\ufeff' := by
  cases g with
  | nil => exact fun he => ne_of_begins hc (by decide) (Option.some.inj he)
  | cons s g =>
    intro he
    have hs := hg s List.mem_cons_self
    rw [Option.some.inj he] at hs
    cases hs

theorem isDocument_of_read (h : read t = .ok v) : IsDocument t v := by
  unfold read at h
  split at h
  · cases h
  · split at h
    · cases h
    · next x after hvalue =>
      split at h
      · next hskip =>
        cases h
        obtain ⟨g, hg, ht⟩ := exists_gap t
        obtain ⟨u, hu, hspells⟩ := (spelled _).value hvalue
        obtain ⟨g', hg', hafter⟩ := exists_gap after
        refine ⟨g, u, g', ?_, hg, hg', hspells⟩
        rw [hskip, List.append_nil] at hafter
        rw [ht, hu, hafter, List.append_assoc]
      · cases h

theorem read_of_isDocument (h : IsDocument t v) : read t = .ok v := by
  obtain ⟨g, u, g', rfl, hg, hg', hspells⟩ := h
  obtain ⟨c, u, rfl, hc⟩ := hspells.exists_cons
  have hskip : skip (g ++ c :: u ++ g') = c :: u ++ g' := by
    rw [List.append_assoc]
    exact skip_gap_cons hg (isSeparator_of_begins hc) _
  have hlength := (skip_suffix (g ++ c :: u ++ g')).length_le
  rw [hskip] at hlength
  have hvalue := (takes (2 * (g ++ c :: u ++ g').length + 2)).value hspells (stops_of_isGap hg')
    (by omega)
  unfold read
  rw [if_neg (List.append_assoc g _ _ ▸ head_ne_mark hg hc _), hskip, hvalue]
  exact if_pos (skip_of_isGap hg')

/-- **The reader takes the documents of the grammar, each as the value that it spells.** -/
theorem read_eq_ok_iff : read t = .ok v ↔ IsDocument t v :=
  ⟨isDocument_of_read, read_of_isDocument⟩

/-- A document spells one value. -/
theorem IsDocument.unique {v' : Json} (h : IsDocument t v) (h' : IsDocument t v') : v = v' := by
  have hread := read_of_isDocument h
  rw [read_of_isDocument h'] at hread
  exact (Except.ok.inj hread).symm

end Json

end XPathAssembly
