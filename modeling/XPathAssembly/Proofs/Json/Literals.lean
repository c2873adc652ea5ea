import XPathAssembly.Proofs.Json.Limits

/-!
# Strings and numbers as they are spelled

Each point of a string stands for itself, behind a backslash, or as the code of a UTF-16 unit; two
codes that make a pair are one character.  A number has digits, and may have a sign, a fraction and
an exponent.  The readers take these spellings and no others.

    SpellsPoints u ps → stringAfter (u ++ '"' :: rest) = .ok (Point.joinPairs ps, rest)
                                                                    (stringAfter_of_spells)
    SpellsScalar u v → Stops continues rest → scalar (u ++ rest) = .ok (v, rest)
                                                                    (scalar_of_spells)
    scalar t = .ok (v, rest) → ∃ u, t = u ++ rest ∧ SpellsScalar u v       (spells_of_scalar)
-/

namespace XPathAssembly

namespace Json

/-! ## Strings -/

/-- A spelling of one point in a string. -/
inductive SpellsPoint : Text → Point → Prop
  | char {c : Char} (hquote : c ≠ '"') (hslash : c ≠ '\\') (hcode : 0x20 ≤ c.toNat) :
      SpellsPoint [c] (.char c)
  | letter {c d : Char} (h : named? c = some d) : SpellsPoint ['\\', c] (.char d)
  | code {a b c d : Char} {n : Nat} (h : code? a b c d = some n) :
      SpellsPoint ['\\', 'u', a, b, c, d] (.ofCodePoint n)

/-- A spelling of the points of a string, one after the other. -/
inductive SpellsPoints : Text → List Point → Prop
  | nil : SpellsPoints [] []
  | cons {s t : Text} {p : Point} {ps : List Point} (hp : SpellsPoint s p) (h : SpellsPoints t ps) :
      SpellsPoints (s ++ t) (p :: ps)

variable {t u rest start whole : Text} {s ps before : List Point} {p : Point} {c : Char} {v : Json}

theorem stringFrom_char (hquote : c ≠ '"') (hslash : c ≠ '\\') (hcode : 0x20 ≤ c.toNat) :
    stringFrom start before (c :: t) = stringFrom start (.char c :: before) t := by
  rw [stringFrom, if_neg (Nat.not_lt.2 hcode)] <;> simp_all

theorem stringFrom_letter {d : Char} (h : named? c = some d) :
    stringFrom start before ('\\' :: c :: t) = stringFrom start (.char d :: before) t := by
  have hu : c ≠ 'u' := by
    rintro rfl
    cases h
  rw [stringFrom] <;> simp_all

theorem stringFrom_code {a b c d : Char} {n : Nat} (h : code? a b c d = some n) (ht : t ≠ []) :
    stringFrom start before ('\\' :: 'u' :: a :: b :: c :: d :: t) =
      stringFrom start (.ofCodePoint n :: before) t := by
  obtain ⟨e, t, rfl⟩ := List.exists_cons_of_ne_nil ht
  rw [stringFrom, h]

/-- The reader takes any spelling of the points up to the mark that ends the string. -/
theorem stringFrom_of_spells (h : SpellsPoints u ps) (start : Text) (before : List Point)
    (rest : Text) : stringFrom start before (u ++ '"' :: rest) =
      .ok (Point.joinPairs (before.reverse ++ ps), rest) := by
  induction h generalizing before with
  | nil => rw [List.nil_append, stringFrom, List.append_nil]
  | @cons s t p ps hp h ih =>
    have hstep : stringFrom start before (s ++ (t ++ '"' :: rest)) =
        stringFrom start (p :: before) (t ++ '"' :: rest) := by
      cases hp with
      | char hquote hslash hcode => exact stringFrom_char hquote hslash hcode
      | letter h => exact stringFrom_letter h
      | code h => exact stringFrom_code h (by simp)
    rw [List.append_assoc, hstep, ih, List.reverse_cons, List.append_assoc, List.singleton_append]

/-- What the reader takes for a string are spellings of its points. -/
theorem spells_of_stringFrom (h : stringFrom start before t = .ok (s, rest)) :
    ∃ u ps, t = u ++ '"' :: rest ∧ SpellsPoints u ps ∧
      s = Point.joinPairs (before.reverse ++ ps) := by
  fun_induction stringFrom start before t with
  | case2 =>
    cases h
    exact ⟨[], [], rfl, .nil, by rw [List.append_nil]⟩
  | case4 before a b c d e t n hcode ih =>
    obtain ⟨u, ps, ht, hps, rfl⟩ := ih h
    refine ⟨_, _, ?_, .cons (.code hcode) hps, by simp⟩
    simp [ht]
  | case7 before c t hu hnil d hnamed ih =>
    obtain ⟨u, ps, ht, hps, rfl⟩ := ih h
    refine ⟨_, _, ?_, .cons (.letter hnamed) hps, by simp⟩
    simp [ht]
  | case10 before c t hquote hlast _ _ hletter hcode ih =>
    obtain ⟨u, ps, ht, hps, rfl⟩ := ih h
    have hslash : c ≠ '\\' := by
      rintro rfl
      cases t with
      | nil => exact hlast rfl rfl
      | cons d t => exact hletter d t rfl rfl
    refine ⟨_, _, ?_, .cons (.char hquote hslash (Nat.not_lt.1 hcode)) hps, by simp⟩
    simp [ht]
  | case1 | case3 | case5 | case6 | case8 | case9 => cases h

theorem stringAfter_of_spells (h : SpellsPoints u ps) (rest : Text) :
    stringAfter (u ++ '"' :: rest) = .ok (Point.joinPairs ps, rest) :=
  stringFrom_of_spells h _ [] rest

theorem spells_of_stringAfter (h : stringAfter t = .ok (s, rest)) :
    ∃ u ps, t = u ++ '"' :: rest ∧ SpellsPoints u ps ∧ s = Point.joinPairs ps :=
  spells_of_stringFrom h

/-! ## Numbers -/

/-- The digits before the point. -/
inductive IsWhole : Text → Prop
  | zero : IsWhole ['0']
  | digits {d : Char} {ds : Text} (h0 : d ≠ '0') (hd : ∀ c ∈ d :: ds, c.isDigit) :
      IsWhole (d :: ds)

inductive SpellsFraction : Text → Option Text → Prop
  | none : SpellsFraction [] none
  | some {ds : Text} (hne : ds ≠ []) (hd : ∀ c ∈ ds, c.isDigit) :
      SpellsFraction ('.' :: ds) (some ds)

inductive SpellsSign : Text → Bool → Prop
  | none : SpellsSign [] false
  | plus : SpellsSign ['+'] false
  | minus : SpellsSign ['-'] true

inductive SpellsExponent : Text → Option Int → Prop
  | none : SpellsExponent [] none
  | some {e : Char} {sign ds : Text} {negative : Bool} (he : e = 'e' ∨ e = 'E')
      (hs : SpellsSign sign negative) (hne : ds ≠ []) (hd : ∀ c ∈ ds, c.isDigit) :
      SpellsExponent (e :: (sign ++ ds))
        (some (if negative then -Binary.natOf ds else Binary.natOf ds))

/-- The sign of a number. -/
def minus (negative : Bool) : Text := if negative then ['-'] else []

/-- A spelling of a number: an integer of no more digits than the limit, or a number with fraction
or exponent. -/
inductive SpellsNumber : Text → Json → Prop
  | integer (negative : Bool) {whole : Text} (hw : IsWhole whole)
      (hlimit : whole.length ≤ digitLimit) :
      SpellsNumber (minus negative ++ whole)
        (.integer (if negative then -Binary.natOf whole else Binary.natOf whole))
  | float (negative : Bool) {whole f x : Text} {fraction : Option Text} {exponent : Option Int}
      (hw : IsWhole whole) (hf : SpellsFraction f fraction) (hx : SpellsExponent x exponent)
      (hpart : fraction.isSome ∨ exponent.isSome) :
      SpellsNumber (minus negative ++ whole ++ f ++ x)
        (.float (.ofDigits negative whole (fraction.getD []) (exponent.getD 0)))

/-- A text does not go on with a character of the class. -/
def Stops (p : Char → Bool) (rest : Text) : Prop := ∀ c ∈ rest.head?, p c = false

/-- The characters that go on with a number. -/
def continues (c : Char) : Bool := c.isDigit || c = '.' || c = 'e' || c = 'E'

theorem stops_cons {p : Char → Bool} : Stops p (c :: t) ↔ p c = false := by
  simp [Stops]

theorem Stops.mono {p q : Char → Bool} (h : Stops p rest) (hpq : ∀ c, p c = false → q c = false) :
    Stops q rest := fun c hc => hpq c (h c hc)

theorem digitsOf_append {ds : Text} (hd : ∀ c ∈ ds, c.isDigit) (hrest : Stops Char.isDigit rest) :
    Binary.digitsOf (ds ++ rest) = (ds, rest) := by
  have hnone : rest.takeWhile Char.isDigit = [] ∧ rest.dropWhile Char.isDigit = rest := by
    cases rest with
    | nil => exact ⟨rfl, rfl⟩
    | cons c rest => simp [stops_cons.1 hrest]
  unfold Binary.digitsOf
  rw [List.span_eq_takeWhile_dropWhile, List.takeWhile_append_of_pos hd,
    List.dropWhile_append_of_pos hd, hnone.1, hnone.2, List.append_nil]

theorem wholeOf_append (hw : IsWhole whole) (hrest : Stops Char.isDigit rest) :
    wholeOf (whole ++ rest) = (whole, rest) := by
  cases hw with
  | zero => rfl
  | @digits d ds h0 hd =>
    have hall := digitsOf_append hd hrest
    rw [List.cons_append] at hall ⊢
    rw [wholeOf, hall]
    exact fun _ he => absurd (List.cons.inj he).1 h0

theorem fractionOf_append {f : Text} {fraction : Option Text} (hf : SpellsFraction f fraction)
    (hdigit : Stops Char.isDigit rest) (hpoint : Stops (· = '.') rest) :
    fractionOf (f ++ rest) = (fraction, rest) := by
  cases hf with
  | none =>
    cases rest with
    | nil => rfl
    | cons c rest =>
      have hc := of_decide_eq_false (stops_cons.1 hpoint)
      rw [List.nil_append, fractionOf]
      exact fun _ he => absurd (List.cons.inj he).1 hc
  | @some ds hne hd =>
    have hall := digitsOf_append hd hdigit
    rw [List.cons_append, fractionOf, hall]
    simp

theorem signOf_append {sign ds : Text} {negative : Bool} (hs : SpellsSign sign negative)
    (hne : ds ≠ []) (hd : ∀ c ∈ ds, c.isDigit) (rest : Text) :
    Binary.signOf (sign ++ ds ++ rest) = (negative, ds ++ rest) := by
  cases hs with
  | none =>
    obtain ⟨d, ds, rfl⟩ := List.exists_cons_of_ne_nil hne
    exact Binary.signOf_of_isDigit (hd d List.mem_cons_self) _
  | plus => rfl
  | minus => rfl

theorem exponentOf_append {x : Text} {exponent : Option Int} (hx : SpellsExponent x exponent)
    (hrest : Stops continues rest) : exponentOf (x ++ rest) = (exponent, rest) := by
  have hdigit : Stops Char.isDigit rest := hrest.mono fun c hc => by simp_all [continues]
  cases hx with
  | none =>
    cases rest with
    | nil => rfl
    | cons c rest =>
      have hc : ¬ (c = 'e' ∨ c = 'E') := by
        have hnone := stops_cons.1 hrest
        rintro (rfl | rfl) <;> cases hnone
      simp only [List.nil_append, exponentOf, if_neg hc]
      split <;> rfl
  | @some e sign ds negative he hs hne hd =>
    simp only [List.cons_append, exponentOf, signOf_append hs hne hd, digitsOf_append hd hdigit,
      if_pos he]

theorem Stops.fraction {f : Text} {fraction : Option Text} (hf : SpellsFraction f fraction)
    (h : Stops Char.isDigit rest) : Stops Char.isDigit (f ++ rest) := by
  cases hf with
  | none => exact h
  | some => exact stops_cons.2 rfl

theorem Stops.exponent {p : Char → Bool} {x : Text} {exponent : Option Int}
    (hx : SpellsExponent x exponent) (hp : p 'e' = false ∧ p 'E' = false) (h : Stops p rest) :
    Stops p (x ++ rest) := by
  cases hx with
  | none => exact h
  | some he =>
    rcases he with rfl | rfl
    · exact stops_cons.2 hp.1
    · exact stops_cons.2 hp.2

theorem IsWhole.exists_cons (hw : IsWhole whole) : ∃ d ds, whole = d :: ds ∧ d.isDigit := by
  cases hw with
  | zero => exact ⟨'0', [], rfl, rfl⟩
  | @digits d ds h0 hd => exact ⟨d, ds, rfl, hd d List.mem_cons_self⟩

/-- A number is read part after part. -/
theorem number_append (negative : Bool) {fraction : Option Text} {exponent : Option Int}
    (hw : IsWhole whole) (hwhole : wholeOf (whole ++ u) = (whole, u))
    (hf : fractionOf u = (fraction, t)) (hx : exponentOf t = (exponent, rest)) :
    number (minus negative ++ (whole ++ u)) =
      if fraction.isNone && exponent.isNone then
        if digitLimit < whole.length then .error (.excess (.digits whole.length))
        else .ok (.integer (if negative then -Binary.natOf whole else Binary.natOf whole), rest)
      else
        .ok (.float (.ofDigits negative whole (fraction.getD []) (exponent.getD 0)), rest) := by
  obtain ⟨d, ds, rfl, hd⟩ := hw.exists_cons
  unfold number
  split
  next sign body hsign =>
  have hbody : sign = negative ∧ body = d :: ds ++ u := by
    cases negative with
    | true =>
      cases hsign
      exact ⟨rfl, rfl⟩
    | false =>
      split at hsign
      · next he => exact absurd (List.cons.inj he).1 (ne_of_isDigit hd rfl)
      · cases hsign
        exact ⟨rfl, rfl⟩
  obtain ⟨rfl, rfl⟩ := hbody
  simp only [hwhole, hf, hx]

/-- A number is read up to where its text stops. -/
theorem number_of_spells (h : SpellsNumber u v) (hrest : Stops continues rest) :
    number (u ++ rest) = .ok (v, rest) := by
  have hdigit : Stops Char.isDigit rest := hrest.mono fun c hc => by simp_all [continues]
  have hpoint : Stops (· = '.') rest := hrest.mono fun c hc => by simp_all [continues]
  cases h with
  | @integer negative whole hw hlimit =>
    have hparts := number_append negative hw (wholeOf_append hw hdigit)
      (fractionOf_append .none hdigit hpoint) (exponentOf_append .none hrest)
    rw [List.append_assoc, hparts]
    exact if_neg (Nat.not_lt.2 hlimit)
  | @float negative whole f x fraction exponent hw hf hx hpart =>
    have hparts := number_append negative hw
      (wholeOf_append hw ((hdigit.exponent hx ⟨rfl, rfl⟩).fraction hf))
      (fractionOf_append hf (hdigit.exponent hx ⟨rfl, rfl⟩) (hpoint.exponent hx ⟨rfl, rfl⟩))
      (exponentOf_append hx hrest)
    rw [List.append_assoc, List.append_assoc, List.append_assoc, hparts, if_neg]
    cases fraction <;> cases exponent <;> simp_all

/-! ## What the readers take -/

theorem spells_of_fractionOf (t : Text) :
    ∃ f, t = f ++ (fractionOf t).2 ∧ SpellsFraction f (fractionOf t).1 := by
  unfold fractionOf
  split
  · next t =>
    obtain ⟨hsplit, hd⟩ := digitsOf_spec t
    split
    · exact ⟨[], rfl, .none⟩
    · next ds rest hne hdigits =>
      rw [hdigits] at hsplit hd
      exact ⟨_, by rw [← hsplit]; rfl, .some hne hd⟩
  · exact ⟨[], rfl, .none⟩

theorem spells_of_signOf (t : Text) :
    ∃ sign, t = sign ++ (Binary.signOf t).2 ∧ SpellsSign sign (Binary.signOf t).1 := by
  unfold Binary.signOf
  split
  · exact ⟨_, rfl, .minus⟩
  · exact ⟨_, rfl, .plus⟩
  · exact ⟨_, rfl, .none⟩

theorem spells_of_exponentOf (t : Text) :
    ∃ x, t = x ++ (exponentOf t).2 ∧ SpellsExponent x (exponentOf t).1 := by
  unfold exponentOf
  split
  · exact ⟨[], rfl, .none⟩
  · next e t =>
    obtain ⟨sign, ht, hs⟩ := spells_of_signOf t
    obtain ⟨hsplit, hd⟩ := digitsOf_spec (Binary.signOf t).2
    simp only
    split
    · exact ⟨[], rfl, .none⟩
    · next ds rest hne hdigits =>
      rw [hdigits] at hsplit hd
      split
      · next he =>
        exact ⟨_, by rw [ht, ← hsplit]; simp, .some he hs hne hd⟩
      · exact ⟨[], rfl, .none⟩

theorem isWhole_of_wholeOf (h : wholeOf t = (whole, rest)) (hne : whole ≠ []) : IsWhole whole := by
  have hd := (wholeOf_spec h).2
  unfold wholeOf at h
  split at h
  · cases h
    exact .zero
  · next hzero =>
    obtain ⟨d, ds, rfl⟩ := List.exists_cons_of_ne_nil hne
    refine .digits ?_ hd
    rintro rfl
    have hsplit := (digitsOf_spec t).1
    rw [h] at hsplit
    exact hzero _ hsplit.symm

theorem spells_of_number (h : number t = .ok (v, rest)) :
    ∃ u, t = u ++ rest ∧ SpellsNumber u v := by
  unfold number at h
  split at h
  next negative body hsign =>
  have hbody : t = minus negative ++ body := by
    split at hsign <;> cases hsign <;> rfl
  split at h
  · cases h
  · next whole t' hne hwhole =>
    have hw := isWhole_of_wholeOf hwhole hne
    obtain ⟨f, hf, hfraction⟩ := spells_of_fractionOf t'
    obtain ⟨x, hx, hexponent⟩ := spells_of_exponentOf (fractionOf t').2
    simp only at h
    rw [hbody, ← (wholeOf_spec hwhole).1, hf, hx]
    generalize (exponentOf (fractionOf t').2).1 = exponent,
      (exponentOf (fractionOf t').2).2 = after, (fractionOf t').1 = fraction at *
    by_cases hnone : (fraction.isNone && exponent.isNone) = true
    · rw [if_pos hnone] at h
      by_cases hlimit : digitLimit < whole.length
      · rw [if_pos hlimit] at h
        cases h
      · rw [if_neg hlimit] at h
        obtain ⟨rfl, rfl⟩ := Prod.mk.inj (Except.ok.inj h)
        obtain ⟨rfl, rfl⟩ : fraction = none ∧ exponent = none := by simpa using hnone
        cases hfraction
        cases hexponent
        refine ⟨_, ?_, .integer negative hw (Nat.not_lt.1 hlimit)⟩
        rw [List.append_assoc, List.nil_append, List.nil_append]
    · rw [if_neg hnone] at h
      obtain ⟨rfl, rfl⟩ := Prod.mk.inj (Except.ok.inj h)
      have hpart : fraction.isSome ∨ exponent.isSome := by
        cases fraction with
        | some => exact .inl rfl
        | none =>
          cases exponent with
          | some => exact .inr rfl
          | none => exact absurd rfl hnone
      refine ⟨_, ?_, .float negative hw hfraction hexponent hpart⟩
      rw [List.append_assoc, List.append_assoc, List.append_assoc]

/-! ## Values without parts -/

inductive SpellsScalar : Text → Json → Prop
  | null : SpellsScalar "null".toList .null
  | true : SpellsScalar "true".toList (.bool true)
  | false : SpellsScalar "false".toList (.bool false)
  | nan : SpellsScalar "NaN".toList (.float .nan)
  | infinity : SpellsScalar "Infinity".toList (.float (.infinite false))
  | minusInfinity : SpellsScalar "-Infinity".toList (.float (.infinite true))
  | number {t : Text} {v : Json} (h : SpellsNumber t v) : SpellsScalar t v

theorem spells_of_scalar (h : scalar t = .ok (v, rest)) :
    ∃ u, t = u ++ rest ∧ SpellsScalar u v := by
  unfold scalar at h
  split at h
  case h_7 =>
    obtain ⟨u, ht, hu⟩ := spells_of_number h
    exact ⟨u, ht, .number hu⟩
  all_goals cases h
  · exact ⟨_, rfl, .null⟩
  · exact ⟨_, rfl, .true⟩
  · exact ⟨_, rfl, .false⟩
  · exact ⟨_, rfl, .nan⟩
  · exact ⟨_, rfl, .infinity⟩
  · exact ⟨_, rfl, .minusInfinity⟩

/-- A number begins with a digit, or with a sign and a digit. -/
theorem SpellsNumber.exists_digit (h : SpellsNumber u v) :
    ∃ negative d t, u = minus negative ++ d :: t ∧ d.isDigit := by
  cases h with
  | @integer negative whole hw =>
    obtain ⟨d, ds, rfl, hd⟩ := hw.exists_cons
    exact ⟨negative, d, ds, rfl, hd⟩
  | @float negative whole f x fraction exponent hw =>
    obtain ⟨d, ds, rfl, hd⟩ := hw.exists_cons
    exact ⟨negative, d, ds ++ f ++ x, by simp, hd⟩

theorem scalar_of_digit {d : Char} (negative : Bool) (hd : d.isDigit) (t : Text) :
    scalar (minus negative ++ d :: t) = number (minus negative ++ d :: t) := by
  cases negative with
  | false => exact scalar_of_isDigit hd
  | true =>
    show scalar ('-' :: d :: t) = number ('-' :: d :: t)
    unfold scalar
    split
    case h_6 =>
      next he => exact absurd (List.cons.inj (List.cons.inj he).2).1 (ne_of_isDigit hd rfl)
    case h_7 => rfl
    all_goals
      next he => exact absurd (List.cons.inj he).1 (by decide)

theorem scalar_of_spells (h : SpellsScalar u v) (hrest : Stops continues rest) :
    scalar (u ++ rest) = .ok (v, rest) := by
  cases h with
  | number h =>
    obtain ⟨negative, d, t, rfl, hd⟩ := h.exists_digit
    have hnumber := number_of_spells h hrest
    rw [List.append_assoc, List.cons_append] at hnumber ⊢
    rw [scalar_of_digit negative hd, hnumber]
  | _ => rfl

end Json

end XPathAssembly
