import Mathlib.Data.List.Basic
import Mathlib.Tactic.SplitIfs
import XPathAssembly.Proofs.Escape.CodePoint
import XPathAssembly.Proofs.Escape.Hexadecimal
import XPathAssembly.Proofs.Text.Quoted

/-!
# Texts that tell where they end

What a prefix code writes for a value can be read whatever comes after it.  Quoted literals are such
a code: of each character it can be told how it was spelled, and no spelling begins with the mark
that ends the literal.

    readChar (spell printable m n ++ t) = some (n, t)                          (readChar_spell)
    IsPrefixCode Quoted.text                                              (isPrefixCode_text)
    IsPrefixCode Quoted.bytes                                            (isPrefixCode_bytes)
-/

namespace XPathAssembly

/-- What is written tells the value and where it ends. -/
def IsPrefixCode {α : Type} (f : α → Text) : Prop :=
  ∀ ⦃a b : α⦄ ⦃s t : Text⦄, f a ++ s = f b ++ t → a = b ∧ s = t

/-- What is written for this value tells it among all values, and where it ends. -/
def Tells {α : Type} (f : α → Text) (a : α) : Prop :=
  ∀ ⦃b : α⦄ ⦃s t : Text⦄, f a ++ s = f b ++ t → a = b ∧ s = t

/-- What is written for a value that may be missing. -/
def orNone {α : Type} (f : α → Text) : Option α → Text
  | none => "None".toList
  | some a => f a

variable {α : Type} {f : α → Text} {a b : α} {as bs : List α} {c : Char} {gap s t : Text}

theorem intercalate_map_append (f : α → Text) (sep : Text) (a a' : α) (as : List α) (s : Text) :
    sep.intercalate ((a :: a' :: as).map f) ++ s =
      f a ++ (sep ++ (sep.intercalate ((a' :: as).map f) ++ s)) := by
  simp [List.intercalate_cons_cons]

theorem exists_intercalate_append (f : α → Text) (sep : Text) (a : α) (as : List α) (s : Text) :
    ∃ u, sep.intercalate ((a :: as).map f) ++ s = f a ++ u := by
  cases as with
  | nil => exact ⟨s, by rw [List.map_singleton, List.intercalate_singleton]⟩
  | cons a' as => exact ⟨_, intercalate_map_append f sep a a' as s⟩

/-- After an item there is a comma, or what closes the list if it is the last one. -/
theorem intercalate_append_inj (hf : ∀ x ∈ a :: as, Tells f x) (hc : c ≠ ',')
    (h : (',' :: gap).intercalate ((a :: as).map f) ++ c :: s =
      (',' :: gap).intercalate ((b :: bs).map f) ++ c :: t) : a :: as = b :: bs ∧ s = t := by
  induction as generalizing a b bs with
  | nil =>
    have ha := hf a List.mem_cons_self
    rw [List.map_singleton, List.intercalate_singleton] at h
    cases bs with
    | nil =>
      rw [List.map_singleton, List.intercalate_singleton] at h
      obtain ⟨rfl, hrest⟩ := ha h
      exact ⟨rfl, (List.cons.inj hrest).2⟩
    | cons b' bs =>
      rw [intercalate_map_append] at h
      exact absurd (List.cons.inj (ha h).2).1 hc
  | cons a' as ih =>
    have ha := hf a List.mem_cons_self
    rw [intercalate_map_append] at h
    cases bs with
    | nil =>
      rw [List.map_singleton, List.intercalate_singleton] at h
      exact absurd (List.cons.inj (ha h).2).1.symm hc
    | cons b' bs =>
      rw [intercalate_map_append] at h
      obtain ⟨rfl, hrest⟩ := ha h
      obtain ⟨he, rfl⟩ := ih (fun x hx => hf x (List.mem_cons_of_mem _ hx))
        (List.append_cancel_left hrest)
      exact ⟨congrArg (a :: ·) he, rfl⟩

/-- A list between brackets is told by its items, if none begins like the closing bracket. -/
theorem Tells.enclosed {opening : Char} (hf : ∀ a ∈ as, Tells f a)
    (hne : ∀ a s t, f a ++ s ≠ c :: t) (hc : c ≠ ',') :
    Tells (fun as => opening :: (',' :: gap).intercalate (as.map f) ++ [c]) as := by
  have hitem (a : α) (as : List α) (s t : Text) :
      (',' :: gap).intercalate ((a :: as).map f) ++ s ≠ c :: t := by
    intro h
    obtain ⟨u, hu⟩ := exists_intercalate_append f (',' :: gap) a as s
    exact hne a u t (hu.symm.trans h)
  intro bs s t h
  simp only [List.cons_append, List.append_assoc, List.nil_append, List.cons.injEq, true_and] at h
  cases as with
  | nil =>
    cases bs with
    | nil => exact ⟨rfl, (List.cons.inj h).2⟩
    | cons b bs => exact absurd h.symm (hitem b bs _ _)
  | cons a as =>
    cases bs with
    | nil => exact absurd h (hitem a as _ _)
    | cons b bs => exact intercalate_append_inj hf hc h

/-- Whether a value is there is told by the first character. -/
theorem Tells.orNone {o : Option α} (hf : ∀ a ∈ o, Tells f a)
    (hn : ∀ a s t, f a ++ s ≠ 'N' :: t) : Tells (orNone f) o := by
  intro o' s t h
  cases o with
  | none =>
    cases o' with
    | none => exact ⟨rfl, List.append_cancel_left h⟩
    | some b => exact absurd h.symm (hn b _ _)
  | some a =>
    cases o' with
    | none => exact absurd h (hn a _ _)
    | some b =>
      obtain ⟨rfl, hrest⟩ := hf a rfl h
      exact ⟨rfl, hrest⟩

namespace IsPrefixCode

theorem tells (hf : IsPrefixCode f) (a : α) : Tells f a := fun _ _ _ h => hf h

theorem orNone (hf : IsPrefixCode f) (hn : ∀ a s t, f a ++ s ≠ 'N' :: t) :
    IsPrefixCode (XPathAssembly.orNone f) :=
  fun _ _ _ _ h => Tells.orNone (fun a _ => hf.tells a) hn h

/-- A text is told by a character after it that it does not have. -/
theorem delimited (hf : Function.Injective f) (hc : ∀ a, c ∉ f a) :
    IsPrefixCode fun a => f a ++ [c] := by
  intro a b s t h
  have hread : ∀ (x : α) (u : Text), (f x ++ [c] ++ u).takeWhile (· != c) = f x := by
    intro x u
    have hall : ∀ d ∈ f x, (d != c) = true := by
      intro d hd
      rw [bne_iff_ne]
      rintro rfl
      exact hc x hd
    rw [List.append_assoc, List.takeWhile_append_of_pos hall]
    simp
  have hab : f a = f b := by rw [← hread a s, h, hread]
  obtain rfl := hf hab
  exact ⟨rfl, List.append_cancel_left h⟩

theorem injective (hf : IsPrefixCode f) {a b : α} (h : f a = f b) : a = b :=
  (hf (congrArg (· ++ []) h)).1

theorem after (hf : IsPrefixCode f) (s : Text) : IsPrefixCode fun a => s ++ f a := by
  intro a b t u h
  rw [List.append_assoc, List.append_assoc] at h
  exact hf (List.append_cancel_left h)

end IsPrefixCode

namespace Quoted

variable {printable : Nat → Bool} {m : Char} {n w : Nat} {s t : Text} {codes codes' : List Nat}

/-! ## Reading one character -/

def readDigits (w : Nat) (t : Text) : Option (Nat × Text) :=
  (CodePoint.readFrom 0 (t.take w)).map fun n => (n, t.drop w)

/-- The first character of a literal, and what comes after it. -/
def readChar : Text → Option (Nat × Text)
  | '\\' :: 't' :: t => some ('\t'.toNat, t)
  | '\\' :: 'n' :: t => some ('\n'.toNat, t)
  | '\\' :: 'r' :: t => some ('\r'.toNat, t)
  | '\\' :: 'x' :: t => readDigits 2 t
  | '\\' :: 'u' :: t => readDigits 4 t
  | '\\' :: 'U' :: t => readDigits 8 t
  | '\\' :: c :: t => some (c.toNat, t)
  | c :: t => some (c.toNat, t)
  | [] => none

/-- The number fits in the digits of a code, and one that is printable is that of a character. -/
def IsSpellable (printable : Nat → Bool) (n : Nat) : Prop :=
  n < 16 ^ 8 ∧ (printable n = true → (Char.ofNat n).toNat = n)

theorem readDigits_hexDigits (hw : 0 < w) (hn : n < 16 ^ w) (t : Text) :
    readDigits w (hexDigits w n ++ t) = some (n, t) := by
  have hlength : (hexDigits w n).length = w := (length_hexDigits_eq_iff hw).2 hn
  have hne : hexDigits w n ≠ [] := List.ne_nil_of_length_pos (by rwa [hlength])
  have hread : CodePoint.readFrom 0 (hexDigits w n) = some n :=
    (CodePoint.readFrom_eq_some_iff hne).2 (.of_lt hw hn)
  unfold readDigits
  rw [List.take_left' hlength, List.drop_left' hlength, hread]
  rfl

theorem readChar_of_ne {c : Char} (hc : c ≠ '\\') (t : Text) :
    readChar (c :: t) = some (c.toNat, t) := by
  unfold readChar
  split <;> simp_all

theorem readChar_code (hn : n < 16 ^ 8) (t : Text) : readChar (code n ++ t) = some (n, t) := by
  unfold code
  split_ifs with hbyte hplane
  · exact readDigits_hexDigits (by decide) hbyte t
  · exact readDigits_hexDigits (by decide) hplane t
  · exact readDigits_hexDigits (by decide) hn t

theorem readChar_spell (hm : m = '"' ∨ m = '\'') (hn : IsSpellable printable n) (t : Text) :
    readChar (spell printable m n ++ t) = some (n, t) := by
  unfold spell
  split_ifs with hmark htab hfeed hreturn hprint
  · rcases hmark with rfl | rfl
    · rfl
    · rcases hm with rfl | rfl <;> rfl
  · rw [htab]
    rfl
  · rw [hfeed]
    rfl
  · rw [hreturn]
    rfl
  · have hne : Char.ofNat n ≠ '\\' := fun he =>
      hmark (.inl ((hn.2 hprint).symm.trans (congrArg Char.toNat he)))
    rw [List.singleton_append, readChar_of_ne hne, hn.2 hprint]
  · exact readChar_code hn.1 t

/-- No character is spelled so that it would end the literal. -/
theorem spell_append_ne (hm : m = '"' ∨ m = '\'') (hn : IsSpellable printable n) :
    spell printable m n ++ s ≠ m :: t := by
  have hescape (u : Text) : '\\' :: u ≠ m :: t := by
    rintro he
    rcases hm with rfl | rfl <;> cases he
  unfold spell code
  split_ifs with hmark _ _ _ hprint
  · exact hescape _
  · exact hescape _
  · exact hescape _
  · exact hescape _
  · rintro he
    obtain ⟨hc, -⟩ := List.cons.inj he
    exact hmark (.inr ((hn.2 hprint).symm.trans (congrArg Char.toNat hc)))
  · exact hescape _
  · exact hescape _
  · exact hescape _

/-! ## Reading a literal -/

theorem flatMap_spell_append_inj (hm : m = '"' ∨ m = '\'')
    (hcodes : ∀ n ∈ codes, IsSpellable printable n)
    (hcodes' : ∀ n ∈ codes', IsSpellable printable n)
    (h : codes.flatMap (spell printable m) ++ m :: s =
      codes'.flatMap (spell printable m) ++ m :: t) : codes = codes' ∧ s = t := by
  induction codes generalizing codes' with
  | nil =>
    cases codes' with
    | nil => exact ⟨rfl, (List.cons.inj h).2⟩
    | cons n' codes' =>
      rw [List.flatMap_cons, List.append_assoc] at h
      exact absurd h.symm (spell_append_ne hm (hcodes' n' List.mem_cons_self))
  | cons n codes ih =>
    obtain ⟨hn, hcodes⟩ := List.forall_mem_cons.1 hcodes
    rw [List.flatMap_cons, List.append_assoc] at h
    cases codes' with
    | nil => exact absurd h (spell_append_ne hm hn)
    | cons n' codes' =>
      obtain ⟨hn', hrest'⟩ := List.forall_mem_cons.1 hcodes'
      rw [List.flatMap_cons, List.append_assoc] at h
      have hread := congrArg readChar h
      rw [readChar_spell hm hn, readChar_spell hm hn', Option.some.injEq, Prod.mk.injEq] at hread
      obtain ⟨rfl, hrest⟩ := hread
      obtain ⟨rfl, rfl⟩ := ih hcodes hrest' hrest
      exact ⟨rfl, rfl⟩

/-- The mark that ends a literal is the one that it begins with. -/
theorem literal_append_inj (hcodes : ∀ n ∈ codes, IsSpellable printable n)
    (hcodes' : ∀ n ∈ codes', IsSpellable printable n)
    (h : literal printable codes ++ s = literal printable codes' ++ t) :
    codes = codes' ∧ s = t := by
  unfold literal between at h
  generalize hm : mark ('\''.toNat ∈ codes) ('"'.toNat ∈ codes) = m at h
  generalize mark ('\''.toNat ∈ codes') ('"'.toNat ∈ codes') = m' at h
  have hmark : m = '"' ∨ m = '\'' := hm ▸ mark_eq _ _
  simp only [List.cons_append, List.append_assoc, List.nil_append, List.cons.injEq] at h
  obtain ⟨rfl, h⟩ := h
  exact flatMap_spell_append_inj hmark hcodes hcodes' h

theorem isSpellable_char (printable : Nat → Bool) (c : Char) : IsSpellable printable c.toNat :=
  ⟨c.val.toNat_lt, fun _ => congrArg Char.toNat (Char.ofNat_toNat c)⟩

theorem isSpellable_byte (printable : Nat → Bool) (b : UInt8) : IsSpellable printable b.toNat := by
  have hb : b.toNat < 256 := b.toNat_lt
  obtain ⟨c, hc⟩ := CodePoint.exists_char_toNat (n := b.toNat) (.inl (by omega))
  rw [← hc]
  exact isSpellable_char printable c

theorem isPrefixCode_text : IsPrefixCode text := by
  intro a b s t h
  obtain ⟨hcodes, rfl⟩ := literal_append_inj
    (List.forall_mem_map.2 fun c _ => isSpellable_char _ c)
    (List.forall_mem_map.2 fun c _ => isSpellable_char _ c) h
  exact ⟨(List.map_inj_right fun _ _ => Char.toNat_inj.1).1 hcodes, rfl⟩

theorem isPrefixCode_bytes : IsPrefixCode bytes := by
  intro a b s t h
  obtain ⟨hcodes, rfl⟩ := literal_append_inj
    (List.forall_mem_map.2 fun b _ => isSpellable_byte _ b)
    (List.forall_mem_map.2 fun b _ => isSpellable_byte _ b) (List.cons.inj h).2
  exact ⟨(List.map_inj_right fun _ _ => UInt8.toNat_inj.1).1 hcodes, rfl⟩

end Quoted

end XPathAssembly
