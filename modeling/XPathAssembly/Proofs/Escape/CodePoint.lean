import Mathlib.Data.List.Forall2
import Mathlib.Tactic.SplitIfs
import XPathAssembly.Escape

/-!
# Sequences of code points

The lead byte of a sequence tells its length, so that a sequence is never the beginning of another
one and what follows it is read apart.  Two values have the same sequence if they are equal, or if
the bits that the lead byte of the longest class loses are all that tells them apart.

    encode n ++ x = encode m ++ y ↔ Alike n m ∧ x = y                      (encode_append_inj)
    ns.flatMap encode = ms.flatMap encode ↔ Forall₂ Alike ns ms        (flatMap_encode_eq_iff)
    IsUtf8 (ns.flatMap encode) ↔ ∀ n ∈ ns, EncodesScalar n       (isUtf8_flatMap_encode_iff)
-/

namespace XPathAssembly

/-- Well-formed UTF-8: the encoding of some text. -/
def IsUtf8 (bs : Bytes) : Prop := ∃ t : Text, bs = utf8 t

theorem mapM_of_ok {ε α β : Type} {f : α → Except ε β} {g : α → β} {as : List α}
    (h : ∀ a ∈ as, f a = .ok (g a)) : as.mapM f = .ok (as.map g) := by
  induction as with
  | nil => rfl
  | cons a as ih =>
    obtain ⟨ha, has⟩ := List.forall_mem_cons.1 h
    rw [List.mapM_cons, ha, ih has]
    rfl

namespace CodePoint

/-! ## The length of a sequence -/

theorem toNat_tagged {tag size : Nat} (n : Nat) (hsize : 0 < size) (hfit : tag + size ≤ 256) :
    (tagged tag size n).toNat = tag + n % size := by
  have := Nat.mod_lt n hsize
  show (tag + n % size) % 256 = tag + n % size
  exact Nat.mod_eq_of_lt (by omega)

/-- The number of bytes of a sequence. -/
def size (n : Nat) : Nat :=
  if n ≤ 0x7f then 1 else if n ≤ 0x7ff then 2 else if n ≤ 0xffff then 3 else 4

/-- The number of bytes that a lead byte announces. -/
def announced (b : UInt8) : Nat :=
  if b.toNat < 0x80 then 1 else if b.toNat < 0xe0 then 2 else if b.toNat < 0xf0 then 3 else 4

theorem length_encode (n : Nat) : (encode n).length = size n := by
  unfold encode size
  split_ifs <;> rfl

/-- Each sequence begins with a byte that announces its length. -/
theorem exists_lead (n : Nat) : ∃ b rest, encode n = b :: rest ∧ announced b = size n := by
  unfold encode size
  split_ifs with h1 h2 h3
  · refine ⟨_, _, rfl, ?_⟩
    have e : (UInt8.ofNat n).toNat = n := Nat.mod_eq_of_lt (by omega)
    unfold announced
    rw [e, if_pos (by omega)]
  · refine ⟨_, _, rfl, ?_⟩
    unfold announced
    rw [toNat_tagged _ (by decide) (by decide), if_neg (by omega), if_pos (by omega)]
  · refine ⟨_, _, rfl, ?_⟩
    unfold announced
    rw [toNat_tagged _ (by decide) (by decide), if_neg (by omega), if_neg (by omega),
      if_pos (by omega)]
  · refine ⟨_, _, rfl, ?_⟩
    unfold announced
    rw [toNat_tagged _ (by decide) (by decide), if_neg (by omega), if_neg (by omega),
      if_neg (by omega)]

theorem encode_ne_nil (n : Nat) : encode n ≠ [] := by
  obtain ⟨b, rest, h, -⟩ := exists_lead n
  rw [h]
  exact List.cons_ne_nil b rest

theorem size_eq_of_encode_append {n m : Nat} {x y : Bytes}
    (h : encode n ++ x = encode m ++ y) : size n = size m := by
  obtain ⟨b, bs, hn, hb⟩ := exists_lead n
  obtain ⟨c, cs, hm, hc⟩ := exists_lead m
  rw [hn, hm, List.cons_append, List.cons_append, List.cons.injEq] at h
  rw [← hb, ← hc, h.1]

/-! ## The value of a sequence -/

/-- The bits that a sequence carries, read as a number. -/
def carried : Bytes → Nat
  | [a] => a.toNat
  | [a, b] => a.toNat % 32 * 64 + b.toNat % 64
  | [a, b, c] => a.toNat % 16 * 4096 + b.toNat % 64 * 64 + c.toNat % 64
  | [a, b, c, d] =>
    a.toNat % 8 * 262144 + b.toNat % 64 * 4096 + c.toNat % 64 * 64 + d.toNat % 64
  | _ => 0

theorem carried_encode (n : Nat) :
    carried (encode n) = if n ≤ 0xffff then n else n % 0x200000 := by
  unfold encode
  by_cases h1 : n ≤ 0x7f
  · rw [if_pos h1, if_pos (by omega)]
    show n % 256 = n
    omega
  · by_cases h2 : n ≤ 0x7ff
    · rw [if_neg h1, if_pos h2, if_pos (by omega)]
      simp (disch := decide) only [carried, toNat_tagged]
      omega
    · by_cases h3 : n ≤ 0xffff
      · rw [if_neg h1, if_neg h2, if_pos h3, if_pos h3]
        simp (disch := decide) only [carried, toNat_tagged]
        omega
      · rw [if_neg h1, if_neg h2, if_neg h3, if_neg h3]
        simp (disch := decide) only [carried, toNat_tagged]
        omega

/-- The values that share one sequence. -/
def Alike (n m : Nat) : Prop :=
  n = m ∨ (0xffff < n ∧ 0xffff < m ∧ n % 0x200000 = m % 0x200000)

theorem encode_eq_iff {n m : Nat} : encode n = encode m ↔ Alike n m := by
  constructor
  · intro h
    have hsize : size n = size m := size_eq_of_encode_append (congrArg (· ++ []) h)
    have hvalue := congrArg carried h
    rw [carried_encode, carried_encode] at hvalue
    unfold size at hsize
    unfold Alike
    split_ifs at hsize hvalue <;> omega
  · rintro (rfl | ⟨hn, hm, h⟩)
    · rfl
    · have lead : n / 262144 % 8 = m / 262144 % 8 := by omega
      have second : n / 4096 % 64 = m / 4096 % 64 := by omega
      have third : n / 64 % 64 = m / 64 % 64 := by omega
      have last : n % 64 = m % 64 := by omega
      unfold encode tagged
      simp only [if_neg (show ¬ n ≤ 0x7f by omega), if_neg (show ¬ n ≤ 0x7ff by omega),
        if_neg (show ¬ n ≤ 0xffff by omega), if_neg (show ¬ m ≤ 0x7f by omega),
        if_neg (show ¬ m ≤ 0x7ff by omega), if_neg (show ¬ m ≤ 0xffff by omega),
        lead, second, third, last]

/-- No sequence is repaired by what follows it. -/
theorem encode_append_inj {n m : Nat} {x y : Bytes} :
    encode n ++ x = encode m ++ y ↔ Alike n m ∧ x = y := by
  constructor
  · intro h
    have hlength : (encode n).length = (encode m).length := by
      rw [length_encode, length_encode]
      exact size_eq_of_encode_append h
    obtain ⟨hn, hx⟩ := List.append_inj h hlength
    exact ⟨encode_eq_iff.1 hn, hx⟩
  · rintro ⟨h, rfl⟩
    rw [encode_eq_iff.2 h]

/-! ## Sequences in a row -/

section
variable {ns ms : List Nat}

/-- Sequences in a row tell how many there are, and the value of each up to those alike to it. -/
theorem flatMap_encode_eq_iff :
    ns.flatMap encode = ms.flatMap encode ↔ List.Forall₂ Alike ns ms := by
  induction ns generalizing ms with
  | nil =>
    cases ms with
    | nil => exact ⟨fun _ => .nil, fun _ => rfl⟩
    | cons m ms =>
      refine ⟨fun h => ?_, nofun⟩
      exact absurd (List.append_eq_nil_iff.1 h.symm).1 (encode_ne_nil m)
  | cons n ns ih =>
    cases ms with
    | nil =>
      refine ⟨fun h => ?_, nofun⟩
      exact absurd (List.append_eq_nil_iff.1 h).1 (encode_ne_nil n)
    | cons m ms =>
      rw [List.flatMap_cons, List.flatMap_cons, encode_append_inj, ih, List.forall₂_cons]

/-- No value that six hexadecimal digits can have is refused. -/
theorem encode?_eq {n : Nat} (hn : n < limit) : encode? n = .ok (encode n) := by
  unfold encode?
  rw [if_pos ⟨Int.natCast_nonneg n, by exact_mod_cast hn⟩, Int.toNat_natCast]

/-- **Sequences are read apart.**  The values of two lists are all encoded, and the sequences of the
one list, put in a row, are those of the other exactly if the lists are of one length and have
values alike at each place. -/
theorem sequences_eq_iff (hn : ∀ n ∈ ns, n < limit) (hm : ∀ m ∈ ms, m < limit) :
    ∃ as bs, ns.mapM (fun n : Nat => encode? n) = .ok as ∧
      ms.mapM (fun m : Nat => encode? m) = .ok bs ∧
      (as.flatten = bs.flatten ↔ List.Forall₂ Alike ns ms) := by
  have hencoded {ns : List Nat} (hn : ∀ n ∈ ns, n < limit) :
      ns.mapM (fun n : Nat => encode? n) = .ok (ns.map encode) :=
    mapM_of_ok fun n hmem => encode?_eq (hn n hmem)
  refine ⟨_, _, hencoded hn, hencoded hm, ?_⟩
  rw [← List.flatMap_def, ← List.flatMap_def]
  exact flatMap_encode_eq_iff

/-- A surrogate, a character, and a value beyond the last code point that stands for another one. -/
theorem sequences_surrogate :
    ∃ as bs, [0xd800, 0x41, 0x410000].mapM (fun n : Nat => encode? n) = .ok as ∧
      [0xd800, 0x41, 0x210000].mapM (fun m : Nat => encode? m) = .ok bs ∧
      as.flatten = bs.flatten := by
  obtain ⟨as, bs, has, hbs, h⟩ := @sequences_eq_iff [0xd800, 0x41, 0x410000]
    [0xd800, 0x41, 0x210000] (by decide) (by decide)
  refine ⟨as, bs, has, hbs, h.2 ?_⟩
  exact .cons (.inl rfl) (.cons (.inl rfl) (.cons (.inr ⟨by decide, by decide, rfl⟩) .nil))

end

/-! ## Scalar values -/

/-- The sequence of a scalar value is its UTF-8 encoding. -/
theorem encode_toNat (c : Char) : encode c.toNat = String.utf8EncodeChar c := by
  show encode c.val.toNat = _
  unfold encode String.utf8EncodeChar tagged
  simp only [Nat.add_comm]

/-- The values whose sequences are those of scalar values; beyond the three bytes only the bits
that the sequence keeps count. -/
def EncodesScalar (n : Nat) : Prop :=
  (n ≤ 0xffff ∧ ¬ (0xd800 ≤ n ∧ n ≤ 0xdfff)) ∨
    (0xffff < n ∧ 0x10000 ≤ n % 0x200000 ∧ n % 0x200000 ≤ 0x10ffff)

instance : DecidablePred EncodesScalar := fun _ => inferInstanceAs (Decidable (_ ∨ _))

theorem exists_char_toNat {n : Nat} (h : n.isValidChar) : ∃ c : Char, c.toNat = n :=
  ⟨Char.ofNatAux n h, rfl⟩

theorem exists_alike_char_iff {n : Nat} : (∃ c : Char, Alike n c.toNat) ↔ EncodesScalar n := by
  unfold EncodesScalar
  constructor
  · rintro ⟨c, h⟩
    have hc : c.toNat < 0xd800 ∨ (0xdfff < c.toNat ∧ c.toNat < 0x110000) := c.valid
    rcases h with rfl | ⟨hn, hm, h⟩ <;> omega
  · rintro (⟨hn, hsurrogate⟩ | ⟨hn, hlow, hhigh⟩)
    · obtain ⟨c, rfl⟩ := exists_char_toNat (n := n) (by unfold Nat.isValidChar; omega)
      exact ⟨c, Or.inl rfl⟩
    · obtain ⟨c, hc⟩ := exists_char_toNat (n := n % 0x200000) (by unfold Nat.isValidChar; omega)
      exact ⟨c, Or.inr ⟨hn, by omega, by omega⟩⟩

/-- Sequences one after the other are well-formed together if each of them is. -/
theorem isUtf8_flatMap_encode_iff {ns : List Nat} :
    IsUtf8 (ns.flatMap encode) ↔ ∀ n ∈ ns, EncodesScalar n := by
  induction ns with
  | nil => simp only [List.not_mem_nil, false_implies, implies_true, iff_true]; exact ⟨[], rfl⟩
  | cons n ns ih =>
    rw [List.forall_mem_cons, ← ih, ← exists_alike_char_iff, List.flatMap_cons]
    constructor
    · rintro ⟨t, h⟩
      cases t with
      | nil => exact absurd (List.append_eq_nil_iff.1 h).1 (encode_ne_nil n)
      | cons c t =>
        rw [utf8_cons, ← encode_toNat] at h
        obtain ⟨hc, ht⟩ := encode_append_inj.1 h
        exact ⟨⟨c, hc⟩, t, ht⟩
    · rintro ⟨⟨c, hc⟩, t, ht⟩
      refine ⟨c :: t, ?_⟩
      rw [utf8_cons, ← encode_toNat]
      exact encode_append_inj.2 ⟨hc, ht⟩

end CodePoint

end XPathAssembly
