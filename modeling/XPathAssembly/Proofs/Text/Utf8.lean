import XPathAssembly.Proofs.Escape.CodePoint
import XPathAssembly.Text.Utf8

/-!
# Reading back what was encoded

The bytes of a text are read as its characters, and no malformed stretch is found.

    Utf8.decode (utf8 t) = .ok t      (decode_utf8)

After the lead byte of a character the reader knows its highest bits, and each further byte adds six
of them.  The narrow ranges after some lead bytes keep out only what is no character, so the bytes
of one are always in range.
-/

namespace XPathAssembly

namespace Utf8

open CodePoint

variable {n bits : Nat} {low high : UInt8} {owed : Nat}

/-! ## Bytes after the lead -/

/-- A byte in range adds its six bits. -/
theorem step_inside (h1 : low.toNat ≤ 0x80 + n % 64) (h2 : 0x80 + n % 64 ≤ high.toNat) :
    step (.inside bits low high owed) (tagged 0x80 64 n) =
      match owed with
      | 0 => ([.ok (Char.ofNat (bits * 64 + n % 64))], .fresh)
      | owed + 1 => ([], .inside (bits * 64 + n % 64) 0x80 0xbf owed) := by
  have hb : (tagged 0x80 64 n).toNat = 0x80 + n % 64 := toNat_tagged n (by decide) (by decide)
  have hlow : low ≤ tagged 0x80 64 n := by rw [UInt8.le_iff_toNat_le, hb]; exact h1
  have hhigh : tagged 0x80 64 n ≤ high := by rw [UInt8.le_iff_toNat_le, hb]; exact h2
  have hbits : (tagged 0x80 64 n).toNat % 64 = n % 64 := by rw [hb]; omega
  cases owed with
  | zero => simp only [step, hlow, hhigh, and_self, if_true, hbits]
  | succ owed => simp only [step, hlow, hhigh, and_self, if_true, hbits]

theorem piecesFrom_inside_last (h1 : low.toNat ≤ 0x80 + n % 64)
    (h2 : 0x80 + n % 64 ≤ high.toNat) (rest : Bytes) :
    piecesFrom (.inside (n / 64) low high 0) (tagged 0x80 64 n :: rest) =
      .ok (Char.ofNat n) :: piecesFrom .fresh rest := by
  have hn : n / 64 * 64 + n % 64 = n := by omega
  rw [piecesFrom, step_inside h1 h2, hn]
  rfl

theorem piecesFrom_inside_more (h1 : low.toNat ≤ 0x80 + n % 64)
    (h2 : 0x80 + n % 64 ≤ high.toNat) (rest : Bytes) :
    piecesFrom (.inside (n / 64) low high (owed + 1)) (tagged 0x80 64 n :: rest) =
      piecesFrom (.inside n 0x80 0xbf owed) rest := by
  have hn : n / 64 * 64 + n % 64 = n := by omega
  rw [piecesFrom, step_inside h1 h2, hn]
  rfl

/-! ## Lead bytes -/

/-- The classes of lead bytes, by their numbers. -/
theorem lead_eq (b : UInt8) : lead b =
    if b.toNat < 0x80 then ([.ok (Char.ofNat b.toNat)], .fresh)
    else if b.toNat < 0xc2 then ([.error .badStart], .fresh)
    else if b.toNat < 0xe0 then ([], .inside (b.toNat % 32) 0x80 0xbf 0)
    else if b.toNat = 0xe0 then ([], .inside 0 0xa0 0xbf 1)
    else if b.toNat = 0xed then ([], .inside 13 0x80 0x9f 1)
    else if b.toNat < 0xf0 then ([], .inside (b.toNat % 16) 0x80 0xbf 1)
    else if b.toNat = 0xf0 then ([], .inside 0 0x90 0xbf 2)
    else if b.toNat < 0xf4 then ([], .inside (b.toNat % 8) 0x80 0xbf 2)
    else if b.toNat = 0xf4 then ([], .inside 4 0x80 0x8f 2)
    else ([.error .badStart], .fresh) := by
  simp only [lead, UInt8.lt_iff_toNat_lt, ← UInt8.toNat_inj]
  rfl

/-- The lead byte of a character gives its highest bits, and a range for the next byte that the
character is in. -/
theorem lead_two (h1 : 0x7f < n) (h2 : n ≤ 0x7ff) :
    lead (tagged 0xc0 32 (n / 64)) = ([], .inside (n / 64) 0x80 0xbf 0) := by
  have hb : (tagged 0xc0 32 (n / 64)).toNat = 0xc0 + n / 64 % 32 :=
    toNat_tagged _ (by decide) (by decide)
  rw [lead_eq, hb, if_neg (by omega), if_neg (by omega), if_pos (by omega)]
  have hbits : (0xc0 + n / 64 % 32) % 32 = n / 64 := by omega
  rw [hbits]

theorem lead_three (h1 : 0x7ff < n) (h2 : n ≤ 0xffff) (hs : n < 0xd800 ∨ 0xdfff < n) :
    ∃ low high : UInt8, lead (tagged 0xe0 16 (n / 4096)) = ([], .inside (n / 4096) low high 1) ∧
      low.toNat ≤ 0x80 + n / 64 % 64 ∧ 0x80 + n / 64 % 64 ≤ high.toNat := by
  have hb : (tagged 0xe0 16 (n / 4096)).toNat = 0xe0 + n / 4096 % 16 :=
    toNat_tagged _ (by decide) (by decide)
  have hbits : (0xe0 + n / 4096 % 16) % 16 = n / 4096 := by omega
  rw [lead_eq, hb, if_neg (by omega), if_neg (by omega), if_neg (by omega)]
  by_cases he0 : n / 4096 = 0
  · refine ⟨0xa0, 0xbf, by rw [if_pos (by omega), he0], ?_, ?_⟩
    · show 0xa0 ≤ 0x80 + n / 64 % 64
      omega
    · show 0x80 + n / 64 % 64 ≤ 0xbf
      omega
  · by_cases hed : n / 4096 = 13
    · refine ⟨0x80, 0x9f, by rw [if_neg (by omega), if_pos (by omega), hed], ?_, ?_⟩
      · exact Nat.le_add_right _ _
      · show 0x80 + n / 64 % 64 ≤ 0x9f
        omega
    · refine ⟨0x80, 0xbf, ?_, Nat.le_add_right _ _, ?_⟩
      · rw [if_neg (by omega), if_neg (by omega), if_pos (by omega), hbits]
      · show 0x80 + n / 64 % 64 ≤ 0xbf
        omega

theorem lead_four (h1 : 0xffff < n) (h2 : n < 0x110000) :
    ∃ low high : UInt8,
      lead (tagged 0xf0 8 (n / 262144)) = ([], .inside (n / 262144) low high 2) ∧
        low.toNat ≤ 0x80 + n / 4096 % 64 ∧ 0x80 + n / 4096 % 64 ≤ high.toNat := by
  have hb : (tagged 0xf0 8 (n / 262144)).toNat = 0xf0 + n / 262144 % 8 :=
    toNat_tagged _ (by decide) (by decide)
  have hbits : (0xf0 + n / 262144 % 8) % 8 = n / 262144 := by omega
  rw [lead_eq, hb, if_neg (by omega), if_neg (by omega), if_neg (by omega), if_neg (by omega),
    if_neg (by omega), if_neg (by omega)]
  by_cases hf0 : n / 262144 = 0
  · refine ⟨0x90, 0xbf, by rw [if_pos (by omega), hf0], ?_, ?_⟩
    · show 0x90 ≤ 0x80 + n / 4096 % 64
      omega
    · show 0x80 + n / 4096 % 64 ≤ 0xbf
      omega
  · by_cases hf4 : n / 262144 = 4
    · refine ⟨0x80, 0x8f, ?_, Nat.le_add_right _ _, ?_⟩
      · rw [if_neg (by omega), if_neg (by omega), if_pos (by omega), hf4]
      · show 0x80 + n / 4096 % 64 ≤ 0x8f
        omega
    · refine ⟨0x80, 0xbf, ?_, Nat.le_add_right _ _, ?_⟩
      · rw [if_neg (by omega), if_pos (by omega), hbits]
      · show 0x80 + n / 4096 % 64 ≤ 0xbf
        omega

/-! ## Characters and texts -/

theorem piecesFrom_fresh (b : UInt8) (rest : Bytes) :
    piecesFrom .fresh (b :: rest) = (lead b).1 ++ piecesFrom (lead b).2 rest := rfl

/-- A character is read from its bytes, whatever follows them. -/
theorem piecesFrom_encode (c : Char) (rest : Bytes) :
    piecesFrom .fresh (encode c.toNat ++ rest) = .ok c :: piecesFrom .fresh rest := by
  have hc : c.toNat < 0xd800 ∨ (0xdfff < c.toNat ∧ c.toNat < 0x110000) := c.valid
  have hchar : Char.ofNat c.toNat = c := Char.ofNat_toNat c
  generalize c.toNat = n at hc hchar
  subst hchar
  have hsix : ∀ m, 0x80 + m % 64 ≤ (0xbf : UInt8).toNat := fun m => by
    show 0x80 + m % 64 ≤ 0xbf
    omega
  have hthird : n / 4096 = n / 64 / 64 := by omega
  have hfourth : n / 262144 = n / 4096 / 64 := by omega
  unfold encode
  split_ifs with h1 h2 h3
  · have hb : (UInt8.ofNat n).toNat = n := Nat.mod_eq_of_lt (by omega)
    rw [List.singleton_append, piecesFrom_fresh, lead_eq, hb, if_pos (by omega)]
    rfl
  · rw [List.cons_append, piecesFrom_fresh, lead_two (by omega) h2]
    exact piecesFrom_inside_last (Nat.le_add_right _ _) (hsix n) rest
  · obtain ⟨low, high, hlead, hlow, hhigh⟩ := lead_three (by omega) h3 (by omega)
    rw [List.cons_append, piecesFrom_fresh, hlead, hthird]
    show piecesFrom _ (tagged 0x80 64 (n / 64) :: ([tagged 0x80 64 n] ++ rest)) = _
    rw [piecesFrom_inside_more hlow hhigh]
    exact piecesFrom_inside_last (Nat.le_add_right _ _) (hsix n) rest
  · obtain ⟨low, high, hlead, hlow, hhigh⟩ := lead_four (n := n) (by omega) (by omega)
    rw [List.cons_append, piecesFrom_fresh, hlead, hfourth]
    show piecesFrom _ (tagged 0x80 64 (n / 4096) ::
      ([tagged 0x80 64 (n / 64), tagged 0x80 64 n] ++ rest)) = _
    rw [piecesFrom_inside_more hlow hhigh, hthird]
    show piecesFrom _ (tagged 0x80 64 (n / 64) :: ([tagged 0x80 64 n] ++ rest)) = _
    rw [piecesFrom_inside_more (Nat.le_add_right _ _) (hsix _)]
    exact piecesFrom_inside_last (Nat.le_add_right _ _) (hsix n) rest

theorem pieces_utf8 (t : Text) : pieces (utf8 t) = t.map .ok := by
  unfold pieces
  induction t with
  | nil => rfl
  | cons c t ih => rw [utf8_cons, ← encode_toNat, piecesFrom_encode, ih, List.map_cons]

theorem collect_ok (offset : Nat) (t : Text) : collect offset (t.map .ok) = .ok t := by
  induction t generalizing offset with
  | nil => rfl
  | cons c t ih =>
    rw [List.map_cons, collect, ih]

/-- What was encoded is read back. -/
theorem decode_utf8 (t : Text) : decode (utf8 t) = .ok t := by
  unfold decode
  rw [pieces_utf8, collect_ok]

theorem decodeLossy_utf8 (t : Text) : decodeLossy (utf8 t) = t := by
  unfold decodeLossy
  rw [pieces_utf8, List.map_map]
  exact List.map_id t

end Utf8

end XPathAssembly
