import XPathAssembly.Chain
import XPathAssembly.Proofs.Listing.Faithful
import XPathAssembly.Report.Issue

/-!
# What a description tells

Segments, cursors and issues are described by the expressions that build them.  Each of these tells
what it describes, and where it ends, so that descriptions can stand in one another: the texts in
them are quoted, what is not quoted is followed by a character that it does not have, and of what
may be missing the first character tells whether it is there.

    IsPrefixCode Segment.describe                              (Segment.isPrefixCode_describe)
    IsPrefixCode Cursor.describe                                (Cursor.isPrefixCode_describe)
    IsPrefixCode Issue.shown                                         (Issue.isPrefixCode_shown)
-/

namespace XPathAssembly

/-! ## Segments -/

namespace Kind

theorem constant_injective : Function.Injective constant := by
  have hread : ∀ k : Kind, k.constant.map Char.toLower = k.name := by
    intro k
    cases k <;> decide
  intro k k' h
  apply name_injective
  rw [← hread k, h, hread]

end Kind

namespace Marks

theorem constant_injective : Function.Injective constant := by
  rintro ⟨single, double, both⟩ ⟨single', double', both'⟩ h
  revert single double both single' double' both'
  decide

end Marks

namespace Segment

theorem isPrefixCode_describe : IsPrefixCode describe := by
  have hkind : IsPrefixCode fun k : Kind => k.constant ++ [','] :=
    .delimited Kind.constant_injective (by intro k; cases k <;> decide)
  have hmarks : IsPrefixCode fun m : Marks => m.constant ++ [')'] :=
    .delimited Marks.constant_injective (by
      rintro ⟨single, double, both⟩
      revert single double both
      decide)
  have hdescribe : ∀ (g : Segment) (s : Text), g.describe ++ s =
      "Segment(text=".toList ++ (Quoted.bytes g.text ++ (", kind=TokenKind.".toList ++
        (g.kind.constant ++ [','] ++ (" quote_flags=QuoteFlags.".toList ++
          (g.marks.constant ++ [')'] ++ s))))) := by
    intro g s
    have hflags : ", quote_flags=QuoteFlags.".toList = [','] ++ " quote_flags=QuoteFlags.".toList :=
      rfl
    have hclosing : ")".toList = [')'] := rfl
    unfold describe
    rw [hflags, hclosing]
    simp only [List.append_assoc]
  intro g g' s t h
  rw [hdescribe, hdescribe] at h
  obtain ⟨htext, h⟩ := Quoted.isPrefixCode_bytes (List.append_cancel_left h)
  obtain ⟨hk, h⟩ := hkind (List.append_cancel_left h)
  obtain ⟨hm, hrest⟩ := hmarks (List.append_cancel_left h)
  obtain ⟨text, kind, marks⟩ := g
  obtain ⟨text', kind', marks'⟩ := g'
  cases htext
  cases hk
  cases hm
  exact ⟨rfl, hrest⟩

end Segment

/-! ## Cursors -/

theorem mem_decimal {n : Int} {c : Char} (h : c ∈ decimal n) : c.isDigit = true ∨ c = '-' := by
  cases n with
  | ofNat n => exact Or.inl (Nat.isDigit_of_mem_toDigits (by decide) (by decide) h)
  | negSucc n =>
    rcases List.mem_cons.mp h with rfl | h
    · exact Or.inr rfl
    · exact Or.inl (Nat.isDigit_of_mem_toDigits (by decide) (by decide) h)

theorem decimal_injective : Function.Injective decimal := by
  have hdigits : ∀ m n : Nat, Nat.toDigits 10 m = Nat.toDigits 10 n → m = n := by
    intro m n h
    have hread := congrArg (Nat.ofDigitChars 10 · 0) h
    exact (Nat.ofDigitChars_ten_toDigits.symm.trans hread).trans Nat.ofDigitChars_ten_toDigits
  have hsign : ∀ (n : Nat) (t : Text), Nat.toDigits 10 n ≠ '-' :: t := by
    intro n t h
    have hmem : '-' ∈ Nat.toDigits 10 n := by
      rw [h]
      exact List.mem_cons_self
    have hdigit := Nat.isDigit_of_mem_toDigits (by decide) (by decide) hmem
    cases hdigit
  intro m n h
  cases m with
  | ofNat m =>
    cases n with
    | ofNat n => exact congrArg Int.ofNat (hdigits m n h)
    | negSucc n => exact absurd h (hsign m _)
  | negSucc m =>
    cases n with
    | ofNat n => exact absurd h.symm (hsign n _)
    | negSucc n => exact congrArg Int.negSucc (Nat.succ_injective (hdigits _ _ (List.cons.inj h).2))

namespace Cursor

theorem not_mem_shownHandle {c : Char} (hc : c = ',' ∨ c = ')') (h : Option Handle) :
    c ∉ shownHandle h := by
  intro hmem
  cases h with
  | none => rcases hc with rfl | rfl <;> revert hmem <;> decide
  | some h => rcases hc with rfl | rfl <;> rcases mem_decimal hmem with hd | hd <;> cases hd

theorem shownHandle_injective : Function.Injective shownHandle := by
  have hne : ∀ h : Handle, decimal h ≠ "None".toList := by
    intro h heq
    have hmem : 'N' ∈ decimal h := by
      rw [heq]
      decide
    rcases mem_decimal hmem with hd | hd <;> cases hd
  intro h h' heq
  cases h with
  | none =>
    cases h' with
    | none => rfl
    | some h' => exact absurd heq.symm (hne h')
  | some h =>
    cases h' with
    | none => exact absurd heq (hne h)
    | some h' => exact congrArg some (decimal_injective heq)

theorem isPrefixCode_shownHandle {c : Char} (hc : c = ',' ∨ c = ')') :
    IsPrefixCode fun h => shownHandle h ++ [c] :=
  .delimited shownHandle_injective (not_mem_shownHandle hc)

theorem isPrefixCode_describe : IsPrefixCode describe := by
  have hdescribe : ∀ (e : Cursor) (s : Text), e.describe ++ s =
      "TailCursor(head=".toList ++ (shownHandle (e.ends.map Ends.first) ++ [','] ++
        (" tail=".toList ++ (shownHandle (e.ends.map Ends.last) ++ [')'] ++ s))) := by
    intro e s
    have htail : ", tail=".toList = [','] ++ " tail=".toList := rfl
    unfold describe
    rw [htail]
    simp only [List.append_assoc]
  intro e e' s t h
  rw [hdescribe, hdescribe] at h
  obtain ⟨hfirst, h⟩ := isPrefixCode_shownHandle (Or.inl rfl) (List.append_cancel_left h)
  obtain ⟨hlast, hrest⟩ := isPrefixCode_shownHandle (Or.inr rfl) (List.append_cancel_left h)
  refine ⟨?_, hrest⟩
  obtain ⟨ends⟩ := e
  obtain ⟨ends'⟩ := e'
  cases ends with
  | none =>
    cases ends' with
    | none => rfl
    | some e' => cases hfirst
  | some e =>
    cases ends' with
    | none => cases hfirst
    | some e' =>
      obtain ⟨first, last⟩ := e
      obtain ⟨first', last'⟩ := e'
      cases hfirst
      cases hlast
      rfl

end Cursor

/-! ## Issues -/

namespace Quoted

/-- A quoted text begins with a quotation mark. -/
theorem text_append_ne {c : Char} (hsingle : c ≠ '\'') (hdouble : c ≠ '"') (t s u : Text) :
    text t ++ s ≠ c :: u := by
  unfold text literal between
  intro h
  have hhead := (List.cons.inj h).1
  rcases mark_eq ('\''.toNat ∈ t.map Char.toNat) ('"'.toNat ∈ t.map Char.toNat) with hm | hm
  · exact hdouble (hhead.symm.trans hm)
  · exact hsingle (hhead.symm.trans hm)

end Quoted

namespace Issue

theorem isPrefixCode_shownLocation : IsPrefixCode shownLocation := by
  have heq : shownLocation = orNone Quoted.text := by
    funext l
    cases l <;> rfl
  rw [heq]
  exact .orNone Quoted.isPrefixCode_text
    (fun t s u => Quoted.text_append_ne (by decide) (by decide) t s u)

theorem shownAll_eq (is : List Issue) : shownAll is = is.map shown := by
  induction is with
  | nil => rfl
  | cons i is ih => rw [shownAll, List.map_cons, ih]

/-- The issues beneath another one, between brackets. -/
def shownCauses (causes : List Issue) : Text :=
  '[' :: [',', ' '].intercalate (causes.map shown) ++ [']']

/-- The text of an issue is that of its fields. -/
theorem shown_append (location : Option Text) (message : Text) (causes : Option (List Issue))
    (s : Text) : shown ⟨location, message, causes⟩ ++ s =
      "Error(location=".toList ++ (shownLocation location ++ (", message=".toList ++
        (Quoted.text message ++ (", underlying=".toList ++
          (orNone shownCauses causes ++ ([')'] ++ s)))))) := by
  have hnone : orNone shownCauses none = "None".toList := rfl
  have hsome (causes : List Issue) : orNone shownCauses (some causes) =
      '[' :: [',', ' '].intercalate (shownAll causes) ++ [']'] := by
    rw [shownAll_eq]
    rfl
  cases causes with
  | none =>
    unfold shown
    rw [hnone]
    simp only [List.append_assoc]
  | some causes =>
    unfold shown
    rw [hsome]
    simp only [List.append_assoc]

theorem shownCauses_tells {causes : List Issue} (h : ∀ i ∈ causes, Tells shown i) :
    Tells shownCauses causes := by
  refine .enclosed h (fun i s t heq => ?_) (by decide)
  obtain ⟨location, message, causes⟩ := i
  have hopening : "Error(location=".toList = ['E'] ++ "rror(location=".toList := rfl
  rw [shown_append, hopening, List.append_assoc, List.singleton_append] at heq
  exact absurd (List.cons.inj heq).1 (by decide)

mutual

theorem shown_tells (i : Issue) : Tells shown i := by
  match i with
  | ⟨location, message, causes⟩ =>
    rintro ⟨location', message', causes'⟩ s t h
    rw [shown_append, shown_append] at h
    obtain ⟨hlocation, h⟩ := isPrefixCode_shownLocation (List.append_cancel_left h)
    obtain ⟨hmessage, h⟩ := Quoted.isPrefixCode_text (List.append_cancel_left h)
    have hrest := List.append_cancel_left h
    have hcauses : Tells (orNone shownCauses) causes := by
      refine .orNone ?_ ?_
      · match causes with
        | none => simp
        | some causes => simpa using shownCauses_tells (shown_tells_of_mem causes)
      · intro causes s t heq
        cases heq
    obtain ⟨hsame, hend⟩ := hcauses hrest
    cases hlocation
    cases hmessage
    cases hsame
    exact ⟨rfl, List.append_cancel_left hend⟩

theorem shown_tells_of_mem (is : List Issue) : ∀ i ∈ is, Tells shown i := by
  match is with
  | [] => simp
  | i :: rest => exact List.forall_mem_cons.2 ⟨shown_tells i, shown_tells_of_mem rest⟩

end

/-- **The description of an issue tells the issue**, with all issues that lie beneath it. -/
theorem isPrefixCode_shown : IsPrefixCode shown := fun i _ _ _ h => shown_tells i h

end Issue

end XPathAssembly
