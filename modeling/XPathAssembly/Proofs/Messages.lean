import XPathAssembly.Proofs.Description
import XPathAssembly.Proofs.Json.Shown
import XPathAssembly.CommandLine.Program
import XPathAssembly.Upkeep.Agreement

/-!
# Messages

A message about what stopped a command is one line, whatever text it shows, and it tells what it is
about: no two faults have one message, and that of a failed command tells the words of the command
and how it ended.

    halt.message? = some t → OneLine t                               (Halt.oneLine_message?)
    f.message? = some t → g.message? = some t → f = g                (Fault.eq_of_message?)
    Function.Injective Obstacle.message                              (Obstacle.message_injective)
-/

namespace XPathAssembly

/-! ## Faults -/

namespace Fault

variable {f g : Fault} {t : Text}

/-- The faults that have a message. -/
def spoken : List Fault :=
  [cycle .next, cycle .sibling, linked, extended, unquoted, full, unallocated, outside, tooLarge]

theorem mem_spoken_of_message? (h : f.message? = some t) : f ∈ spoken := by
  cases f with
  | cycle d => cases d <;> decide
  | linked | extended | unquoted | full | unallocated | outside | tooLarge => decide
  | _ => cases h

theorem oneLine_message? (h : f.message? = some t) : OneLine t := by
  have hall : ∀ f ∈ spoken, ∀ t ∈ f.message?, OneLine t := by decide +kernel
  exact hall f (mem_spoken_of_message? h) t h

/-- The message tells the fault. -/
theorem eq_of_message? (hf : f.message? = some t) (hg : g.message? = some t) : f = g := by
  have hnodup : (spoken.map message?).Nodup := by decide +kernel
  exact List.inj_on_of_nodup_map hnodup (mem_spoken_of_message? hf) (mem_spoken_of_message? hg)
    (hf.trans hg.symm)

end Fault

/-! ## Halts -/

namespace Json.Excess

theorem oneLine_message (e : Excess) : OneLine e.message := by
  cases e with
  | digits count =>
    exact ((by decide : OneLine _).append (.decimal count)).append (by decide)
  | array | object => decide

theorem message_injective : Function.Injective message := by
  have hdigits (n : Nat) : (digits n).message.head? = some 'E' := rfl
  have hparts : array.message ≠ object.message ∧ array.message.head? = some 'm' ∧
      object.message.head? = some 'm' := by decide
  have hne (n : Nat) {e : Excess} (he : e.message.head? = some 'm') :
      (digits n).message ≠ e.message := by
    intro h
    have hhead := congrArg List.head? h
    rw [hdigits, he] at hhead
    cases hhead
  intro e e' h
  match e, e' with
  | digits n, digits n' =>
    have hcount : decimal n = decimal n' := List.append_cancel_left (List.append_cancel_right h)
    exact congrArg digits (Int.ofNat.inj (decimal_injective hcount))
  | digits n, array => exact absurd h (hne n hparts.2.1)
  | digits n, object => exact absurd h (hne n hparts.2.2)
  | array, digits n => exact absurd h.symm (hne n hparts.2.1)
  | object, digits n => exact absurd h.symm (hne n hparts.2.2)
  | array, array | object, object => rfl
  | array, object => exact absurd h hparts.1
  | object, array => exact absurd h.symm hparts.1

end Json.Excess

namespace Program.Halt

/-- What is said of a command that ends without a response is one line. -/
theorem oneLine_message? {halt : Halt} {t : Text} (h : halt.message? = some t) : OneLine t := by
  cases halt with
  | fault f => exact Fault.oneLine_message? h
  | excess e =>
    cases h
    exact e.oneLine_message
  | longPath p =>
    cases h
    exact (by decide : OneLine _).append (.quotedText p.shown)
  | noPath | noMode =>
    cases h
    decide

end Program.Halt

/-! ## Failed commands -/

namespace Upkeep

theorem oneLine_of_signalName? {n : Nat} {name : Text} (h : signalName? n = some name) :
    OneLine name := by
  have hall : ∀ name ∈ signalNames, OneLine name.toList := by decide +kernel
  unfold signalName? at h
  split_ifs at h
  · cases h
    decide
  · cases h
    decide
  · obtain ⟨name, hname, rfl⟩ := Option.map_eq_some_iff.1 h
    exact hall name (List.mem_of_getElem? hname)

theorem oneLine_endedText (code : Int) : OneLine (endedText code) := by
  unfold endedText
  split
  · exact ((by decide : OneLine _).append (.decimal code)).append (by decide)
  · split
    · next name hname =>
      exact ((((by decide : OneLine _).append (oneLine_of_signalName? hname)).append
        (by decide)).append (.decimal _)).append (by decide)
    · exact ((by decide : OneLine _).append (.decimal _)).append (by decide)

theorem Obstacle.oneLine_message (o : Obstacle) : OneLine o.message := by
  cases o with
  | noMetadata => decide
  | command words code =>
    have hwords : OneLine (shownWords words) :=
      Json.oneLine_enclosed rfl rfl (List.forall_mem_map.2 fun w _ => .quotedText w)
    exact (((by decide : OneLine _).append hwords).append (by decide)).append
      (oneLine_endedText code)

/-! ### What the message tells -/

/-- The last digits of a text. -/
def lastDigits (t : Text) : Text :=
  ((t.reverse.dropWhile fun c => !c.isDigit).takeWhile Char.isDigit).reverse

theorem lastDigits_append {a ds b : Text} (ha : ∀ c ∈ a.getLast?, c.isDigit = false)
    (hne : ds ≠ []) (hd : ∀ c ∈ ds, c.isDigit) (hb : ∀ c ∈ b, c.isDigit = false) :
    lastDigits (a ++ ds ++ b) = ds := by
  have hdrop : (a ++ ds ++ b).reverse.dropWhile (fun c => !c.isDigit) =
      ds.reverse ++ a.reverse := by
    rw [List.reverse_append, List.reverse_append, List.dropWhile_append_of_pos]
    · obtain ⟨d, rest, hds⟩ := List.exists_cons_of_ne_nil (List.reverse_ne_nil_iff.2 hne)
      have hdigit : d.isDigit := hd d (List.mem_reverse.1 (hds ▸ List.mem_cons_self))
      rw [hds, List.cons_append]
      exact List.dropWhile_cons_of_neg (by simp [hdigit])
    · intro c hc
      simp [hb c (List.mem_reverse.1 hc)]
  have htake : a.reverse.takeWhile Char.isDigit = [] := by
    rw [← List.head?_reverse] at ha
    cases hlast : a.reverse with
    | nil => rfl
    | cons c rest =>
      rw [hlast] at ha
      exact List.takeWhile_cons_of_neg (by simp [ha c rfl])
  unfold lastDigits
  rw [hdrop, List.takeWhile_append_of_pos fun c hc => hd c (List.mem_reverse.1 hc), htake,
    List.append_nil, List.reverse_reverse]

/-- The number stands between two texts; the first one tells whether a signal ended the command. -/
theorem endedText_eq (code : Int) : ∃ before after : Text,
    endedText code = before ++ Nat.toDigits 10 code.natAbs ++ after ∧
      before.head? = some (if 0 ≤ code then 'r' else 'd') ∧ before.getLast? = some ' ' ∧
      ∀ c ∈ after, c.isDigit = false := by
  have hpoint : ∀ c ∈ ['.'], c.isDigit = false := List.forall_mem_singleton.2 rfl
  unfold endedText
  split_ifs with hcode
  · obtain ⟨n, rfl⟩ := Int.eq_ofNat_of_zero_le hcode
    exact ⟨_, _, rfl, rfl, rfl, hpoint⟩
  · split
    · next name _ =>
      refine ⟨_, _, rfl, rfl, ?_, List.forall_mem_cons.2 ⟨rfl, hpoint⟩⟩
      rw [List.getLast?_append]
      rfl
    · exact ⟨_, _, rfl, rfl, rfl, hpoint⟩

theorem lastDigits_endedText (code : Int) :
    lastDigits (endedText code) = Nat.toDigits 10 code.natAbs := by
  obtain ⟨before, after, htext, -, hlast, hafter⟩ := endedText_eq code
  rw [htext]
  refine lastDigits_append ?_ Nat.toDigits_ne_nil
    (fun c hc => Nat.isDigit_of_mem_toDigits (by decide) (by decide) hc) hafter
  rw [hlast]
  rintro c ⟨rfl⟩
  rfl

theorem head?_endedText (code : Int) :
    (endedText code).head? = some (if 0 ≤ code then 'r' else 'd') := by
  obtain ⟨before, after, htext, hhead, -, -⟩ := endedText_eq code
  rw [htext, List.append_assoc, List.head?_append, hhead]
  rfl

/-- How a command ended tells its code. -/
theorem endedText_injective : Function.Injective endedText := by
  intro m n h
  have hdigits : decimal m.natAbs = decimal n.natAbs := by
    show Nat.toDigits 10 m.natAbs = Nat.toDigits 10 n.natAbs
    rw [← lastDigits_endedText, h, lastDigits_endedText]
  have habs : m.natAbs = n.natAbs := Int.ofNat.inj (decimal_injective hdigits)
  have hhead := (head?_endedText m).symm.trans (h ▸ head?_endedText n)
  by_cases hm : 0 ≤ m
  · by_cases hn : 0 ≤ n
    · omega
    · rw [if_pos hm, if_neg hn] at hhead
      cases hhead
  · by_cases hn : 0 ≤ n
    · rw [if_neg hm, if_pos hn] at hhead
      cases hhead
    · omega

theorem shownWords_tells (ws : List Text) : Tells shownWords ws :=
  .enclosed (fun w _ => Quoted.isPrefixCode_text.tells w)
    (fun w s t => Quoted.text_append_ne (by decide) (by decide) w s t) (by decide)

/-- **The message about a failed command tells the words of the command and how it ended.** -/
theorem Obstacle.message_injective : Function.Injective Obstacle.message := by
  intro o o' h
  cases o with
  | noMetadata =>
    cases o' with
    | noMetadata => rfl
    | command words' code' => cases h
  | command words code =>
    cases o' with
    | noMetadata => cases h
    | command words' code' =>
      unfold Obstacle.message at h
      simp only [List.append_assoc] at h
      obtain ⟨rfl, hcode⟩ := shownWords_tells words (List.append_cancel_left h)
      rw [endedText_injective (List.append_cancel_left hcode)]

end Upkeep

end XPathAssembly
