import XPathAssembly.Proofs.Json.Shown
import XPathAssembly.Proofs.Listing.OnePass

/-!
# What cannot be listed

Floating-point numbers are the only values without a listing.  A value is refused exactly if there
is one in it, and it is the first that is reported, on one line.

    v.print = .error x ↔ v.numbers.head? = some x                           (print_eq_error_iff)
    v.shown = .error x ↔ v.enclosed.head? = some x                          (shown_eq_error_iff)

Shown on one line, a value is only refused for the numbers in its entities; without entities it
always is shown, and on one line (`shown_of_hasNoEntity`).
-/

namespace XPathAssembly

namespace Listing

namespace Value

mutual

/-- The floating-point numbers in a value, in order. -/
def numbers : Value → List Binary
  | float x => [x]
  | list xs => numbersOfAll xs
  | entity _ properties => numbersOfProperties properties
  | nothing | bool _ | integer _ | text _ | bytes _ => []

def numbersOfAll : List Value → List Binary
  | [] => []
  | x :: rest => numbers x ++ numbersOfAll rest

def numbersOfProperties : List (Text × Value) → List Binary
  | [] => []
  | (_, x) :: rest => numbers x ++ numbersOfProperties rest

end

mutual

/-- Those of the numbers that are in an entity. -/
def enclosed : Value → List Binary
  | list xs => enclosedInAll xs
  | entity _ properties => numbersOfProperties properties
  | nothing | bool _ | integer _ | float _ | text _ | bytes _ => []

def enclosedInAll : List Value → List Binary
  | [] => []
  | x :: rest => enclosed x ++ enclosedInAll rest

end

end Value

/-- A refusal is for the first of these numbers, and there is none without them. -/
inductive RefusedFor {α : Type} : List Binary → Except Binary α → Prop
  | nothing (a : α) : RefusedFor [] (.ok a)
  | first (x : Binary) (rest : List Binary) : RefusedFor (x :: rest) (.error x)

namespace RefusedFor

variable {α β γ : Type} {xs ys : List Binary} {r : Except Binary α} {q : Except Binary β}

theorem map (h : RefusedFor xs r) (f : α → γ) : RefusedFor xs (r >>= fun a => pure (f a)) := by
  cases h with
  | nothing a => exact .nothing (f a)
  | first x rest => exact .first x rest

theorem both (hr : RefusedFor xs r) (hq : RefusedFor ys q) (f : α → β → γ) :
    RefusedFor (xs ++ ys) (r >>= fun a => q >>= fun b => pure (f a b)) := by
  cases hr with
  | nothing a => exact hq.map (f a)
  | first x rest => exact .first x (rest ++ ys)

theorem eq_error_iff {x : Binary} (h : RefusedFor xs r) : r = .error x ↔ xs.head? = some x := by
  cases h with
  | nothing a => simp
  | first y rest => simp

end RefusedFor

namespace Value

variable {v : Value} {x : Binary}

/-! ## Listings -/

mutual

theorem refusedFor_print (v : Value) : RefusedFor v.numbers v.print := by
  match v with
  | nothing => exact .nothing _
  | bool b => exact .nothing _
  | integer n => exact .nothing _
  | float x => exact .first x []
  | text t => exact .nothing _
  | bytes bs => exact .nothing _
  | list [] => exact .nothing _
  | list (x :: rest) => exact (refusedFor_printElements (x :: rest)).map _
  | entity name [] => exact .nothing _
  | entity name (p :: rest) => exact (refusedFor_printProperties (p :: rest)).map _

theorem refusedFor_printElements (xs : List Value) :
    RefusedFor (numbersOfAll xs) (printElements xs) := by
  match xs with
  | [] => exact .nothing _
  | x :: rest => exact (refusedFor_print x).both (refusedFor_printElements rest) _

theorem refusedFor_printProperties (properties : List (Text × Value)) :
    RefusedFor (numbersOfProperties properties) (printProperties properties) := by
  match properties with
  | [] => exact .nothing _
  | (name, x) :: rest => exact (refusedFor_print x).both (refusedFor_printProperties rest) _

end

/-- **A value is refused for the first number in it**, and for nothing else. -/
theorem print_eq_error_iff : v.print = .error x ↔ v.numbers.head? = some x :=
  (refusedFor_print v).eq_error_iff

/-! ## Values on one line -/

mutual

theorem refusedFor_shown (v : Value) : RefusedFor v.enclosed v.shown := by
  match v with
  | nothing => exact .nothing _
  | bool b => exact .nothing _
  | integer n => exact .nothing _
  | float x => exact .nothing _
  | text t => exact .nothing _
  | bytes bs => exact .nothing _
  | list xs => exact (refusedFor_shownAll xs).map _
  | entity name properties => exact refusedFor_print (entity name properties)

theorem refusedFor_shownAll (xs : List Value) : RefusedFor (enclosedInAll xs) (shownAll xs) := by
  match xs with
  | [] => exact .nothing _
  | x :: rest => exact (refusedFor_shown x).both (refusedFor_shownAll rest) _

end

theorem shown_eq_error_iff : v.shown = .error x ↔ v.enclosed.head? = some x :=
  (refusedFor_shown v).eq_error_iff

/-- No entity is in the value. -/
def HasNoEntity (v : Value) : Prop :=
  ∀ (name : Text) (properties : List (Text × Value)), ¬ Within (entity name properties) v

mutual

/-- A value without entities is shown, and on one line. -/
theorem shown_of_hasNoEntity (v : Value) (h : v.HasNoEntity) :
    ∃ t, v.shown = .ok t ∧ OneLine t := by
  match v with
  | nothing => exact ⟨_, rfl, by decide⟩
  | bool b => exact ⟨_, rfl, by cases b <;> decide⟩
  | integer n => exact ⟨_, rfl, .decimal n⟩
  | float x => exact ⟨_, rfl, Binary.oneLine_written x⟩
  | text t => exact ⟨_, rfl, .quotedText t⟩
  | bytes bs => exact ⟨_, rfl, .quotedBytes bs⟩
  | list xs =>
    have hxs : ∀ x ∈ xs, x.HasNoEntity :=
      fun x hx name properties hw => h name properties (.element hx hw)
    obtain ⟨ts, hts, hlines⟩ := shownAll_of_hasNoEntity xs hxs
    have hline : OneLine (Json.enclosed '[' ']' ts) := Json.oneLine_enclosed rfl rfl hlines
    refine ⟨Json.enclosed '[' ']' ts, ?_, hline⟩
    rw [shown, hts]
    rfl
  | entity name properties => exact absurd .self (h name properties)

theorem shownAll_of_hasNoEntity (xs : List Value) (h : ∀ x ∈ xs, x.HasNoEntity) :
    ∃ ts, shownAll xs = .ok ts ∧ ∀ t ∈ ts, OneLine t := by
  match xs with
  | [] => exact ⟨[], rfl, by simp⟩
  | x :: rest =>
    obtain ⟨t, ht, hline⟩ := shown_of_hasNoEntity x (h x List.mem_cons_self)
    obtain ⟨ts, hts, hlines⟩ :=
      shownAll_of_hasNoEntity rest (fun y hy => h y (List.mem_cons_of_mem _ hy))
    refine ⟨t :: ts, ?_, List.forall_mem_cons.mpr ⟨hline, hlines⟩⟩
    rw [shownAll, ht, hts]
    rfl

end

end Value

/-- What is wrong is said on one line, whatever the number. -/
theorem oneLine_unlisted (x : Binary) : OneLine (unlisted x) :=
  ((OneLine.append (by decide) (Binary.oneLine_written x))).append (by decide)

end Listing

end XPathAssembly
