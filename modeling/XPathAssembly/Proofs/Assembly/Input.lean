import XPathAssembly.Assembly.Token

/-!
# Well-formed input

An input is well-formed if it lists expressions, each of which lists tokens.  Reading gives these
tokens, or else reports what is wrong: each fault once, and in the order of the places.

    readExpressions x = .ok es ↔ es ≠ [] ∧ x = inputOf es ∧ …       (readExpressions_eq_ok_iff)
    Reports (HasFault xs) (issuesOf (readExpressions (.array xs)))    (reports_readExpressions)

What carries the proof is that reports of what stands earlier and of what stands later can be put
one after the other.  Tokens make up an expression and expressions an input in the same way, so this
is said once, of any list read at its indices (`reports_gather`).
-/

namespace XPathAssembly

/-! ## Texts and kinds -/

namespace Point

variable {points : List Point} {t : Text} {n : Nat}

theorem toText?_eq_ok_iff : toText? points = .ok t ↔ points = ofText t := by
  constructor
  · intro h
    induction points generalizing t with
    | nil => cases h; rfl
    | cons p rest ih =>
      cases p with
      | surrogate n => cases h
      | char c =>
        unfold toText? at h
        cases hr : toText? rest with
        | ok u => rw [hr] at h; cases h; rw [ih hr]; rfl
        | error i => rw [hr] at h; cases h
  · rintro rfl
    exact toText?_ofText t

/-- The surrogate that is found is the first one. -/
theorem toText?_eq_error_iff : toText? points = .error n ↔
    ∃ before k after, points = ofText before ++ surrogate k :: after ∧ n = before.length := by
  constructor
  · intro h
    induction points generalizing n with
    | nil => cases h
    | cons p rest ih =>
      cases p with
      | surrogate k =>
        cases h
        exact ⟨[], k, rest, rfl, rfl⟩
      | char c =>
        unfold toText? at h
        cases hr : toText? rest with
        | ok u => rw [hr] at h; cases h
        | error i =>
          rw [hr] at h
          cases h
          obtain ⟨before, k, after, rfl, rfl⟩ := ih hr
          exact ⟨c :: before, k, after, rfl, rfl⟩
  · rintro ⟨before, k, after, rfl, rfl⟩
    induction before with
    | nil => rfl
    | cons c before ih =>
      show toText? (char c :: (ofText before ++ surrogate k :: after)) = _
      rw [toText?, ih]
      rfl

end Point

theorem Kind.ofName?_eq_some_iff {t : Text} {k : Kind} : ofName? t = some k ↔ t = k.name := by
  constructor
  · intro h
    have hk := List.find?_some h
    exact (of_decide_eq_true hk).symm
  · rintro rfl
    exact ofName?_name k

namespace Assembly

/-! ## Definitions -/

/-- The text stands between two quotation marks of one sort. -/
def Delimited (t : Text) : Prop :=
  ∃ q inner, XPathAssembly.Token.isMark q ∧ t = q :: (inner ++ [q])

namespace Token

/-- A quoted literal stands between its marks. -/
def WellFormed (t : Token) : Prop := t.kind = .quoted → Delimited t.text

/-- The token as it is written in the input. -/
def json (t : Token) : Json :=
  .array [.string (Point.ofText t.kind.name), .string (Point.ofText t.text)]

end Token

/-- The expressions as they are written in the input. -/
def inputOf (es : List (List Token)) : Json := .array (es.map fun e => .array (e.map Token.json))

/-- What is wrong with a value in the place of a token.  A pair of strings is judged by its first
string as long as this is no kind, and then by its second one. -/
inductive IsDefect : Json → Defect → Prop
  | shape {x : Json} (hx : ∀ name text, x ≠ .array [.string name, .string text]) :
      IsDefect x (.shape x)
  | kind {name text : List Point} (hn : ∀ k : Kind, name ≠ Point.ofText k.name) :
      IsDefect (.array [.string name, .string text]) (.kind name)
  | encoding {k : Kind} {before : Text} {n : Fin 2048} {text after : List Point}
      (ht : text = Point.ofText before ++ .surrogate n :: after) :
      IsDefect (.array [.string (Point.ofText k.name), .string text])
        (.encoding before.length text)
  | quotes {t : Text} (hq : ¬ Delimited t) : IsDefect (Token.json ⟨.quoted, t⟩) (.quotes t)

/-- The place of an expression or of a token in it, both counted from 0. -/
structure Place where
  expression : Nat
  token : Option Nat := none

namespace Place

def text : Place → Text
  | ⟨i, none⟩ => expressionPlace i
  | ⟨i, some j⟩ => tokenPlace i j

/-- The order in which the input is read. -/
inductive Before : Place → Place → Prop
  | expression {p q : Place} (h : p.expression < q.expression) : Before p q
  | token {i j j' : Nat} (h : j < j') : Before ⟨i, some j⟩ ⟨i, some j'⟩

end Place

/-- What is wrong with a value in the place of the `i`-th expression. -/
inductive IsFault (i : Nat) : Json → Place → Text → Prop
  | expression {x : Json} (hx : ∀ tokens, x ≠ .array tokens) :
      IsFault i x ⟨i, none⟩ "Expected a list of tokens as an expression".toList
  | token {tokens : List Json} {j : Nat} {x : Json} {d : Defect} (hx : tokens[j]? = some x)
      (hd : IsDefect x d) : IsFault i (.array tokens) ⟨i, some j⟩ d.message

/-- What is wrong with a list in the place of the input. -/
def HasFault (xs : List Json) (p : Place) (message : Text) : Prop :=
  ∃ i x, xs[i]? = some x ∧ IsFault i x p message

/-- The issue at a place. -/
def issueAt (f : Place × Text) : Issue := { location := some f.1.text, message := f.2 }

/-- The issues are one for each fault, in the order of the places, and no others. -/
def Reports (fault : Place → Text → Prop) (issues : List Issue) : Prop :=
  ∃ fs : List (Place × Text), issues = fs.map issueAt ∧
    fs.Pairwise (fun f f' => f.1.Before f'.1) ∧ ∀ p message, (p, message) ∈ fs ↔ fault p message

/-! ## Reports -/

namespace Reports

variable {F G : Place → Text → Prop} {issues issues' : List Issue} {p : Place} {message : Text}

theorem congr (h : Reports F issues) (hg : ∀ p message, F p message ↔ G p message) :
    Reports G issues := by
  obtain ⟨fs, he, hp, hm⟩ := h
  exact ⟨fs, he, hp, fun p message => (hm p message).trans (hg p message)⟩

theorem nil (hf : ∀ p message, ¬ F p message) : Reports F [] :=
  ⟨[], rfl, .nil, fun p message => ⟨nofun, fun h => absurd h (hf p message)⟩⟩

theorem single (p : Place) (message : Text) :
    Reports (fun p' message' => p' = p ∧ message' = message) [issueAt (p, message)] :=
  ⟨[(p, message)], rfl, List.pairwise_singleton _ _, fun p' message' => by simp⟩

/-- What is reported later has to stand later. -/
theorem append (h : Reports F issues) (h' : Reports G issues')
    (hb : ∀ p message p' message', F p message → G p' message' → p.Before p') :
    Reports (fun p message => F p message ∨ G p message) (issues ++ issues') := by
  obtain ⟨fs, rfl, hp, hm⟩ := h
  obtain ⟨gs, rfl, hp', hm'⟩ := h'
  refine ⟨fs ++ gs, List.map_append.symm, ?_, fun p message => ?_⟩
  · refine List.pairwise_append.mpr ⟨hp, hp', ?_⟩
    rintro ⟨p, message⟩ hf ⟨p', message'⟩ hg
    exact hb p message p' message' ((hm _ _).mp hf) ((hm' _ _).mp hg)
  · rw [List.mem_append, hm, hm']

/-- There is a fault exactly if something is reported. -/
theorem exists_iff (h : Reports F issues) : (∃ p message, F p message) ↔ issues ≠ [] := by
  obtain ⟨fs, rfl, -, hm⟩ := h
  constructor
  · rintro ⟨p, message, hf⟩ he
    have hmem := (hm p message).mpr hf
    rw [List.map_eq_nil_iff.mp he] at hmem
    cases hmem
  · intro hne
    obtain ⟨f, hf⟩ := List.exists_mem_of_ne_nil fs fun he => hne (he ▸ rfl)
    exact ⟨f.1, f.2, (hm _ _).mp hf⟩

end Reports

/-! ## Reading lists -/

section
variable {α : Type} {f : Nat → Json → Except (List Issue) α} {xs : List Json} {as : List α}
  {issues : List Issue}

/-- What one element adds to the issues. -/
def issuesOf : Except (List Issue) α → List Issue
  | .ok _ => []
  | .error issues => issues

theorem issuesOf_gather (rs : List (Except (List Issue) α)) :
    issuesOf (gather rs) = rs.flatMap issuesOf := by
  induction rs with
  | nil => rfl
  | cons r rest ih =>
    rw [List.flatMap_cons, ← ih]
    cases r with
    | ok a =>
      rw [gather]
      cases gather rest <;> rfl
    | error issues =>
      rw [gather]
      cases gather rest with
      | ok as => exact (List.append_nil issues).symm
      | error more => rfl

theorem gather_eq_ok_iff {rs : List (Except (List Issue) α)} :
    gather rs = .ok as ↔ rs = as.map .ok := by
  constructor
  · intro h
    induction rs generalizing as with
    | nil => cases h; rfl
    | cons r rest ih =>
      rw [gather.eq_def] at h
      cases hg : gather rest with
      | ok bs => cases r <;> simp only [hg] at h <;> cases h; rw [ih hg, List.map_cons]
      | error issues => cases r <;> simp only [hg] at h <;> cases h
  · rintro rfl
    induction as with
    | nil => rfl
    | cons a as ih => rw [List.map_cons, gather, ih]

theorem gather_ne_error_nil {rs : List (Except (List Issue) α)} (hr : ∀ r ∈ rs, r ≠ .error []) :
    gather rs ≠ .error [] := by
  induction rs with
  | nil => exact nofun
  | cons r rest ih =>
    obtain ⟨hr, hrest⟩ := List.forall_mem_cons.mp hr
    have hrest := ih hrest
    cases r with
    | ok a =>
      rw [gather]
      cases hg : gather rest with
      | ok as => exact nofun
      | error issues => exact fun he => hrest (hg.trans he)
    | error issues =>
      have hne : issues ≠ [] := fun he => hr (he ▸ rfl)
      rw [gather]
      cases gather rest <;> simp [hne]

/-- Of a list all is accepted exactly if each element is. -/
theorem mapIdx_eq_map_ok_iff {g : α → Json} {P : α → Prop}
    (hf : ∀ i x a, f i x = .ok a ↔ x = g a ∧ P a) :
    xs.mapIdx f = as.map .ok ↔ xs = as.map g ∧ ∀ a ∈ as, P a := by
  induction xs generalizing f as with
  | nil => cases as <;> simp
  | cons x xs ih =>
    cases as with
    | nil => simp
    | cons a as =>
      rw [List.mapIdx_cons, List.map_cons, List.cons.injEq, hf, ih fun i => hf (i + 1),
        List.map_cons, List.cons.injEq, List.forall_mem_cons]
      exact and_and_and_comm

/-- The report on a list is made of those on its elements, if those later in the list are on places
that come later. -/
theorem reports_gather {F : Nat → Json → Place → Text → Prop}
    (hf : ∀ i x, Reports (F i x) (issuesOf (f i x)))
    (hb : ∀ i x j y p message p' message', i < j → F i x p message → F j y p' message' →
      p.Before p') :
    Reports (fun p message => ∃ i x, xs[i]? = some x ∧ F i x p message)
      (issuesOf (gather (xs.mapIdx f))) := by
  rw [issuesOf_gather]
  induction xs generalizing f F with
  | nil =>
    refine Reports.nil ?_
    rintro p message ⟨i, x, hx, -⟩
    simp at hx
  | cons x xs ih =>
    rw [List.mapIdx_cons, List.flatMap_cons]
    have hrest := ih (f := fun i => f (i + 1)) (F := fun i => F (i + 1)) (fun i => hf (i + 1))
      fun i x j y p message p' message' hij => hb _ x _ y p message p' message' (by omega)
    refine ((hf 0 x).append hrest ?_).congr fun p message => ?_
    · rintro p message p' message' hp ⟨i, y, -, hp'⟩
      exact hb 0 x (i + 1) y p message p' message' (by omega) hp hp'
    · constructor
      · rintro (hp | ⟨i, y, hy, hp⟩)
        · exact ⟨0, x, rfl, hp⟩
        · exact ⟨i + 1, y, hy, hp⟩
      · rintro ⟨_ | i, y, hy, hp⟩
        · obtain rfl := Option.some.inj hy
          exact .inl hp
        · exact .inr ⟨i, y, hy, hp⟩

end

/-! ## Reading tokens -/

section
variable {x : Json} {t : Token} {d : Defect} {i j : Nat}

theorem kindOf?_eq_some_iff {name : List Point} {k : Kind} :
    kindOf? name = some k ↔ name = Point.ofText k.name := by
  unfold kindOf?
  cases h : Point.toText? name with
  | ok t =>
    obtain rfl := Point.toText?_eq_ok_iff.mp h
    show Kind.ofName? t = some k ↔ _
    rw [Kind.ofName?_eq_some_iff]
    constructor
    · rintro rfl
      rfl
    · intro he
      rw [he, Point.toText?_ofText] at h
      exact (Except.ok.inj h).symm
  | error n =>
    refine ⟨nofun, fun he => ?_⟩
    rw [he, Point.toText?_ofText] at h
    cases h

theorem isDelimited_iff {t : Text} : isDelimited t ↔ Delimited t := by
  unfold Delimited
  cases t with
  | nil => exact ⟨nofun, fun ⟨_, _, _, h⟩ => (nomatch h)⟩
  | cons first rest =>
    show (XPathAssembly.Token.isMark first && rest.getLast? == some first) = true ↔ _
    rw [Bool.and_eq_true, beq_iff_eq, List.getLast?_eq_some_iff]
    constructor
    · rintro ⟨hm, inner, rfl⟩
      exact ⟨first, inner, hm, rfl⟩
    · rintro ⟨q, inner, hm, he⟩
      cases he
      exact ⟨hm, inner, rfl⟩

/-- A pair of strings, the first of which is the name of a kind. -/
theorem readToken_pair (k : Kind) (text : List Point) :
    readToken (.array [.string (Point.ofText k.name), .string text]) =
      match Point.toText? text with
      | .error n => .error (.encoding n text)
      | .ok t => if k = .quoted && !isDelimited t then .error (.quotes t) else .ok ⟨k, t⟩ := by
  have hk : kindOf? (Point.ofText k.name) = some k := kindOf?_eq_some_iff.mpr rfl
  cases ht : Point.toText? text with
  | error n => simp only [readToken, hk, ht]
  | ok t => simp only [readToken, hk, ht]

theorem readToken_json (t : Token) : readToken t.json =
    if t.kind = .quoted && !isDelimited t.text then .error (.quotes t.text) else .ok t := by
  unfold Token.json
  rw [readToken_pair, Point.toText?_ofText]

theorem readToken_of_wellFormed (ht : t.WellFormed) : readToken t.json = .ok t := by
  rw [readToken_json, if_neg]
  intro hc
  rw [Bool.and_eq_true, decide_eq_true_eq] at hc
  rw [isDelimited_iff.mpr (ht hc.1)] at hc
  cases hc.2

theorem readToken_of_isDefect (hd : IsDefect x d) : readToken x = .error d := by
  cases hd with
  | shape hx =>
    unfold readToken
    split
    · next name text => exact absurd rfl (hx name text)
    · rfl
  | kind hn =>
    rw [readToken]
    split
    · rfl
    · next k hk => exact absurd (kindOf?_eq_some_iff.mp hk) (hn k)
  | encoding ht => rw [readToken_pair, Point.toText?_eq_error_iff.mpr ⟨_, _, _, ht, rfl⟩]
  | @quotes t hq =>
    have hb : isDelimited t = false := Bool.eq_false_iff.mpr fun h => hq (isDelimited_iff.mp h)
    rw [readToken_json, if_pos (by simp [hb])]

/-- Each value is a well-formed token or has a defect. -/
theorem wellFormed_or_isDefect (x : Json) :
    (∃ t : Token, x = t.json ∧ t.WellFormed) ∨ ∃ d, IsDefect x d := by
  by_cases hx : ∃ name text, x = .array [.string name, .string text]
  · obtain ⟨name, text, rfl⟩ := hx
    by_cases hn : ∃ k : Kind, name = Point.ofText k.name
    · obtain ⟨k, rfl⟩ := hn
      cases ht : Point.toText? text with
      | error n =>
        obtain ⟨before, m, after, ht, -⟩ := Point.toText?_eq_error_iff.mp ht
        exact .inr ⟨_, .encoding ht⟩
      | ok t =>
        obtain rfl := Point.toText?_eq_ok_iff.mp ht
        by_cases hq : k = .quoted ∧ ¬ Delimited t
        · obtain ⟨rfl, hq⟩ := hq
          exact .inr ⟨_, .quotes hq⟩
        · refine .inl ⟨⟨k, t⟩, rfl, fun hk => ?_⟩
          exact Classical.not_not.mp fun hd => hq ⟨hk, hd⟩
    · exact .inr ⟨_, .kind fun k hk => hn ⟨k, hk⟩⟩
  · exact .inr ⟨_, .shape fun name text he => hx ⟨name, text, he⟩⟩

theorem readToken_eq_ok_iff : readToken x = .ok t ↔ x = t.json ∧ t.WellFormed := by
  constructor
  · intro h
    rcases wellFormed_or_isDefect x with ⟨u, rfl, hu⟩ | ⟨d, hd⟩
    · rw [readToken_of_wellFormed hu] at h
      cases h
      exact ⟨rfl, hu⟩
    · rw [readToken_of_isDefect hd] at h
      cases h
  · rintro ⟨rfl, ht⟩
    exact readToken_of_wellFormed ht

theorem readToken_eq_error_iff : readToken x = .error d ↔ IsDefect x d := by
  refine ⟨fun h => ?_, readToken_of_isDefect⟩
  rcases wellFormed_or_isDefect x with ⟨u, rfl, hu⟩ | ⟨d', hd⟩
  · rw [readToken_of_wellFormed hu] at h
    cases h
  · rw [readToken_of_isDefect hd] at h
    cases h
    exact hd

theorem readTokenAt_eq_ok_iff : readTokenAt i j x = .ok t ↔ x = t.json ∧ t.WellFormed := by
  rw [← readToken_eq_ok_iff]
  unfold readTokenAt
  cases readToken x <;> simp

/-- What is wrong with a value in the place of the `j`-th token of the `i`-th expression. -/
def IsTokenFault (i j : Nat) (x : Json) (p : Place) (message : Text) : Prop :=
  p = ⟨i, some j⟩ ∧ ∃ d, IsDefect x d ∧ message = d.message

theorem reports_readTokenAt (i j : Nat) (x : Json) :
    Reports (IsTokenFault i j x) (issuesOf (readTokenAt i j x)) := by
  unfold readTokenAt
  cases h : readToken x with
  | ok t =>
    refine Reports.nil ?_
    rintro p message ⟨-, d, hd, -⟩
    rw [readToken_of_isDefect hd] at h
    cases h
  | error d =>
    refine (Reports.single ⟨i, some j⟩ d.message).congr fun p message => and_congr_right fun _ => ?_
    constructor
    · intro hm
      exact ⟨d, readToken_eq_error_iff.mp h, hm⟩
    · rintro ⟨d', hd, hm⟩
      rw [readToken_of_isDefect hd] at h
      cases h
      exact hm

/-! ## Reading expressions -/

theorem readExpression_eq_ok_iff {e : List Token} : readExpression i x = .ok e ↔
    x = .array (e.map Token.json) ∧ ∀ t ∈ e, t.WellFormed := by
  cases x with
  | array tokens =>
    unfold readExpression
    rw [gather_eq_ok_iff, mapIdx_eq_map_ok_iff fun j x t => readTokenAt_eq_ok_iff,
      Json.array.injEq]
  | _ => exact ⟨nofun, fun h => (nomatch h.1)⟩

theorem reports_readExpression (i : Nat) (x : Json) :
    Reports (IsFault i x) (issuesOf (readExpression i x)) := by
  have hother : (∀ tokens, x ≠ .array tokens) →
      Reports (IsFault i x)
        [issueAt (⟨i, none⟩, "Expected a list of tokens as an expression".toList)] := by
    intro hx
    refine (Reports.single _ _).congr fun p message => ?_
    constructor
    · rintro ⟨rfl, rfl⟩
      exact .expression hx
    · intro hf
      cases hf with
      | expression => exact ⟨rfl, rfl⟩
      | token => exact absurd rfl (hx _)
  cases x with
  | array tokens =>
    refine (reports_gather (reports_readTokenAt i) ?_).congr fun p message => ?_
    · rintro j x j' y p message p' message' hlt ⟨rfl, -⟩ ⟨rfl, -⟩
      exact .token hlt
    constructor
    · rintro ⟨j, x, hx, rfl, d, hd, rfl⟩
      exact .token hx hd
    · intro hf
      cases hf with
      | expression hx => exact absurd rfl (hx tokens)
      | token hx hd => exact ⟨_, _, hx, rfl, _, hd, rfl⟩
  | _ => exact hother nofun

/-- The faults of an expression are at its place or at those of its tokens. -/
theorem IsFault.expression_eq {p : Place} {message : Text} (hf : IsFault i x p message) :
    p.expression = i := by
  cases hf <;> rfl

theorem readExpression_ne_error_nil (i : Nat) (x : Json) : readExpression i x ≠ .error [] := by
  cases x with
  | array tokens =>
    refine gather_ne_error_nil fun r hr => ?_
    obtain ⟨j, -, rfl⟩ := List.mem_mapIdx.mp hr
    unfold readTokenAt
    cases readToken _ <;> simp
  | _ => exact nofun

end

/-! ## Reading the input -/

variable {x : Json} {xs : List Json} {es : List (List Token)} {issues : List Issue}

theorem readExpressions_of_not (hx : ∀ xs, xs ≠ [] → x ≠ .array xs) :
    readExpressions x = .error [noExpressions] := by
  unfold readExpressions
  split
  · rfl
  · next xs hne => exact absurd rfl (hx xs hne)
  · rfl

theorem readExpressions_of_ne_nil (hne : xs ≠ []) :
    readExpressions (.array xs) = gather (xs.mapIdx readExpression) := by
  cases xs with
  | nil => exact absurd rfl hne
  | cons x xs => rfl

theorem readExpressions_eq_ok_iff :
    readExpressions x = .ok es ↔ es ≠ [] ∧ x = inputOf es ∧ ∀ e ∈ es, ∀ t ∈ e, t.WellFormed := by
  by_cases hx : ∃ xs, xs ≠ [] ∧ x = .array xs
  · obtain ⟨xs, hne, rfl⟩ := hx
    rw [readExpressions_of_ne_nil hne, gather_eq_ok_iff,
      mapIdx_eq_map_ok_iff fun i x e => readExpression_eq_ok_iff, inputOf, Json.array.injEq]
    constructor
    · rintro ⟨rfl, ht⟩
      exact ⟨fun he => hne (he ▸ rfl), rfl, ht⟩
    · rintro ⟨-, h⟩
      exact h
  · rw [readExpressions_of_not fun xs hne he => hx ⟨xs, hne, he⟩]
    refine ⟨nofun, ?_⟩
    rintro ⟨hne, rfl, -⟩
    exact absurd ⟨_, fun he => hne (List.map_eq_nil_iff.mp he), rfl⟩ hx

/-- What is wrong with a list is reported, and if nothing is wrong it is read. -/
theorem reports_readExpressions (hne : xs ≠ []) :
    Reports (HasFault xs) (issuesOf (readExpressions (.array xs))) := by
  rw [readExpressions_of_ne_nil hne]
  refine reports_gather reports_readExpression ?_
  intro i x j y p message p' message' hlt hp hp'
  refine .expression ?_
  rw [hp.expression_eq, hp'.expression_eq]
  exact hlt

/-- Faults in both expressions, and a token in the second one without any. -/
example : (issuesOf (readExpressions
      (.array [.null, .array [.array [], Token.json ⟨.eos, [';']⟩, .null]]))).map Issue.location =
    [some "expressions[0]".toList, some "expressions[1][0]".toList,
      some "expressions[1][2]".toList] := by
  rfl

theorem readExpressions_ne_error_nil (x : Json) : readExpressions x ≠ .error [] := by
  by_cases hx : ∃ xs, xs ≠ [] ∧ x = .array xs
  · obtain ⟨xs, hne, rfl⟩ := hx
    rw [readExpressions_of_ne_nil hne]
    refine gather_ne_error_nil fun r hr => ?_
    obtain ⟨i, -, rfl⟩ := List.mem_mapIdx.mp hr
    exact readExpression_ne_error_nil i _
  · rw [readExpressions_of_not fun xs hne he => hx ⟨xs, hne, he⟩]
    exact nofun

end Assembly

end XPathAssembly
