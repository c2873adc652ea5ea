import XPathAssembly.Proofs.Store.Line

/-!
# Trees of segments

A chain in both directions is a tree: each segment has the tree that hangs on its sibling link and
the tree that hangs on its next link.  A store holds a tree at a head if its links lead through live
segments as the tree says.  In terms of paths, which are lists of directions, a tree without
repetition is what is held where each path leads to a live segment and no two paths to the same one.

    s.IsTree h ↔ ∃ t, s.Holds (some h) t ∧ t.handles.Nodup      (isTree_iff)
-/

namespace XPathAssembly

/-! ## Definitions -/

inductive Tree where
  | empty
  | node (h : Handle) (siblings rest : Tree)

namespace Tree

def head? : Tree → Option Handle
  | empty => none
  | node h _ _ => some h

/-- What hangs on a link of the first segment. -/
def branch (d : Direction) : Tree → Tree
  | empty => empty
  | node _ siblings rest =>
    match d with
    | .next => rest
    | .sibling => siblings

/-- The order of a traversal: the siblings of a segment, the segment, what comes after it. -/
def handles : Tree → List Handle
  | empty => []
  | node h siblings rest => siblings.handles ++ h :: rest.handles

/-- The segment at the end of a path. -/
def reach (t : Tree) : List Direction → Option Handle
  | [] => t.head?
  | d :: path => (t.branch d).reach path

/-- The segments along the links of one direction. -/
def line (d : Direction) : Tree → List Handle
  | empty => []
  | node h siblings rest =>
    match d with
    | .next => h :: rest.line d
    | .sibling => h :: siblings.line d

end Tree

namespace Store

/-- The handle at the end of a path from `head`. -/
def trace (s : Store) (head : Option Handle) : List Direction → Option Handle
  | [] => head
  | d :: path => s.trace (head.bind (s.link? d)) path

/-- Each path from `h` leads to a live segment, and no two to the same. -/
structure IsTree (s : Store) (h : Handle) : Prop where
  live : ∀ path k, s.trace (some h) path = some k → s.isLive k
  unshared : ∀ path path' k,
    s.trace (some h) path = some k → s.trace (some h) path' = some k → path = path'

/-- The links from `head` lead through live segments as the tree says. -/
def Holds (s : Store) : Option Handle → Tree → Prop
  | head, .empty => head = none
  | head, .node h siblings rest => head = some h ∧ s.isLive h ∧
      s.Holds (s.link? .sibling h) siblings ∧ s.Holds (s.link? .next h) rest

end Store

/-! ## Lemmas -/

namespace Tree

variable {t u : Tree} {d : Direction} {h : Handle}

@[simp] theorem reach_empty (path : List Direction) : empty.reach path = none := by
  induction path with
  | nil => rfl
  | cons d path ih => exact ih

theorem mem_handles_iff : h ∈ t.handles ↔ ∃ path, t.reach path = some h := by
  induction t with
  | empty => simp [handles]
  | node k siblings rest ihs ihr =>
    rw [handles, List.mem_append, List.mem_cons, ihs, ihr]
    constructor
    · rintro (⟨path, hp⟩ | rfl | ⟨path, hp⟩)
      · exact ⟨.sibling :: path, hp⟩
      · exact ⟨[], rfl⟩
      · exact ⟨.next :: path, hp⟩
    · rintro ⟨_ | ⟨d, path⟩, hp⟩
      · exact .inr (.inl (Option.some.inj hp).symm)
      · cases d with
        | next => exact .inr (.inr ⟨path, hp⟩)
        | sibling => exact .inl ⟨path, hp⟩

theorem nodup_node_iff {siblings rest : Tree} : (node h siblings rest).handles.Nodup ↔
    siblings.handles.Nodup ∧ rest.handles.Nodup ∧ h ∉ siblings.handles ∧ h ∉ rest.handles ∧
      ∀ k ∈ siblings.handles, k ∉ rest.handles := by
  rw [handles, List.nodup_append, List.nodup_cons]
  constructor
  · rintro ⟨hs, ⟨hr, hn⟩, hd⟩
    refine ⟨hs, hn, fun hm => hd h hm h List.mem_cons_self rfl, hr, fun k hk hk' => ?_⟩
    exact hd k hk k (List.mem_cons_of_mem _ hk') rfl
  · rintro ⟨hs, hn, hhs, hhr, hd⟩
    refine ⟨hs, ⟨hhr, hn⟩, fun a ha b hb he => ?_⟩
    subst he
    rcases List.mem_cons.mp hb with rfl | hb
    · exact hhs ha
    · exact hd a ha hb

/-- In a tree without repetition each segment is at the end of one path. -/
theorem reach_inj (hn : t.handles.Nodup) {path path' : List Direction}
    (hp : t.reach path = some h) (hp' : t.reach path' = some h) : path = path' := by
  induction t generalizing path path' with
  | empty => simp at hp
  | node k siblings rest ihs ihr =>
    obtain ⟨hns, hnr, hks, hkr, hd⟩ := nodup_node_iff.mp hn
    have hsib : ∀ {q}, siblings.reach q = some h → h ∈ siblings.handles :=
      fun hq => mem_handles_iff.mpr ⟨_, hq⟩
    have hrest : ∀ {q}, rest.reach q = some h → h ∈ rest.handles :=
      fun hq => mem_handles_iff.mpr ⟨_, hq⟩
    match path, path', hp, hp' with
    | [], [], _, _ => rfl
    | [], .next :: q, hp, hp' => exact absurd (Option.some.inj hp ▸ hrest hp') hkr
    | [], .sibling :: q, hp, hp' => exact absurd (Option.some.inj hp ▸ hsib hp') hks
    | .next :: q, [], hp, hp' => exact absurd (Option.some.inj hp' ▸ hrest hp) hkr
    | .sibling :: q, [], hp, hp' => exact absurd (Option.some.inj hp' ▸ hsib hp) hks
    | .next :: q, .next :: q', hp, hp' => rw [ihr hnr hp hp']
    | .sibling :: q, .sibling :: q', hp, hp' => rw [ihs hns hp hp']
    | .next :: q, .sibling :: q', hp, hp' => exact absurd (hrest hp) (hd h (hsib hp'))
    | .sibling :: q, .next :: q', hp, hp' => exact absurd (hrest hp') (hd h (hsib hp))

/-- A tree in which no segment is at the end of two paths is without repetition. -/
theorem nodup_of_reach_inj
    (hu : ∀ path path' k, t.reach path = some k → t.reach path' = some k → path = path') :
    t.handles.Nodup := by
  induction t with
  | empty => exact List.nodup_nil
  | node k siblings rest ihs ihr =>
    refine nodup_node_iff.mpr ⟨ihs ?_, ihr ?_, fun hm => ?_, fun hm => ?_, fun a hs hr => ?_⟩
    · intro path path' a hp hp'
      exact (List.cons.inj (hu (.sibling :: path) (.sibling :: path') a hp hp')).2
    · intro path path' a hp hp'
      exact (List.cons.inj (hu (.next :: path) (.next :: path') a hp hp')).2
    · obtain ⟨path, hp⟩ := mem_handles_iff.mp hm
      exact absurd (hu (.sibling :: path) [] k hp rfl) nofun
    · obtain ⟨path, hp⟩ := mem_handles_iff.mp hm
      exact absurd (hu (.next :: path) [] k hp rfl) nofun
    · obtain ⟨path, hp⟩ := mem_handles_iff.mp hs
      obtain ⟨path', hp'⟩ := mem_handles_iff.mp hr
      exact absurd (hu (.sibling :: path) (.next :: path') a hp hp') nofun

end Tree

namespace Store

variable {s s' : Store} {d : Direction} {head : Option Handle} {h : Handle} {t : Tree}

@[simp] theorem trace_none (path : List Direction) : s.trace none path = none := by
  induction path with
  | nil => rfl
  | cons d path ih => exact ih

theorem holds_none_iff : s.Holds none t ↔ t = .empty := by
  cases t with
  | empty => exact ⟨fun _ => rfl, fun _ => rfl⟩
  | node h siblings rest => exact ⟨fun hh => (nomatch hh.1), fun hh => (nomatch hh)⟩

theorem holds_some_iff : s.Holds (some h) t ↔ s.isLive h ∧ ∃ siblings rest,
    t = .node h siblings rest ∧ s.Holds (s.link? .sibling h) siblings ∧
      s.Holds (s.link? .next h) rest := by
  cases t with
  | empty => exact ⟨fun hh => (nomatch hh), fun ⟨_, _, _, he, _⟩ => (nomatch he)⟩
  | node k siblings rest =>
    constructor
    · rintro ⟨he, hl, hs, hr⟩
      obtain rfl := Option.some.inj he
      exact ⟨hl, siblings, rest, rfl, hs, hr⟩
    · rintro ⟨hl, _, _, he, hs, hr⟩
      cases he
      exact ⟨rfl, hl, hs, hr⟩

namespace Holds

theorem head?_eq (hh : s.Holds head t) : t.head? = head := by
  cases t with
  | empty => exact hh.symm
  | node h siblings rest => exact hh.1.symm

theorem isLive (hh : s.Holds head t) : ∀ k ∈ t.handles, s.isLive k := by
  induction t generalizing head with
  | empty => intro k hk; cases hk
  | node h siblings rest ihs ihr =>
    obtain ⟨-, hl, hs, hr⟩ := hh
    intro k hk
    rcases List.mem_append.mp hk with hk | hk
    · exact ihs hs k hk
    · rcases List.mem_cons.mp hk with rfl | hk
      · exact hl
      · exact ihr hr k hk

theorem branch (hh : s.Holds (some h) t) (d : Direction) :
    s.Holds (s.link? d h) (t.branch d) := by
  cases t with
  | empty => cases hh
  | node k siblings rest =>
    obtain ⟨he, -, hs, hr⟩ := hh
    obtain rfl : h = k := Option.some.inj he
    cases d with
    | next => exact hr
    | sibling => exact hs

theorem unique {u : Tree} (ht : s.Holds head t) (hu : s.Holds head u) : t = u := by
  induction t generalizing head u with
  | empty =>
    obtain rfl : head = none := ht
    exact (holds_none_iff.mp hu).symm
  | node h siblings rest ihs ihr =>
    obtain ⟨rfl, -, hs, hr⟩ := ht
    obtain ⟨-, siblings', rest', rfl, hs', hr'⟩ := holds_some_iff.mp hu
    rw [ihs hs hs', ihr hr hr']

theorem trace_eq (hh : s.Holds head t) (path : List Direction) :
    s.trace head path = t.reach path := by
  induction path generalizing head t with
  | nil => exact hh.head?_eq.symm
  | cons d path ih =>
    cases head with
    | none =>
      cases t with
      | empty => simp
      | node h siblings rest => cases hh.1
    | some h => exact ih (hh.branch d)

theorem congr (hh : s.Holds head t)
    (hc : ∀ k ∈ t.handles, s'.isLive k ∧ ∀ d, s'.link? d k = s.link? d k) :
    s'.Holds head t := by
  induction t generalizing head with
  | empty => exact hh
  | node h siblings rest ihs ihr =>
    obtain ⟨he, -, hs, hr⟩ := hh
    obtain ⟨hl, hk⟩ := hc h (by simp [Tree.handles])
    refine ⟨he, hl, ?_, ?_⟩
    · rw [hk]
      exact ihs hs fun k hk => hc k (by simp [Tree.handles, hk])
    · rw [hk]
      exact ihr hr fun k hk => hc k (by simp [Tree.handles, hk])

/-- A tree is held as long as no cell of its segments changes. -/
theorem sameOff (hh : s.Holds head t) (hs : SameOff h s s') (hn : h ∉ t.handles) :
    s'.Holds head t :=
  hh.congr fun k hk =>
    have hne : k ≠ h := fun he => hn (he ▸ hk)
    have hl := hh.isLive k hk
    ⟨(hs.isLive hne).trans hl, fun _ => hs.link? (nonneg_of_isLive hl) hne⟩

theorem line (hh : s.Holds head t) (d : Direction) : s.Line d head (t.line d) := by
  induction t generalizing head with
  | empty => exact hh
  | node h siblings rest ihs ihr =>
    obtain ⟨he, hl, hs, hr⟩ := hh
    cases d with
    | next => exact ⟨he, hl, ihr hr⟩
    | sibling => exact ⟨he, hl, ihs hs⟩

end Holds

/-! ## Trees and paths -/

theorem trace_append (path path' : List Direction) :
    s.trace head (path ++ path') = s.trace (s.trace head path) path' := by
  induction path generalizing head with
  | nil => rfl
  | cons d path ih => exact ih

theorem isTree_of_holds (hh : s.Holds (some h) t) (hn : t.handles.Nodup) : s.IsTree h where
  live path k hp := by
    rw [hh.trace_eq] at hp
    exact hh.isLive k (Tree.mem_handles_iff.mpr ⟨path, hp⟩)
  unshared path path' k hp hp' := by
    rw [hh.trace_eq] at hp hp'
    exact Tree.reach_inj hn hp hp'

/-- Paths that stay short enough lead through a tree. -/
theorem exists_holds (n : Nat) (head : Option Handle)
    (hb : ∀ path k, s.trace head path = some k → path.length < n ∧ s.isLive k) :
    ∃ t, s.Holds head t := by
  induction n generalizing head with
  | zero =>
    cases head with
    | none => exact ⟨.empty, rfl⟩
    | some h => exact absurd (hb [] h rfl).1 (Nat.not_lt_zero _)
  | succ n ih =>
    cases head with
    | none => exact ⟨.empty, rfl⟩
    | some h =>
      have hbranch : ∀ d, ∃ t, s.Holds (s.link? d h) t := fun d =>
        ih _ fun path k hp => by
          have hlong := hb (d :: path) k hp
          exact ⟨by simpa using hlong.1, hlong.2⟩
      obtain ⟨siblings, hs⟩ := hbranch .sibling
      obtain ⟨rest, hr⟩ := hbranch .next
      exact ⟨.node h siblings rest, rfl, (hb [] h rfl).2, hs, hr⟩

/-- A path passes different segments, so it is shorter than there are cells. -/
theorem IsTree.length_lt (ht : s.IsTree h) {path : List Direction} {k : Handle}
    (hp : s.trace (some h) path = some k) : path.length < s.cells.size := by
  have hpart : ∀ i, ∃ a, s.trace (some h) (path.take i) = some a := by
    intro i
    rw [← List.take_append_drop i path, trace_append] at hp
    cases ha : s.trace (some h) (path.take i) with
    | none => rw [ha] at hp; simp at hp
    | some a => exact ⟨a, rfl⟩
  choose passed hpassed using hpart
  have hn : ((List.range (path.length + 1)).map passed).Nodup := by
    refine List.Nodup.map_on (fun i hi j hj he => ?_) List.nodup_range
    have htake := ht.unshared _ _ _ (hpassed i) (he ▸ hpassed j)
    have hlen := congrArg List.length htake
    simp only [List.length_take, List.mem_range] at hlen hi hj
    omega
  have hle := length_le_size hn fun a ha => by
    obtain ⟨i, -, rfl⟩ := List.mem_map.mp ha
    have hl := ht.live _ _ (hpassed i)
    exact ⟨nonneg_of_isLive hl, lt_size_of_isLive hl⟩
  rw [List.length_map, List.length_range] at hle
  exact hle

theorem isTree_iff : s.IsTree h ↔ ∃ t, s.Holds (some h) t ∧ t.handles.Nodup := by
  constructor
  · intro ht
    obtain ⟨t, hh⟩ := exists_holds (s := s) s.cells.size (some h) fun path k hp =>
      ⟨ht.length_lt hp, ht.live path k hp⟩
    refine ⟨t, hh, Tree.nodup_of_reach_inj fun path path' k hp hp' => ?_⟩
    rw [← hh.trace_eq] at hp hp'
    exact ht.unshared path path' k hp hp'
  · rintro ⟨t, hh, hn⟩
    exact isTree_of_holds hh hn

end Store

end XPathAssembly
