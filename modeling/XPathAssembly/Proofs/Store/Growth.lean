import XPathAssembly.Chain
import XPathAssembly.Proofs.Store.Calls

/-!
# Growth

While chains are built no segment is lost.  A call that inserts adds its segments to those that are
live (`Added`), and a call that joins sets links and leaves all segments as they are (`Preserved`).
What was added by calls one after the other is what each of them has added.

    Added s hs gs s' → Added s' hs' gs' s'' → Added s (hs ++ hs') (gs ++ gs') s''  (Added.append)
-/

namespace XPathAssembly

namespace Store

/-! ## Segments that stay -/

/-- Each live segment of `s` is in `s'` as it is. -/
def Preserved (s s' : Store) : Prop := ∀ k : Int, s.isLive k → s'.get? k = s.get? k

section
variable {s s' s'' : Store} {d : Direction} {h k : Int} {e : Ends} {ends answer : Option Ends}
  {g : Segment} {heads : List Handle}

namespace Preserved

theorem refl (s : Store) : Preserved s s := fun _ _ => rfl

theorem isLive (hp : Preserved s s') (hl : s.isLive k) : s'.isLive k := by
  unfold Store.isLive
  rw [hp k hl]
  exact hl

theorem trans (hp : Preserved s s') (hp' : Preserved s' s'') : Preserved s s'' :=
  fun k hl => (hp' k (hp.isLive hl)).trans (hp k hl)

theorem map_get? (hp : Preserved s s') (hl : ∀ k ∈ heads, s.isLive k) :
    heads.map s'.get? = heads.map s.get? :=
  List.map_congr_left fun k hk => hp k (hl k hk)

end Preserved

theorem Inserted.preserved (hi : Inserted s g h s') : Preserved s s' :=
  fun _ hl => get?_congr (hi.cell?_eq hl)

theorem preserved_of_extend (hx : extend d ends h s = .ok e s') : Preserved s s' := by
  cases ends with
  | none =>
    cases hx
    exact .refl _
  | some e =>
    obtain ⟨_, _, hconnect, hx⟩ := (Call.bind_eq_ok_iff _ _ _).mp hx
    cases hx
    obtain ⟨hl, -, rfl⟩ := connect_eq_ok_iff.mp hconnect
    exact fun k _ => get?_withLink (nonneg_of_isLive hl)

theorem preserved_of_extendAll (hx : extendAll d ends heads s = .ok answer s') :
    Preserved s s' := by
  induction heads generalizing ends s with
  | nil =>
    cases hx
    exact .refl _
  | cons h rest ih =>
    obtain ⟨e, s1, hext, hx⟩ := (Call.bind_eq_ok_iff _ _ _).mp hx
    exact (preserved_of_extend hext).trans (ih hx)

end

/-! ## Segments that are added -/

/-- The segments `gs` are new in `s'`, under the handles `hs`, and those of `s` are kept. -/
structure Added (s : Store) (hs : List Handle) (gs : List Segment) (s' : Store) : Prop where
  fresh : ∀ h ∈ hs, s.isLive h = false
  nodup : hs.Nodup
  found : hs.map s'.get? = gs.map some
  kept : Preserved s s'

section
variable {s s' s'' : Store} {h : Int} {g : Segment} {hs hs' : List Handle} {gs gs' : List Segment}

theorem Preserved.added (hp : Preserved s s') : Added s [] [] s' :=
  ⟨nofun, List.nodup_nil, rfl, hp⟩

theorem Inserted.added (hi : Inserted s g h s') : Added s [h] [g] s' where
  fresh k hk := by
    rw [List.mem_singleton.mp hk]
    exact hi.fresh
  nodup := List.nodup_singleton h
  found := congrArg (fun x => [x]) hi.found
  kept := hi.preserved

namespace Added

/-- What was live before is none of the new segments. -/
theorem not_mem (ha : Added s hs gs s') (hl : s.isLive h) : h ∉ hs := by
  intro hm
  rw [ha.fresh h hm] at hl
  cases hl

theorem isLive (ha : Added s hs gs s') : ∀ h ∈ hs, s'.isLive h := by
  intro h hh
  have hm : s'.get? h ∈ hs.map s'.get? := List.mem_map_of_mem hh
  rw [ha.found] at hm
  obtain ⟨g, -, hg⟩ := List.mem_map.mp hm
  exact isLive_iff.mpr ⟨g, hg.symm⟩

theorem append (ha : Added s hs gs s') (ha' : Added s' hs' gs' s'') :
    Added s (hs ++ hs') (gs ++ gs') s'' where
  fresh h hh := by
    rcases List.mem_append.mp hh with hh | hh
    · exact ha.fresh h hh
    · have hd := ha'.fresh h hh
      by_contra hl
      rw [ha.kept.isLive (by simpa using hl)] at hd
      cases hd
  nodup := by
    refine List.nodup_append.mpr ⟨ha.nodup, ha'.nodup, ?_⟩
    rintro h hh _ hh' rfl
    exact ha'.not_mem (ha.isLive h hh) hh'
  found := by
    rw [List.map_append, List.map_append, ha'.found, ha'.kept.map_get? ha.isLive, ha.found]
  kept := ha.kept.trans ha'.kept

theorem preserved (ha : Added s hs gs s') (hp : Preserved s' s'') : Added s hs gs s'' := by
  have h := ha.append hp.added
  rwa [List.append_nil, List.append_nil] at h

end Added

end

end Store

end XPathAssembly
