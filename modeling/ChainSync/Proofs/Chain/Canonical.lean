import ChainSync.Chain.Basic

/-!
# Both directions of the canonical index

What putting an entry and cutting above a height do to the look-ups in either direction, and that
both keep the two directions inverse to each other.
-/

namespace ChainSync
namespace Canonical

/-- The two directions of the index say the same. -/
def Inverse (c : Canonical) : Prop :=
  ∀ (n : UInt64) (h : Digest), c.byNumber[n]? = some h ↔ c.byHash[h]? = some n

/-- The empty index has the same entries in both directions: none. -/
theorem inverse_empty : Inverse empty := by
  simp [Inverse, empty]

/-- In an index with inverse directions a hash stands at one height only. -/
theorem Inverse.number_unique {c : Canonical} (hc : c.Inverse) {n m : UInt64} {h : Digest}
    (hn : c.byNumber[n]? = some h) (hm : c.byNumber[m]? = some h) : n = m := by
  rw [hc] at hn hm
  exact Option.some.inj (hn.symm.trans hm)

/-! ### Putting an entry -/

theorem byNumber_put (c : Canonical) (n m : UInt64) (h : Digest) :
    (c.put n h).byNumber[m]? = if n = m then some h else c.byNumber[m]? := by
  simp [put, Std.ExtTreeMap.getElem?_insert]

/-- The hash that is put stands at its height, and the one that stood there stands nowhere. -/
theorem byHash_put (c : Canonical) (n : UInt64) (h a : Digest) :
    (c.put n h).byHash[a]? =
      if h = a then some n else if c.byNumber[n]? = some a then none else c.byHash[a]? := by
  simp only [put, Std.ExtTreeMap.getElem?_insert, Std.LawfulEqOrd.compare_eq_iff_eq]
  by_cases ha : h = a
  · simp [ha]
  · cases hn : c.byNumber[n]? with
    | none => simp [ha]
    | some old =>
      simp only [ha, Std.ExtTreeMap.getElem?_erase, Std.LawfulEqOrd.compare_eq_iff_eq,
        Option.some.injEq]

/-- Putting a hash that stands at no other height keeps the directions inverse. -/
theorem inverse_put {c : Canonical} {n : UInt64} {h : Digest} (hc : c.Inverse)
    (hfree : ∀ m, c.byNumber[m]? = some h → m = n) : (c.put n h).Inverse := by
  intro m a
  rw [byNumber_put, byHash_put]
  by_cases ha : h = a
  · subst a
    by_cases hm : n = m
    · simp [hm]
    · have : c.byNumber[m]? ≠ some h := fun hx ↦ hm (hfree m hx).symm
      simp [hm, this]
  · by_cases hn : c.byNumber[n]? = some a
    · -- The hash that stood at the height is the one entry that both directions lose.
      by_cases hm : n = m
      · subst m
        simp [ha, hn]
      · have : c.byNumber[m]? ≠ some a := fun hx ↦ hm (hc.number_unique hn hx)
        simp [ha, hn, hm, this]
    · by_cases hm : n = m
      · subst m
        have : c.byHash[a]? ≠ some n := fun hx ↦ hn ((hc n a).mpr hx)
        simp [ha, hn, this]
      · simpa [ha, hn, hm] using hc m a

/-! ### Cutting above a height -/

theorem mem_above {c : Canonical} {n m : UInt64} {h : Digest} :
    (m, h) ∈ c.above n ↔ c.byNumber[m]? = some h ∧ n < m := by
  simp [above, Std.ExtTreeMap.mem_toList_iff_getElem?_eq_some]

theorem byNumber_foldl_remove (entries : List (UInt64 × Digest)) (c : Canonical) (m : UInt64) :
    (entries.foldl (fun c entry ↦ c.remove entry.1 entry.2) c).byNumber[m]? =
      if m ∈ entries.map Prod.fst then none else c.byNumber[m]? := by
  induction entries generalizing c with
  | nil => simp
  | cons entry rest ih =>
    rw [List.foldl_cons, ih]
    simp only [remove, Std.ExtTreeMap.getElem?_erase, Std.LawfulEqOrd.compare_eq_iff_eq,
      List.map_cons, List.mem_cons]
    by_cases hm : m ∈ rest.map Prod.fst
    · simp [hm]
    · by_cases he : entry.1 = m
      · simp [he]
      · simp [hm, he, Ne.symm he]

theorem byHash_foldl_remove (entries : List (UInt64 × Digest)) (c : Canonical) (h : Digest) :
    (entries.foldl (fun c entry ↦ c.remove entry.1 entry.2) c).byHash[h]? =
      if h ∈ entries.map Prod.snd then none else c.byHash[h]? := by
  induction entries generalizing c with
  | nil => simp
  | cons entry rest ih =>
    rw [List.foldl_cons, ih]
    simp only [remove, Std.ExtTreeMap.getElem?_erase, Std.LawfulEqOrd.compare_eq_iff_eq,
      List.map_cons, List.mem_cons]
    by_cases hm : h ∈ rest.map Prod.snd
    · simp [hm]
    · by_cases he : entry.2 = h
      · simp [he]
      · simp [hm, he, Ne.symm he]

theorem byNumber_cutAbove (c : Canonical) (n m : UInt64) :
    (c.cutAbove n).byNumber[m]? = if n < m then none else c.byNumber[m]? := by
  rw [cutAbove, byNumber_foldl_remove]
  by_cases hlt : n < m
  · cases hm : c.byNumber[m]? with
    | none => simp [hlt]
    | some h =>
      have : m ∈ (c.above n).map Prod.fst :=
        List.mem_map.mpr ⟨(m, h), mem_above.mpr ⟨hm, hlt⟩, rfl⟩
      simp [hlt, this]
  · have : m ∉ (c.above n).map Prod.fst := by
      intro hx
      obtain ⟨⟨k, h⟩, hk, rfl⟩ := List.mem_map.mp hx
      exact hlt (mem_above.mp hk).2
    simp [hlt, this]

/-- Cutting above a height keeps the directions inverse. -/
theorem inverse_cutAbove {c : Canonical} (hc : c.Inverse) (n : UInt64) :
    (c.cutAbove n).Inverse := by
  intro m h
  have hcut : h ∈ (c.above n).map Prod.snd ↔ ∃ k, c.byNumber[k]? = some h ∧ n < k := by
    constructor
    · intro hx
      obtain ⟨⟨k, a⟩, hk, rfl⟩ := List.mem_map.mp hx
      exact ⟨k, mem_above.mp hk⟩
    · rintro ⟨k, hk⟩
      exact List.mem_map.mpr ⟨(k, h), mem_above.mpr hk, rfl⟩
  rw [byNumber_cutAbove, cutAbove, byHash_foldl_remove]
  by_cases hx : ∃ k, c.byNumber[k]? = some h ∧ n < k
  · obtain ⟨k, hk, hlt⟩ := hx
    rw [if_pos (hcut.mpr ⟨k, hk, hlt⟩)]
    by_cases hm : n < m
    · simp [hm]
    · have : c.byNumber[m]? ≠ some h := fun hy ↦ hm (hc.number_unique hk hy ▸ hlt)
      simp [hm, this]
  · rw [if_neg (fun hy ↦ hx (hcut.mp hy))]
    by_cases hm : n < m
    · have : c.byHash[h]? ≠ some m := fun hy ↦ hx ⟨m, (hc m h).mpr hy, hm⟩
      simp [hm, this]
    · simpa [hm] using hc m h

end Canonical
end ChainSync
