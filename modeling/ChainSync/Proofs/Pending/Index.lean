import ChainSync.Pending.Index
import Mathlib.Data.List.Nodup

/-!
# Looking up filed ranges

What filing a range and removing keys do to the range under any level and key. An index with no
level that is without a range is told by its ranges alone, and the number of ranges is that of the
places where one is. Filing and removing keep every range under its first block.
-/

namespace ChainSync
namespace PendingIndex

theorem range?_empty (level : UInt64) (key : Digest) : empty.range? level key = none := by
  simp [range?, load, empty]

/-- A range that is filed stands under its first block, and nothing else changes. -/
theorem range?_insert {index filed : PendingIndex} {first : Block} {rest : List Block}
    {level : UInt64} (h : index.insert (first :: rest) = some (level, filed)) :
    level = first.number ∧ ∀ l k, filed.range? l k =
      if l = first.number ∧ k = first.hash then some (first :: rest) else index.range? l k := by
  simp only [insert] at h
  split at h
  · cases h
  · cases h
    refine ⟨rfl, fun l k ↦ ?_⟩
    by_cases hl : first.number = l
    · subst hl
      by_cases hk : first.hash = k
      · subst hk
        simp [range?, load]
      · simp [range?, load, Std.ExtTreeMap.getElem?_insert, hk, Ne.symm hk]
    · simp [range?, load, Std.ExtTreeMap.getElem?_insert, hl, Ne.symm hl]

/-- A range that is not filed is empty, or one as long is there. -/
theorem insert_eq_none_iff {index : PendingIndex} {first : Block} {rest : List Block} :
    index.insert (first :: rest) = none ↔
      ∃ held, index.range? first.number first.hash = some held ∧
        (first :: rest).length ≤ held.length := by
  simp only [insert, range?]
  cases (index.load first.number)[first.hash]? with
  | none => simp
  | some held => simp

/-- A range is filed in the empty index. -/
theorem exists_insert_empty (first : Block) (rest : List Block) :
    ∃ filed, empty.insert (first :: rest) = some (first.number, filed) ∧
      filed.range? first.number first.hash = some (first :: rest) := by
  cases h : empty.insert (first :: rest) with
  | none =>
    obtain ⟨held, hheld, -⟩ := insert_eq_none_iff.mp h
    rw [range?_empty] at hheld
    cases hheld
  | some answer =>
    obtain ⟨level, filed⟩ := answer
    obtain ⟨rfl, hrange⟩ := range?_insert h
    exact ⟨filed, rfl, by rw [hrange, if_pos ⟨rfl, rfl⟩]⟩

theorem getElem?_foldl_erase (keys : List Digest) (queues : PendingQueues) (k : Digest) :
    (keys.foldl (fun queues key ↦ queues.erase key) queues)[k]? =
      if k ∈ keys then none else queues[k]? := by
  induction keys generalizing queues with
  | nil => simp
  | cons key rest ih =>
    rw [List.foldl_cons, ih]
    simp only [Std.ExtTreeMap.getElem?_erase, Std.LawfulEqOrd.compare_eq_iff_eq, List.mem_cons]
    by_cases hk : k ∈ rest
    · simp [hk]
    · by_cases he : key = k
      · simp [he]
      · simp [hk, he, Ne.symm he]

/-- Removing keys from a level leaves its other ranges, and the other levels. -/
theorem load_remove (index : PendingIndex) (level l : UInt64) (keys : List Digest) :
    (index.remove level keys).load l =
      if l = level then keys.foldl (fun queues key ↦ queues.erase key) (index.load l)
      else index.load l := by
  unfold remove load
  cases hq : index.levels[level]? with
  | none =>
    by_cases hl : l = level
    · subst hl
      rw [if_pos rfl, hq]
      apply Std.ExtTreeMap.ext_getElem?
      intro k
      rw [Option.getD_none, getElem?_foldl_erase]
      simp
    · rw [if_neg hl]
  | some queues =>
    dsimp only
    by_cases hl : l = level
    · subst hl
      rw [if_pos rfl, hq]
      split
      · next hempty =>
        rw [Std.ExtTreeMap.isEmpty_iff] at hempty
        simp [hempty]
      · simp
    · rw [if_neg hl]
      split <;> simp [Std.ExtTreeMap.getElem?_erase, Std.ExtTreeMap.getElem?_insert, Ne.symm hl]

theorem range?_remove (index : PendingIndex) (level : UInt64) (keys : List Digest) (l : UInt64)
    (k : Digest) :
    (index.remove level keys).range? l k =
      if l = level ∧ k ∈ keys then none else index.range? l k := by
  rw [range?, load_remove]
  by_cases hl : l = level
  · subst hl
    rw [if_pos rfl, getElem?_foldl_erase]
    simp [range?]
  · simp [hl, range?]

def IsFull (index : PendingIndex) : Prop :=
  ∀ (level : UInt64) (queues : PendingQueues), index.levels[level]? = some queues → queues ≠ ∅

/-- Two indices with the same ranges are the same, if none has a level without a range. -/
theorem ext_range? {a b : PendingIndex} (ha : a.IsFull) (hb : b.IsFull)
    (h : ∀ level key, a.range? level key = b.range? level key) : a = b := by
  have hload (level : UInt64) : a.load level = b.load level :=
    Std.ExtTreeMap.ext_getElem? fun key ↦ h level key
  have hlevels : a.levels = b.levels := by
    apply Std.ExtTreeMap.ext_getElem?
    intro level
    have hlevel := hload level
    unfold load at hlevel
    cases hleft : a.levels[level]? with
    | none =>
      cases hright : b.levels[level]? with
      | none => rfl
      | some queues =>
        rw [hleft, hright] at hlevel
        exact absurd hlevel.symm (hb level queues hright)
    | some queues =>
      cases hright : b.levels[level]? with
      | none =>
        rw [hleft, hright] at hlevel
        exact absurd hlevel (ha level queues hleft)
      | some others =>
        rw [hleft, hright] at hlevel
        exact congrArg some hlevel
  cases a
  cases b
  exact congrArg mk hlevels

theorem isFull_empty : empty.IsFull := by
  intro level queues h
  simp [empty] at h

theorem IsFull.insert {index filed : PendingIndex} (full : index.IsFull) {blocks : List Block}
    {level : UInt64} (h : index.insert blocks = some (level, filed)) : filed.IsFull := by
  cases blocks with
  | nil => cases h
  | cons first rest =>
    simp only [PendingIndex.insert] at h
    split at h
    · cases h
    · cases h
      intro l queues hl
      rw [Std.ExtTreeMap.getElem?_insert] at hl
      split at hl
      · cases hl
        exact Std.ExtTreeMap.insert_ne_empty
      · exact full l queues hl

/-- The index after a range was filed, if it was. -/
def filing (index : PendingIndex) (blocks : List Block) : PendingIndex :=
  ((index.insert blocks).map Prod.snd).getD index

/-- Filing a range or not leaves no level without one. -/
theorem IsFull.filing {index : PendingIndex} (full : index.IsFull) (blocks : List Block) :
    (index.filing blocks).IsFull := by
  unfold PendingIndex.filing
  cases h : index.insert blocks with
  | none => exact full
  | some filed => exact full.insert h

theorem IsFull.remove {index : PendingIndex} (full : index.IsFull) (level : UInt64)
    (keys : List Digest) : (index.remove level keys).IsFull := by
  unfold PendingIndex.remove
  cases hqueues : index.levels[level]? with
  | none => exact full
  | some queues =>
    dsimp only
    intro l others hl
    split at hl
    · rw [Std.ExtTreeMap.getElem?_erase] at hl
      split at hl
      · cases hl
      · exact full l others hl
    · next hne =>
      rw [Std.ExtTreeMap.getElem?_insert] at hl
      split at hl
      · cases hl
        rwa [Std.ExtTreeMap.isEmpty_iff] at hne
      · exact full l others hl

/-- Removing no key does nothing to an index in which no level is without a range. -/
theorem IsFull.remove_nil {index : PendingIndex} (full : index.IsFull) (level : UInt64) :
    index.remove level [] = index := by
  apply ext_range? (full.remove level []) full
  intro l k
  simp [range?_remove]

/-- Every range is filed under its first block, and no level is without a range. -/
structure IsFiled (index : PendingIndex) : Prop where
  /-- No level is without a range. -/
  full : index.IsFull
  /-- A range is filed under the number and the hash of its first block. -/
  first {level : UInt64} {key : Digest} {blocks : List Block} :
    index.range? level key = some blocks →
      ∃ first rest, blocks = first :: rest ∧ level = first.number ∧ key = first.hash

theorem isFiled_empty : empty.IsFiled where
  full := isFull_empty
  first h := by
    rw [range?_empty] at h
    cases h

theorem IsFiled.insert {index filed : PendingIndex} (isFiled : index.IsFiled) {blocks : List Block}
    {level : UInt64} (h : index.insert blocks = some (level, filed)) : filed.IsFiled := by
  cases blocks with
  | nil => cases h
  | cons first rest =>
    obtain ⟨-, hrange⟩ := range?_insert h
    refine ⟨isFiled.full.insert h, ?_⟩
    intro l k others hl
    rw [hrange] at hl
    split at hl
    · next hat =>
      cases hl
      exact ⟨first, rest, rfl, hat.1, hat.2⟩
    · exact isFiled.first hl

/-- Filing a range or not keeps every range under its first block. -/
theorem IsFiled.filing {index : PendingIndex} (isFiled : index.IsFiled) (blocks : List Block) :
    (index.filing blocks).IsFiled := by
  unfold PendingIndex.filing
  cases h : index.insert blocks with
  | none => exact isFiled
  | some filed => exact isFiled.insert h

theorem range?_of_range?_remove {index : PendingIndex} {level l : UInt64} {keys : List Digest}
    {k : Digest} {blocks : List Block} (h : (index.remove level keys).range? l k = some blocks) :
    index.range? l k = some blocks := by
  rw [range?_remove] at h
  split at h
  · cases h
  · exact h

theorem IsFiled.remove {index : PendingIndex} (isFiled : index.IsFiled) (level : UInt64)
    (keys : List Digest) : (index.remove level keys).IsFiled where
  full := isFiled.full.remove level keys
  first h := isFiled.first (range?_of_range?_remove h)

theorem mem_toList {index : PendingIndex} {level : UInt64} {blocks : List Block} :
    (level, blocks) ∈ index.toList ↔ ∃ key, index.range? level key = some blocks := by
  simp only [toList, List.mem_flatMap, List.mem_map, Prod.mk.injEq, range?, load]
  constructor
  · rintro ⟨⟨l, queues⟩, hqueues, ⟨key, others⟩, hothers, rfl, rfl⟩
    rw [Std.ExtTreeMap.mem_toList_iff_getElem?_eq_some] at hqueues hothers
    refine ⟨key, ?_⟩
    rw [hqueues]
    exact hothers
  · rintro ⟨key, h⟩
    cases hqueues : index.levels[level]? with
    | none =>
      rw [hqueues] at h
      simp at h
    | some queues =>
      rw [hqueues] at h
      exact ⟨(level, queues), Std.ExtTreeMap.mem_toList_iff_getElem?_eq_some.mpr hqueues,
        (key, blocks), Std.ExtTreeMap.mem_toList_iff_getElem?_eq_some.mpr h, rfl, rfl⟩

/-! ### Places -/

/-- The levels and keys under which ranges are. -/
def places (index : PendingIndex) : List (UInt64 × Digest) :=
  index.levels.toList.flatMap fun entry ↦ entry.2.keys.map fun key ↦ (entry.1, key)

theorem mem_places {index : PendingIndex} {level : UInt64} {key : Digest} :
    (level, key) ∈ index.places ↔ (index.range? level key).isSome := by
  simp only [places, List.mem_flatMap, List.mem_map, Prod.mk.injEq, range?, load]
  constructor
  · rintro ⟨⟨l, queues⟩, hqueues, k, hk, rfl, rfl⟩
    rw [Std.ExtTreeMap.mem_toList_iff_getElem?_eq_some] at hqueues
    rw [Std.ExtTreeMap.mem_keys, Std.ExtTreeMap.mem_iff_isSome_getElem?] at hk
    rw [hqueues]
    exact hk
  · intro h
    cases hqueues : index.levels[level]? with
    | none =>
      rw [hqueues] at h
      simp at h
    | some queues =>
      rw [hqueues, Option.getD_some, ← Std.ExtTreeMap.mem_iff_isSome_getElem?,
        ← Std.ExtTreeMap.mem_keys] at h
      exact ⟨(level, queues), Std.ExtTreeMap.mem_toList_iff_getElem?_eq_some.mpr hqueues, key, h,
        rfl, rfl⟩

theorem nodup_places (index : PendingIndex) : index.places.Nodup := by
  rw [places, List.nodup_flatMap]
  constructor
  · intro entry _
    apply Std.ExtTreeMap.nodup_keys.map
    intro left right h
    exact (Prod.mk.inj h).2
  · apply Std.ExtTreeMap.distinct_keys_toList.imp
    intro left right hne place hleft hright
    obtain ⟨_, -, rfl⟩ := List.mem_map.mp hleft
    obtain ⟨_, -, h⟩ := List.mem_map.mp hright
    rw [Std.LawfulEqOrd.compare_eq_iff_eq] at hne
    exact hne (Prod.mk.inj h).1.symm

theorem length_places (index : PendingIndex) : index.places.length = index.count := by
  simp only [places, List.length_flatMap, List.length_map, Std.ExtTreeMap.length_keys]
  rfl

end PendingIndex
end ChainSync
