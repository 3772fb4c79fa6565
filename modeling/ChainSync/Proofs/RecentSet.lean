import ChainSync.RecentSet
import Mathlib.Data.Finset.Card

/-!
# What a set of the latest insertions holds

A set holds nothing but keys that were added to it. As long as there is room for every key that
was ever added, it holds each of them once; a key is pushed out only by more keys than that.
-/

namespace ChainSync
namespace RecentSet

variable {α : Type} [DecidableEq α] {key : α}

theorem contains_iff {s : RecentSet α} : s.contains key = true ↔ key ∈ s.keys :=
  List.contains_iff_mem

@[simp] theorem capacity_insert (s : RecentSet α) (key : α) :
    (s.insert key).capacity = s.capacity := by
  unfold insert
  split <;> rfl

@[simp] theorem capacity_insertAll (s : RecentSet α) (keys : List α) :
    (s.insertAll keys).capacity = s.capacity := by
  induction keys generalizing s with
  | nil => rfl
  | cons key rest ih => exact (ih (s.insert key)).trans (capacity_insert s key)

/-- The keys of a set after insertions were there before or are among those inserted. -/
theorem mem_of_mem_insertAll (keys : List α) :
    ∀ {s : RecentSet α}, key ∈ (s.insertAll keys).keys → key ∈ s.keys ∨ key ∈ keys := by
  induction keys with
  | nil => exact fun h ↦ .inl h
  | cons first rest ih =>
    intro s h
    rcases ih (s := s.insert first) h with hs | hrest
    · rw [RecentSet.insert] at hs
      split at hs
      · exact .inl hs
      · rcases List.mem_cons.mp (List.mem_of_mem_take hs) with rfl | hs
        · exact .inr List.mem_cons_self
        · exact .inl hs
    · exact .inr (List.mem_cons_of_mem _ hrest)

/-- The set holds each of these keys once, and no other key. -/
structure Holds (s : RecentSet α) (added : List α) : Prop where
  /-- No key is there twice. -/
  nodup : s.keys.Nodup
  /-- The keys are those added. -/
  mem_iff {key : α} : key ∈ s.keys ↔ key ∈ added

omit [DecidableEq α] in
theorem holds_nil {s : RecentSet α} (h : s.keys = []) : s.Holds [] :=
  ⟨h ▸ List.nodup_nil, by simp [h]⟩

namespace Holds

variable {s : RecentSet α} {added : List α}

theorem insert (holds : s.Holds added) (room : (added ++ [key]).toFinset.card ≤ s.capacity) :
    (s.insert key).Holds (added ++ [key]) := by
  unfold RecentSet.insert
  by_cases hkey : key ∈ s.keys
  · rw [if_pos (contains_iff.mpr hkey)]
    refine ⟨holds.nodup, fun {k} ↦ ?_⟩
    rw [holds.mem_iff, List.mem_append, List.mem_singleton, or_iff_left_of_imp]
    rintro rfl
    exact holds.mem_iff.mp hkey
  · have hnodup : (key :: s.keys).Nodup := List.nodup_cons.mpr ⟨hkey, holds.nodup⟩
    have hmem {k : α} : k ∈ key :: s.keys ↔ k ∈ added ++ [key] := by
      rw [List.mem_cons, holds.mem_iff, List.mem_append, List.mem_singleton, or_comm]
    have hlength : (key :: s.keys).length ≤ s.capacity := by
      rw [← List.toFinset_card_of_nodup hnodup]
      have hset : (key :: s.keys).toFinset = (added ++ [key]).toFinset := by
        ext k
        rw [List.mem_toFinset, List.mem_toFinset, hmem]
      rwa [hset]
    rw [if_neg (mt contains_iff.mp hkey), List.take_of_length_le hlength]
    exact ⟨hnodup, hmem⟩

/-- With room for them keys are added and push none out. -/
theorem insertAll {keys : List α} :
    ∀ {s : RecentSet α} {added : List α}, s.Holds added →
      (added ++ keys).toFinset.card ≤ s.capacity → (s.insertAll keys).Holds (added ++ keys) := by
  induction keys with
  | nil =>
    intro s added holds _
    rw [List.append_nil]
    exact holds
  | cons key rest ih =>
    intro s added holds room
    rw [List.append_cons] at room ⊢
    have hfirst : (added ++ [key]).toFinset.card ≤ s.capacity := by
      refine le_trans (Finset.card_le_card fun k hk ↦ ?_) room
      rw [List.mem_toFinset] at hk ⊢
      exact List.mem_append_left _ hk
    exact ih (holds.insert hfirst) (by rwa [capacity_insert])

end Holds
end RecentSet
end ChainSync
