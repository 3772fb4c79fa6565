import ChainSync.Proofs.RecentSet

/-!
# The window of the latest insertions

A key enters a set when it is added and found absent; look-ups and keys that are present change
nothing. Main statement: after every sequence of calls a set holds the keys that entered it last, as
many as it has room for, so that a key stays until so many others entered after it. The same keys
are held in any cache that pushes out the key put least recently, as long as only absent keys are
put into it.
-/

namespace ChainSync

/-- A call of a set of the latest insertions. -/
inductive RecentCall (α : Type) where
  /-- A key is added. -/
  | insert (key : α)
  /-- A key is added, and the answer is whether it was absent. -/
  | check (key : α)
  /-- A key is looked up. -/
  | contains (key : α)

namespace RecentCall

variable {α : Type} [DecidableEq α]

def leaves (s : RecentSet α) : RecentCall α → RecentSet α
  | insert key => s.insert key
  | check key => (s.checkInsert key).2
  | contains _ => s

def answer? (s : RecentSet α) : RecentCall α → Option Bool
  | insert _ => none
  | check key => some (s.checkInsert key).1
  | contains key => some (s.contains key)

/-- The key that enters the set by a call: one that is added and was absent. -/
def entering? (s : RecentSet α) : RecentCall α → Option α
  | insert key | check key => if key ∈ s.keys then none else some key
  | contains _ => none

end RecentCall

namespace RecentSet

variable {α : Type} [DecidableEq α]

def afterCalls (s : RecentSet α) (calls : List (RecentCall α)) : RecentSet α :=
  calls.foldl RecentCall.leaves s

def answers : RecentSet α → List (RecentCall α) → List (Option Bool)
  | _, [] => []
  | s, call :: calls => call.answer? s :: answers (call.leaves s) calls

/-- The keys that enter by calls one after the other, earliest first. -/
def entering : RecentSet α → List (RecentCall α) → List α
  | _, [] => []
  | s, call :: calls => (call.entering? s).toList ++ entering (call.leaves s) calls

/-! ### The window -/

/-- A set that had room for these keys only holds the last of those that entered it. -/
structure Window (s : RecentSet α) (past : List α) : Prop where
  /-- The keys are the ones that entered last, latest first. -/
  keys : s.keys = past.reverse.take s.capacity
  /-- They differ from each other and from the key that was pushed out last. -/
  distinct : (past.reverse.take (s.capacity + 1)).Nodup

@[simp] theorem capacity_leaves (s : RecentSet α) (call : RecentCall α) :
    (call.leaves s).capacity = s.capacity := by
  cases call with
  | insert key => exact s.capacity_insert key
  | check key => exact s.capacity_insert key
  | contains key => rfl

@[simp] theorem capacity_afterCalls (s : RecentSet α) (calls : List (RecentCall α)) :
    (s.afterCalls calls).capacity = s.capacity :=
  List.foldlRecOn (motive := fun t : RecentSet α ↦ t.capacity = s.capacity) calls RecentCall.leaves
    rfl fun t ht call _ ↦ (t.capacity_leaves call).trans ht

theorem entering_append (s : RecentSet α) (calls more : List (RecentCall α)) :
    s.entering (calls ++ more) = s.entering calls ++ (s.afterCalls calls).entering more := by
  induction calls generalizing s with
  | nil => rfl
  | cons call calls ih =>
    rw [List.cons_append, entering, entering, ih, List.append_assoc]
    rfl

namespace Window

variable {s : RecentSet α} {past : List α} {key : α}

omit [DecidableEq α] in
theorem empty (capacity : Nat) : (RecentSet.empty capacity : RecentSet α).Window [] :=
  ⟨by simp [RecentSet.empty], by simp⟩

theorem insert (h : s.Window past) (key : α) :
    (s.insert key).Window (past ++ (if key ∈ s.keys then none else some key).toList) := by
  unfold RecentSet.insert
  by_cases hkey : key ∈ s.keys
  · rw [if_pos (contains_iff.mpr hkey), if_pos hkey]
    simpa using h
  · rw [if_neg (mt contains_iff.mp hkey), if_neg hkey]
    have hreverse : (past ++ (some key).toList).reverse = key :: past.reverse := by simp
    constructor
    · rw [hreverse, h.keys]
      cases s.capacity with
      | zero => rfl
      | succ n => simp [List.take_take]
    · rw [hreverse, List.take_succ_cons, List.nodup_cons, ← h.keys]
      refine ⟨hkey, ?_⟩
      rw [h.keys]
      exact h.distinct.sublist (List.take_sublist_take_left (Nat.le_succ _))

theorem leaves (h : s.Window past) (call : RecentCall α) :
    (call.leaves s).Window (past ++ (call.entering? s).toList) := by
  cases call with
  | insert key => exact h.insert key
  | check key => exact h.insert key
  | contains key => simpa [RecentCall.leaves, RecentCall.entering?] using h

theorem afterCalls (h : s.Window past) (calls : List (RecentCall α)) :
    (s.afterCalls calls).Window (past ++ s.entering calls) := by
  induction calls generalizing s past with
  | nil => simpa [RecentSet.afterCalls, entering] using h
  | cons call calls ih =>
    have hrest := ih (h.leaves call)
    rwa [List.append_assoc] at hrest

/-- A key that entered is present while fewer keys than there is room for entered after it, and
absent when so many did. -/
theorem contains_iff_length_lt {later : List α} (h : s.Window (past ++ key :: later))
    (few : later.length ≤ s.capacity) : s.contains key = true ↔ later.length < s.capacity := by
  have hreverse : (past ++ key :: later).reverse = later.reverse ++ key :: past.reverse := by simp
  rw [contains_iff, h.keys, hreverse, List.take_append, List.length_reverse,
    List.take_of_length_le (by simpa using few)]
  constructor
  · intro hmem
    by_contra hfull
    have hall : later.length = s.capacity := Nat.le_antisymm few (Nat.not_lt.mp hfull)
    -- With the key that was pushed out last the keys are still different.
    have hdistinct := h.distinct
    rw [hreverse, List.take_append, List.length_reverse, hall, Nat.add_sub_cancel_left,
      List.take_of_length_le (by simp [hall]), List.nodup_append] at hdistinct
    rw [hall, Nat.sub_self, List.take_zero, List.append_nil] at hmem
    exact hdistinct.2.2 key hmem key (by simp) rfl
  · intro hroom
    obtain ⟨n, hn⟩ := Nat.exists_eq_add_of_lt hroom
    rw [hn, Nat.add_assoc, Nat.add_sub_cancel_left, List.take_succ_cons]
    exact List.mem_append_right _ List.mem_cons_self

end Window
end RecentSet

/-! ### Kept in a cache -/

/-- A cache of keys. Looking a key up leaves its state. -/
structure KeyCache (α σ : Type) where
  /-- The keys in a state, the one put last first. -/
  keys : σ → List α
  /-- Is a key present? -/
  contains : σ → α → Bool
  /-- The state after a key is put. -/
  put : σ → α → σ

namespace KeyCache

variable {α σ : Type}

/-- A look-up finds the keys, and an absent key that is put pushes out the one that was put least
recently when there is no room for it. Nothing is asked of a key that is put while it is present. -/
structure EvictsOldest (c : KeyCache α σ) (capacity : Nat) : Prop where
  /-- A look-up finds the keys. -/
  contains_iff (state : σ) (key : α) : c.contains state key = true ↔ key ∈ c.keys state
  /-- An absent key comes first, and the last one goes if there is no room. -/
  keys_put (state : σ) (key : α) : key ∉ c.keys state →
    c.keys (c.put state key) = (key :: c.keys state).take capacity

def insert (c : KeyCache α σ) (state : σ) (key : α) : σ :=
  if c.contains state key then state else c.put state key

def leaves (c : KeyCache α σ) (state : σ) : RecentCall α → σ
  | .insert key | .check key => c.insert state key
  | .contains _ => state

def answer? (c : KeyCache α σ) (state : σ) : RecentCall α → Option Bool
  | .insert _ => none
  | .check key => some !c.contains state key
  | .contains key => some (c.contains state key)

def afterCalls (c : KeyCache α σ) (state : σ) (calls : List (RecentCall α)) : σ :=
  calls.foldl c.leaves state

def answers (c : KeyCache α σ) : σ → List (RecentCall α) → List (Option Bool)
  | _, [] => []
  | state, call :: calls => c.answer? state call :: answers c (c.leaves state call) calls

variable [DecidableEq α] {c : KeyCache α σ} {state : σ} {s : RecentSet α}

/-- A cache with the keys of a set answers every call as the set does, and keeps its keys. -/
theorem EvictsOldest.leaves (evicts : c.EvictsOldest s.capacity) (same : c.keys state = s.keys)
    (call : RecentCall α) : c.answer? state call = call.answer? s ∧
      c.keys (c.leaves state call) = (call.leaves s).keys := by
  have hcontains (key : α) : c.contains state key = s.contains key := by
    rw [Bool.eq_iff_iff, evicts.contains_iff, same, RecentSet.contains_iff]
  have hinsert (key : α) : c.keys (c.insert state key) = (s.insert key).keys := by
    unfold insert RecentSet.insert
    rw [hcontains]
    split
    · exact same
    · next habsent =>
      have hkey : key ∉ c.keys state := by rwa [same, ← RecentSet.contains_iff]
      rw [evicts.keys_put state key hkey, same]
  cases call with
  | insert key => exact ⟨rfl, hinsert key⟩
  | check key => exact ⟨congrArg (fun b ↦ some !b) (hcontains key), hinsert key⟩
  | contains key => exact ⟨congrArg some (hcontains key), same⟩

/-- A cache with the keys of a set answers all calls as the set does, and keeps its keys. -/
theorem EvictsOldest.afterCalls (evicts : c.EvictsOldest s.capacity)
    (same : c.keys state = s.keys) (calls : List (RecentCall α)) :
    c.answers state calls = s.answers calls ∧
      c.keys (c.afterCalls state calls) = (s.afterCalls calls).keys := by
  induction calls generalizing state s with
  | nil => exact ⟨rfl, same⟩
  | cons call calls ih =>
    obtain ⟨hanswer, hkeys⟩ := evicts.leaves same call
    obtain ⟨hanswers, hrest⟩ := ih ((s.capacity_leaves call).symm ▸ evicts) hkeys
    exact ⟨congrArg₂ List.cons hanswer hanswers, hrest⟩

end KeyCache

namespace RecentSet

/-- After every sequence of calls it holds the keys that entered last, as many as it has room for
and in order, and adding a key answers whether it enters. A key that entered stays until as many as
there is room for entered after it, whatever is looked up or added again in between. A cache that
pushes out the key put least recently holds the same keys and gives the same answers, since only
absent keys are put into it. -/
theorem window_afterCalls {α σ : Type} [DecidableEq α] {cache : KeyCache α σ} {capacity : Nat}
    {start : σ} (evicts : cache.EvictsOldest (max capacity 1)) (vacant : cache.keys start = [])
    (calls : List (RecentCall α)) :
    let s := (empty capacity).afterCalls calls
    let past := (empty capacity).entering calls
    cache.answers start calls = (empty capacity).answers calls ∧
      cache.keys (cache.afterCalls start calls) = s.keys ∧
      s.keys = past.reverse.take (max capacity 1) ∧
      (∀ key, (s.checkInsert key).1 = true ↔ (RecentCall.check key).entering? s = some key) ∧
      ∀ before call after key, calls = before ++ call :: after →
        call.entering? ((empty capacity).afterCalls before) = some key →
        let later := ((empty capacity).afterCalls (before ++ [call])).entering after
        later.length ≤ max capacity 1 →
          (s.contains key = true ↔ later.length < max capacity 1) := by
  intro s past
  have hwindow (calls : List (RecentCall α)) :
      ((empty capacity).afterCalls calls).Window ((empty capacity).entering calls) :=
    (Window.empty capacity).afterCalls calls
  have hcapacity : s.capacity = max capacity 1 := capacity_afterCalls _ calls
  obtain ⟨hanswers, hkeys⟩ := evicts.afterCalls (s := empty capacity) vacant calls
  refine ⟨hanswers, hkeys, ?_, ?_, ?_⟩
  · rw [← hcapacity]
    exact (hwindow calls).keys
  · intro key
    rw [checkInsert, Bool.not_eq_true', ← Bool.not_eq_true, contains_iff, RecentCall.entering?]
    split <;> simp_all
  · intro before call after key hcalls hentering later few
    have hthen := hwindow calls
    have hafter : (empty capacity).afterCalls (before ++ [call]) =
        call.leaves ((empty capacity).afterCalls before) := by
      simp [afterCalls]
    have hpast : (empty capacity).entering calls =
        (empty capacity).entering before ++ key :: later := by
      rw [hcalls, entering_append, entering, hentering, ← hafter]
      rfl
    rw [hpast] at hthen
    rw [← hcapacity] at few ⊢
    exact hthen.contains_iff_length_lt few

/-- A cache of two keys as a list. A key that is put comes first, also one that was present. -/
def pairCache : KeyCache Nat (List Nat) where
  keys keys := keys
  contains keys key := keys.contains key
  put keys key := (key :: keys.erase key).take 2

/-- Two keys, the first one once more, a third one, and the first one again. -/
def returning : List (RecentCall Nat) :=
  [.insert 1, .insert 2, .check 1, .contains 1, .insert 3, .contains 1, .check 1]

/-- The first key is not refreshed while it is present, so that the third one pushes it out, and it
enters a second time. -/
theorem window_afterCalls_returning :
    pairCache.EvictsOldest (max 2 1) ∧ pairCache.keys [] = [] ∧
      pairCache.answers [] returning =
        [none, none, some false, some true, none, some false, some true] ∧
      pairCache.keys (pairCache.afterCalls [] returning) = [1, 3] ∧
      (empty 2).entering returning = [1, 2, 3, 1] ∧
      ((empty 2).afterCalls returning).keys = [1, 2, 3, 1].reverse.take 2 := by
  have hevicts : pairCache.EvictsOldest (max 2 1) := by
    refine ⟨fun _ _ ↦ List.contains_iff_mem, fun keys key habsent ↦ ?_⟩
    exact congrArg (fun l ↦ (key :: l).take 2) (List.erase_of_not_mem habsent)
  obtain ⟨-, -, hkeys, -⟩ := window_afterCalls hevicts rfl returning
  exact ⟨hevicts, rfl, by decide, by decide, by decide, hkeys⟩

end RecentSet
end ChainSync
