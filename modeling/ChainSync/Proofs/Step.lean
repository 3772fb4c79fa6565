import ChainSync.Fault

/-!
# Running steps

What each way of building a step does to the state it is run from. A run of a step is its outcome
paired with the state it leaves; sequencing stops at the first fault and keeps that state. A
checked sum answers exactly the sum of the numbers, and faults exactly when it does not fit. A run
of events is a fold over the first of them.
-/

namespace ChainSync

/-- A checked sum answers the word that is the sum of the numbers. -/
theorem checkedAdd_eq_ok_iff {a b c : UInt64} :
    checkedAdd a b = .ok c ↔ c.toNat = a.toNat + b.toNat := by
  constructor
  · exact toNat_of_checkedAdd_eq_ok
  · intro h
    have hlt : a.toNat + b.toNat < UInt64.size := h ▸ c.toNat_lt
    rw [isOk_checkedAdd_iff.mpr hlt]
    congr 1
    apply UInt64.toNat_inj.mp
    rw [h, UInt64.toNat_add, Nat.mod_eq_of_lt hlt]

/-- A checked sum faults exactly when the sum of the numbers does not fit. -/
theorem checkedAdd_eq_error_iff {a b : UInt64} {e : Fault} :
    checkedAdd a b = .error e ↔ UInt64.size ≤ a.toNat + b.toNat ∧ e = .additionOverflow := by
  unfold checkedAdd
  split
  · simp
    omega
  · simp [eq_comm]
    omega

theorem toNat_ofNat_le (n : Nat) : (UInt64.ofNat n).toNat ≤ n := by
  rw [UInt64.toNat_ofNat']
  exact Nat.mod_le ..

section

variable {σ ε : Type} {events : List ε} {i : Nat}

theorem foldl_take_succ {event : ε} (h : events[i]? = some event) (next : σ → ε → σ) (s : σ) :
    (events.take (i + 1)).foldl next s = next ((events.take i).foldl next s) event := by
  rw [List.take_add_one, h, List.foldl_append]
  rfl

theorem foldl_take_succ_of_none (h : events[i]? = none) (next : σ → ε → σ) (s : σ) :
    (events.take (i + 1)).foldl next s = (events.take i).foldl next s := by
  rw [List.take_add_one, h, List.foldl_append]
  rfl

end

namespace Step

variable {σ τ α β : Type}

@[simp] theorem exec_pure (a : α) (s : σ) : (pure a : Step σ α).exec s = (.ok a, s) := rfl

/-- A step in sequence runs from the state that the one before it left. -/
theorem exec_bind (step : Step σ α) (next : α → Step σ β) (s : σ) :
    (step >>= next).exec s =
      match step.exec s with
      | (.ok a, t) => (next a).exec t
      | (.error e, t) => (.error e, t) := by
  change (ExceptT.bindCont next (step.exec s).1).run (step.exec s).2 = _
  cases step.exec s with
  | mk outcome t =>
    cases outcome with
    | ok a => rfl
    | error e => rfl

/-- After a step that answers, the rest runs from the state it left. -/
theorem exec_bind_of_ok {step : Step σ α} {s t : σ} {a : α} (h : step.exec s = (.ok a, t))
    (next : α → Step σ β) : (step >>= next).exec s = (next a).exec t := by
  rw [exec_bind, h]

theorem exec_bind_of_error {step : Step σ α} {s t : σ} {e : Fault}
    (h : step.exec s = (.error e, t)) (next : α → Step σ β) :
    (step >>= next).exec s = (.error e, t) := by
  rw [exec_bind, h]

/-- When a sequence answers, its first step did, and the rest did from the state it left. -/
theorem exists_exec_of_bind {step : Step σ α} {next : α → Step σ β} {s u : σ} {b : β}
    (h : (step >>= next).exec s = (.ok b, u)) :
    ∃ a t, step.exec s = (.ok a, t) ∧ (next a).exec t = (.ok b, u) := by
  rw [exec_bind] at h
  cases hx : step.exec s with
  | mk outcome t =>
    rw [hx] at h
    cases outcome with
    | ok a => exact ⟨a, t, rfl, h⟩
    | error e => cases h

/-- The state that a step leaves. -/
def leaves (step : Step σ α) (s : σ) : σ := (step.exec s).2

/-- A step that does not fault answers something. -/
theorem exists_exec_of_isOk {step : Step σ α} {s : σ} (h : (step.exec s).1.isOk = true) :
    ∃ a, step.exec s = (.ok a, step.leaves s) := by
  rw [leaves]
  cases hx : step.exec s with
  | mk outcome t =>
    rw [hx] at h
    cases outcome with
    | ok a => exact ⟨a, rfl⟩
    | error e => cases h

/-- Steps in sequence leave what the second one leaves, unless the first one faults. -/
theorem leaves_bind (step : Step σ α) (next : α → Step σ β) (s : σ) :
    (step >>= next).leaves s =
      match step.exec s with
      | (.ok a, t) => (next a).leaves t
      | (.error _, t) => t := by
  rw [leaves, exec_bind]
  cases step.exec s with
  | mk outcome t => cases outcome <;> rfl

/-- Answering a function of what a step answers keeps its faults and the state it left. -/
theorem exec_bind_pure (step : Step σ α) (f : α → β) (s : σ) :
    (step >>= fun a ↦ pure (f a)).exec s = ((step.exec s).1.map f, step.leaves s) := by
  rw [exec_bind, leaves]
  cases step.exec s with
  | mk outcome t => cases outcome <;> rfl

/-- Discarding the answer of a step keeps its faults and the state it left. -/
theorem exec_discard (step : Step σ α) (s : σ) :
    (discard step).exec s = ((step.exec s).1.map fun _ ↦ (), (step.exec s).2) := by
  have hmap : discard step = step >>= fun _ ↦ pure () := by
    rw [discard, map_const, Function.comp_apply, ← bind_pure_comp]
  rw [hmap, exec_bind_pure, leaves]

/-- Discarding the answer of a step keeps the state it left. -/
theorem exec_discard_of_ok {step : Step σ α} {s t : σ} {a : α} (h : step.exec s = (.ok a, t)) :
    (discard step).exec s = (.ok (), t) := by
  rw [exec_discard, h]
  rfl

@[simp] theorem exec_get (s : σ) : (get : Step σ σ).exec s = (.ok s, s) := rfl

@[simp] theorem exec_set (s t : σ) : (set t : Step σ PUnit).exec s = (.ok ⟨⟩, t) := rfl

@[simp] theorem exec_modify (f : σ → σ) (s : σ) :
    (modify f : Step σ PUnit).exec s = (.ok ⟨⟩, f s) := rfl

@[simp] theorem exec_update (f : σ → α × σ) (s : σ) :
    (update f).exec s = (.ok (f s).1, (f s).2) := rfl

/-- A computation without a state leaves it alone. -/
@[simp] theorem exec_lift (x : Except Fault α) (s : σ) :
    (liftM x : Step σ α).exec s = (x, s) := by
  cases x with
  | ok a => rfl
  | error e => rfl

/-- When a sequence that starts with a computation without a state answers, the computation did, and
the rest did from the same state. -/
theorem exists_exec_of_lift_bind {x : Except Fault α} {next : α → Step σ β} {s u : σ} {b : β}
    (h : ((liftM x : Step σ α) >>= next).exec s = (.ok b, u)) :
    ∃ a, x = .ok a ∧ (next a).exec s = (.ok b, u) := by
  obtain ⟨a, t, hx, hnext⟩ := exists_exec_of_bind h
  rw [exec_lift] at hx
  obtain ⟨rfl, rfl⟩ := Prod.mk.inj hx
  exact ⟨a, rfl, hnext⟩

/-- After a checked sum the rest runs if the sum fits, and nothing runs if it does not. -/
theorem leaves_checkedAdd_bind (a b : UInt64) (next : UInt64 → Step σ α) (s : σ) :
    ((liftM (checkedAdd a b) : Step σ UInt64) >>= next).leaves s =
      if a.toNat + b.toNat < UInt64.size then (next (a + b)).leaves s else s := by
  rw [leaves_bind, exec_lift, checkedAdd]
  by_cases fits : a.toNat + b.toNat < UInt64.size
  · rw [if_pos fits, if_pos fits]
  · rw [if_neg fits, if_neg fits]

/-- A step over a part runs on the part and leaves the rest. -/
@[simp] theorem exec_part (part : Part σ τ) (step : Step τ α) (s : σ) :
    (part.run step).exec s =
      ((step.exec (part.get s)).1, part.put (step.exec (part.get s)).2 s) := rfl

/-- Whether it answers or faults, the step leaves a state with the property from one that has it. -/
def Keeps (P : σ → Prop) (step : Step σ α) : Prop := ∀ ⦃s⦄, P s → P (step.leaves s)

namespace Keeps

variable {P : σ → Prop}

theorem pure (a : α) : Keeps P (pure a : Step σ α) := fun _ h ↦ h

theorem throw (e : Fault) : Keeps P (throw e : Step σ α) := fun _ h ↦ h

/-- A computation without a state leaves every state alone. -/
theorem lift (x : Except Fault α) : Keeps P (liftM x : Step σ α) := by
  intro s h
  rw [leaves, exec_lift]
  exact h

/-- What a step leaves has the property after the steps that follow and keep it. -/
theorem seq {step : Step σ α} {next : α → Step σ β} {s : σ} (first : P (step.leaves s))
    (rest : ∀ a, Keeps P (next a)) : P ((step >>= next).leaves s) := by
  rw [leaves_bind]
  rw [leaves] at first
  cases hx : step.exec s with
  | mk outcome t =>
    rw [hx] at first
    cases outcome with
    | ok a => exact rest a first
    | error e => exact first

/-- Steps that keep a property keep it in sequence. -/
theorem bind {step : Step σ α} {next : α → Step σ β} (first : Keeps P step)
    (rest : ∀ a, Keeps P (next a)) : Keeps P (step >>= next) := fun _ h ↦ seq (first h) rest

end Keeps

/-- From a state with the property, the step answers as the other one does from the view of that
state, and leaves a state with the property and with the view that the other one leaves. -/
def Mirrors (view : σ → τ) (P : σ → Prop) (step : Step σ α) (other : Step τ α) : Prop :=
  ∀ s, P s → (step.exec s).1 = (other.exec (view s)).1 ∧
    view (step.leaves s) = other.leaves (view s) ∧ P (step.leaves s)

namespace Mirrors

variable {view : σ → τ} {P : σ → Prop}

theorem pure (a : α) : Mirrors view P (pure a) (pure a) := fun _ h ↦ ⟨rfl, rfl, h⟩

theorem throw (e : Fault) : Mirrors view P (throw e : Step σ α) (throw e) :=
  fun _ h ↦ ⟨rfl, rfl, h⟩

/-- A computation without a state mirrors itself. -/
theorem lift (x : Except Fault α) : Mirrors view P (liftM x) (liftM x) := by
  intro s h
  simp only [leaves, exec_lift]
  exact ⟨trivial, trivial, h⟩

/-- Steps in sequence mirror steps in sequence. -/
theorem bind {step : Step σ α} {other : Step τ α} {next : α → Step σ β} {next' : α → Step τ β}
    (first : Mirrors view P step other) (rest : ∀ a, Mirrors view P (next a) (next' a)) :
    Mirrors view P (step >>= next) (other >>= next') := by
  intro s h
  obtain ⟨hanswer, hview, hs⟩ := first s h
  simp only [leaves, exec_bind] at *
  cases hx : step.exec s with
  | mk answer t =>
    cases hy : other.exec (view s) with
    | mk answer' u =>
      rw [hx, hy] at hanswer hview
      rw [hx] at hs
      dsimp only at hanswer hview hs
      subst hanswer hview
      cases answer with
      | error e => exact ⟨rfl, rfl, hs⟩
      | ok a => exact rest a t hs

end Mirrors

end Step
end ChainSync
