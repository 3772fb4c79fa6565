/-!
# Faults and steps over a state

A step over a state either answers or faults, and the state it reached is kept either way: what
was done before the fault stays done. Sums of heights and counters are 64-bit; a sum that leaves
that range is a fault, while a difference stops at zero.
-/

namespace ChainSync

/-- Why a computation stops without an answer. -/
inductive Fault where
  /-- A sum does not fit in 64 bits. -/
  | additionOverflow
  /-- A number of seconds is not a number, or is too large for a duration. -/
  | durationOutOfRange
  deriving DecidableEq, Repr

namespace Fault

def message : Fault → String
  | additionOverflow => "attempt to add with overflow"
  | durationOutOfRange =>
    "cannot convert float seconds to Duration: value is either too big or NaN"

end Fault

/-- A step over a state: it answers or faults, and leaves the state it reached. -/
abbrev Step (σ : Type) := ExceptT Fault (StateM σ)

namespace Step

variable {σ τ α : Type}

/-- The outcome of a step from a state, and the state it leaves. -/
def exec (step : Step σ α) (s : σ) : Except Fault α × σ :=
  (ExceptT.run step).run s

/-- A step that only reads the state. -/
def read (f : σ → α) : Step σ α := do
  return f (← get)

/-- A step that answers from the state and replaces it, and never faults. -/
def update (f : σ → α × σ) : Step σ α := do
  let (answer, s) := f (← get)
  set s
  return answer

end Step

/-- A part of a larger state: how to read it and how to replace it. -/
structure Part (σ τ : Type) where
  /-- The part as it stands in the whole. -/
  get : σ → τ
  /-- The whole with this part replaced. -/
  put : τ → σ → σ

namespace Part

variable {σ τ υ α : Type}

/-- The whole as a part of itself. -/
def whole : Part σ σ := ⟨id, fun t _ ↦ t⟩

def comp (outer : Part σ τ) (inner : Part τ υ) : Part σ υ where
  get s := inner.get (outer.get s)
  put u s := outer.put (inner.put u (outer.get s)) s

/-- Runs a step over a part; the rest of the state is untouched. -/
def run (part : Part σ τ) (step : Step τ α) : Step σ α := fun s ↦
  let (answer, t) := step (part.get s)
  (answer, part.put t s)

@[simp] theorem run_whole (step : Step σ α) : whole.run step = step := rfl

end Part

/-- The sum of two 64-bit numbers, or a fault when it does not fit. -/
def checkedAdd (a b : UInt64) : Except Fault UInt64 :=
  if a.toNat + b.toNat < UInt64.size then .ok (a + b) else .error .additionOverflow

theorem toNat_of_checkedAdd_eq_ok {a b c : UInt64} (h : checkedAdd a b = .ok c) :
    c.toNat = a.toNat + b.toNat := by
  unfold checkedAdd at h
  split at h
  · next hlt =>
    cases h
    rw [UInt64.toNat_add, Nat.mod_eq_of_lt hlt]
  · cases h

theorem isOk_checkedAdd_iff {a b : UInt64} :
    checkedAdd a b = .ok (a + b) ↔ a.toNat + b.toNat < UInt64.size := by
  unfold checkedAdd
  split <;> simp_all

/-- The difference of two 64-bit numbers, or zero when the second is larger. -/
def monus (a b : UInt64) : UInt64 :=
  if b ≤ a then a - b else 0

theorem toNat_monus (a b : UInt64) : (monus a b).toNat = a.toNat - b.toNat := by
  unfold monus
  split
  · next h => exact UInt64.toNat_sub_of_le _ _ h
  · next h =>
    have : a.toNat < b.toNat := UInt64.lt_iff_toNat_lt.mp (UInt64.not_le.mp h)
    simp
    omega

end ChainSync
