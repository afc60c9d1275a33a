import Mathlib

/-!
# Rings of slots

A ring keeps a value for each of the last `n` times in `n` slots, and a slot is used again `n` times
later. Nothing is cleared as time passes: the slots of the times that went by are cleared one by one
when the ring is next moved on (`clear`). A ring `Holds` a history at the time it has been moved to
if the slot of each of the last `n` times has what the history says.

All that is asked of the slots is that times less than `n` apart have different ones (`Separates`),
from some time on: a slot taken by a remainder that is truncated towards zero has this only for
times that are not negative.
-/

namespace SlotRing

variable {ι M : Type*} {slot : ℤ → ι} {n : ℕ} {lo c : ℤ} {b : ι → M} {count : ℤ → M}

/-- Times from `lo` on that are less than `n` apart have different slots. -/
def Separates (slot : ℤ → ι) (n : ℕ) (lo : ℤ) : Prop :=
  ∀ t t', lo ≤ t → t < t' → t' < t + n → slot t ≠ slot t'

/-- The slots of the last `n` times have what the history says of them. -/
def Holds (slot : ℤ → ι) (n : ℕ) (count : ℤ → M) (c : ℤ) (b : ι → M) : Prop :=
  ∀ t, c < t + n → t ≤ c → b (slot t) = count t

variable [DecidableEq ι]

/-- Clears the slots of the next times, one after the other. -/
def clear [Zero M] (slot : ℤ → ι) : ℕ → ℤ → (ι → M) → ι → M
  | 0, _, b => b
  | k + 1, c, b => clear slot k (c + 1) (Function.update b (slot (c + 1)) 0)

/-- A write to the slot of the latest time is a write to the history at that time: the other slots
in use are other ones. -/
theorem Holds.update (h : Holds slot n count c b) (hslot : Separates slot n lo)
    (hlo : lo + n ≤ c + 1) (x : M) :
    Holds slot n (Function.update count c x) c (Function.update b (slot c) x) := by
  intro t ht htc
  rcases htc.eq_or_lt with rfl | hlt
  · rw [Function.update_self, Function.update_self]
  · have hne : slot t ≠ slot c := hslot t c (by omega) hlt ht
    rw [Function.update_of_ne hne, Function.update_of_ne hlt.ne, h t ht htc]

variable [Zero M]

/-- Clearing one slot moves the ring on by one time, of which nothing is known yet. -/
theorem Holds.clear_one (h : Holds slot n count c b) (hslot : Separates slot n lo)
    (hlo : lo + n ≤ c + 1) (hzero : count (c + 1) = 0) :
    Holds slot n count (c + 1) (Function.update b (slot (c + 1)) 0) := by
  intro t ht htc
  rcases htc.eq_or_lt with rfl | hlt
  · rw [Function.update_self, hzero]
  · have hne : slot t ≠ slot (c + 1) := hslot t (c + 1) (by omega) hlt ht
    rw [Function.update_of_ne hne, h t (by omega) (by omega)]

/-- **A ring that is moved on by any number of times holds the history** if nothing happened at the
times that went by. -/
theorem Holds.clear (hslot : Separates slot n lo) (k : ℕ) (h : Holds slot n count c b)
    (hlo : lo + n ≤ c + 1) (hzero : ∀ t, c < t → count t = 0) :
    Holds slot n count (c + k) (clear slot k c b) := by
  induction k generalizing c b with
  | zero =>
    rw [Nat.cast_zero, add_zero]
    exact h
  | succ k ih =>
    have hone := h.clear_one hslot hlo (hzero (c + 1) (by omega))
    have hrest := ih hone (by omega) fun t ht ↦ hzero t (by omega)
    rw [Nat.cast_succ, add_comm (k : ℤ) 1, ← add_assoc]
    exact hrest

end SlotRing
