import Mathlib

/-!
# Positions in a list

A scanner written with positions can go wrong in ways that one written with suffixes cannot: it can
read behind the end, take a slice that starts behind the end, or fail to end. Here these are faults.
A loop that moves a position while the element there satisfies a condition is `skipWhile`. It never
faults, and the suffix at the position where it stops is what `dropWhile` leaves (`skipWhile_spec`).
-/

namespace Cursor

variable {α : Type}

/-- What can go wrong. -/
inductive Fault where
  /-- An element is read at a position that is not below the length. -/
  | index (pos : ℕ)
  /-- A slice starts behind the end. -/
  | slice (start : ℕ)
  /-- A loop has taken more turns than it was given. -/
  | turns
  deriving DecidableEq

/-- The element at a position. -/
def get (b : List α) (pos : ℕ) : Except Fault α := match b[pos]? with
  | some x => .ok x
  | none => .error (.index pos)

/-- A slice, cut off at the end of the list. -/
def substr (b : List α) (start n : ℕ) : Except Fault (List α) :=
  if start ≤ b.length then .ok ((b.drop start).take n) else .error (.slice start)

/-- The loop that moves a position as long as the element there satisfies a condition. -/
def skipWhile (p : α → Bool) (b : List α) : ℕ → ℕ → Except Fault ℕ
  | 0, _ => .error .turns
  | turns + 1, pos =>
    if pos < b.length then do
      if p (← get b pos) then skipWhile p b turns (pos + 1) else pure pos
    else pure pos

variable {b r : List α} {x : α} {pos : ℕ}

@[simp] theorem ok_bind {β : Type} (x : α) (f : α → Except Fault β) :
    (Except.ok x >>= f) = f x := rfl

theorem lt_length_of_drop (h : b.drop pos = x :: r) : pos < b.length := by
  by_contra hle
  rw [List.drop_eq_nil_of_le (not_lt.mp hle)] at h
  exact nomatch h

theorem drop_succ_of_drop (h : b.drop pos = x :: r) : b.drop (pos + 1) = r := by
  rw [← List.drop_drop, h, List.drop_one, List.tail_cons]

theorem get_of_drop (h : b.drop pos = x :: r) : get b pos = .ok x := by
  have hx : b[pos]? = some x := by rw [← List.head?_drop, h, List.head?_cons]
  rw [get, hx]

theorem substr_of_le {start : ℕ} (h : start ≤ b.length) (n : ℕ) :
    substr b start n = .ok ((b.drop start).take n) := if_pos h

/-- The suffix at a position is empty exactly if the position has reached the end. -/
theorem length_le_iff : b.length ≤ pos ↔ b.drop pos = [] := List.drop_eq_nil_iff.symm

/-- **The loop ends without a fault**, at the suffix that `dropWhile` leaves, and what it has passed
is what `takeWhile` takes. -/
theorem skipWhile_spec (p : α → Bool) (b : List α) : ∀ (turns pos : ℕ), b.length - pos < turns →
    ∃ pos', skipWhile p b turns pos = .ok pos' ∧ pos ≤ pos' ∧
      b.drop pos' = (b.drop pos).dropWhile p ∧
      (b.drop pos).take (pos' - pos) = (b.drop pos).takeWhile p := by
  intro turns
  induction turns with
  | zero =>
    intro pos h
    exact absurd h (Nat.not_lt_zero _)
  | succ turns ih =>
    intro pos h
    rw [skipWhile]
    cases hd : b.drop pos with
    | nil =>
      rw [if_neg (not_lt.mpr (length_le_iff.mpr hd))]
      exact ⟨pos, rfl, le_rfl, hd, by simp⟩
    | cons x r =>
      have hr := drop_succ_of_drop hd
      rw [if_pos (lt_length_of_drop hd), get_of_drop hd]
      by_cases hp : p x = true
      · have hlt := lt_length_of_drop hd
        obtain ⟨pos', hskip, hle, hdrop, htake⟩ := ih (pos + 1) (by omega)
        rw [hr] at hdrop htake
        refine ⟨pos', ?_, by omega, ?_, ?_⟩
        · exact (if_pos hp).trans hskip
        · rw [hdrop, List.dropWhile_cons_of_pos hp]
        · obtain ⟨n, rfl⟩ : ∃ n, pos' = pos + 1 + n := ⟨pos' - (pos + 1), by omega⟩
          rw [List.takeWhile_cons_of_pos hp, ← htake, Nat.add_sub_cancel_left,
            show pos + 1 + n - pos = n + 1 by omega, List.take_succ_cons]
      · refine ⟨pos, if_neg hp, le_rfl, ?_, ?_⟩
        · rw [hd, List.dropWhile_cons_of_neg hp]
        · rw [Nat.sub_self, List.take_zero, List.takeWhile_cons_of_neg hp]

end Cursor
