import Mathlib

/-!
# Xorshift maps

A xorshift generator replaces a word by its exclusive or with a shifted copy of itself. Such a map
is linear over the field with two elements, so it is injective as soon as only zero is sent to zero,
that is as soon as only zero is equal to its own shift (`injective_xor`). No other word is, in
either direction: a shift by at least one place moves the outermost bit that is set, or drops it.
-/

namespace Xorshift

variable {w : ℕ}

/-- A linear map whose only fixed point is zero gives an injective map when it is added to the
identity. -/
theorem injective_xor {g : BitVec w → BitVec w} (hlin : ∀ x y, g (x ^^^ y) = g x ^^^ g y)
    (hfixed : ∀ x, g x = x → x = 0#w) : Function.Injective fun x ↦ x ^^^ g x := by
  intro x y h
  have h : x ^^^ g x = y ^^^ g y := h
  have hsum : x ^^^ y = g x ^^^ g y := by
    calc x ^^^ y = (x ^^^ g x) ^^^ g x ^^^ y := by
          rw [BitVec.xor_assoc x, BitVec.xor_self, BitVec.xor_zero]
      _ = (y ^^^ y) ^^^ (g x ^^^ g y) := by
          rw [h]
          ac_rfl
      _ = g x ^^^ g y := by rw [BitVec.xor_self, BitVec.zero_xor]
  have hzero : x ^^^ y = 0#w := hfixed _ ((hlin x y).trans hsum.symm)
  exact BitVec.xor_eq_zero_iff.mp hzero

/-- Only zero is its own right shift. -/
theorem eq_zero_of_ushiftRight {k : ℕ} (hk : 0 < k) {x : BitVec w} (h : x >>> k = x) : x = 0#w := by
  have hnat : x.toNat / 2 ^ k = x.toNat := by
    rw [← Nat.shiftRight_eq_div_pow, ← BitVec.toNat_ushiftRight, h]
  refine BitVec.eq_of_toNat_eq (by_contra fun hne ↦ ?_)
  have hpos : 0 < x.toNat := Nat.pos_of_ne_zero hne
  exact (Nat.div_lt_self hpos (Nat.one_lt_two_pow hk.ne')).ne hnat

/-- Only zero is its own left shift: shifted often enough, nothing is left of a word. -/
theorem eq_zero_of_shiftLeft {k : ℕ} (hk : 0 < k) {x : BitVec w} (h : x <<< k = x) : x = 0#w := by
  have hall : ∀ n : ℕ, x <<< (n * k) = x := by
    intro n
    induction n with
    | zero => rw [Nat.zero_mul, BitVec.shiftLeft_zero]
    | succ n ih => rw [Nat.succ_mul, BitVec.shiftLeft_add, ih, h]
  rw [← hall w]
  exact BitVec.shiftLeft_eq_zero (Nat.le_mul_of_pos_right w hk)

theorem injective_xor_ushiftRight {k : ℕ} (hk : 0 < k) :
    Function.Injective fun x : BitVec w ↦ x ^^^ x >>> k :=
  injective_xor (fun x y ↦ BitVec.ushiftRight_xor_distrib x y k) fun _ ↦ eq_zero_of_ushiftRight hk

theorem injective_xor_shiftLeft {k : ℕ} (hk : 0 < k) :
    Function.Injective fun x : BitVec w ↦ x ^^^ x <<< k :=
  injective_xor (fun x y ↦ BitVec.shiftLeft_xor_distrib x y k) fun _ ↦ eq_zero_of_shiftLeft hk

end Xorshift
