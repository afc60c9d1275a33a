import Mathlib

/-!
# Pages of a list

A list is handed out in pages: the page at an offset holds the next `limit` elements, fewer at the
end of the list, and none behind it. A reader who asks for one page after another until one is empty
has seen the list, each element at its place (`exists_pages_eq`).
-/

namespace Paging

variable {α : Type*}

/-- The page of a list at an offset. -/
def page (l : List α) (limit offset : ℕ) : List α := (l.drop offset).take limit

/-- A page cut out between two bounds. -/
theorem drop_take_min (l : List α) (limit offset : ℕ) :
    (l.take (min (offset + limit) l.length)).drop offset = page l limit offset := by
  have hmin : l.take (min (offset + limit) l.length) = l.take (offset + limit) := by
    rw [List.take_eq_take_iff, min_assoc, min_self]
  rw [hmin, List.drop_take, Nat.add_sub_cancel_left, page]

theorem page_sublist (l : List α) (limit offset : ℕ) : (page l limit offset).Sublist l :=
  (List.take_sublist _ _).trans (List.drop_sublist _ _)

theorem page_eq_nil_of_le {l : List α} {offset : ℕ} (h : l.length ≤ offset) (limit : ℕ) :
    page l limit offset = [] := by
  rw [page, List.drop_eq_nil_of_le h, List.take_nil]

theorem page_ne_nil {l : List α} {limit offset : ℕ} (hlimit : 0 < limit) (h : offset < l.length) :
    page l limit offset ≠ [] := by
  intro hnil
  have hlen := congrArg List.length hnil
  rw [page, List.length_take, List.length_drop, List.length_nil] at hlen
  omega

/-- The first pages, one after another. -/
theorem flatMap_page (l : List α) (limit n : ℕ) :
    ((List.range n).flatMap fun k ↦ page l limit (k * limit)) = l.take (n * limit) := by
  induction n with
  | zero => rw [Nat.zero_mul, List.take_zero]; rfl
  | succ n ih =>
    rw [List.range_succ, List.flatMap_append, ih, Nat.succ_mul, List.take_add]
    simp [page]

/-- **Pages tile the list.** -/
theorem exists_pages_eq (l : List α) {limit : ℕ} (hlimit : 0 < limit) :
    ∃ n, n * limit < l.length + limit ∧ page l limit (n * limit) = [] ∧
      (∀ k < n, page l limit (k * limit) ≠ []) ∧
      ((List.range n).flatMap fun k ↦ page l limit (k * limit)) = l := by
  obtain ⟨n, hn⟩ : ∃ n, n = (l.length + limit - 1) / limit := ⟨_, rfl⟩
  have hlt : n * limit < l.length + limit := by
    have := Nat.div_mul_le_self (l.length + limit - 1) limit
    rw [← hn] at this
    omega
  have hle : l.length ≤ n * limit := by
    have := Nat.lt_mul_div_succ (l.length + limit - 1) hlimit
    rw [← hn, Nat.mul_succ, Nat.mul_comm] at this
    omega
  refine ⟨n, hlt, page_eq_nil_of_le hle limit, fun k hk ↦ page_ne_nil hlimit ?_, ?_⟩
  · have := Nat.mul_le_mul_right limit (Nat.succ_le_of_lt hk)
    rw [Nat.succ_mul] at this
    omega
  · rw [flatMap_page, List.take_of_length_le hle]

end Paging
