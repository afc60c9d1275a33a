import Mathlib

/-!
# A bounded cache that forgets the oldest key

A map and a queue of the keys in the order in which they came. Putting a key that the map has
replaces its value. Putting a new one first makes room: keys leave at the front of the queue, and
from the map, until the map is small enough. Deleting a key takes it from the map only, so that the
queue may hold keys that the map has lost.

Whatever the capacity, the map holds what was put last or nothing (`lookup_put_self`,
`lookup_of_put`, `lookup_of_erase`). As every key of the map is in the queue, making room always
succeeds and the map stays within the capacity (`Bounded`). The queue need not
(`length_order_put_le_iff`).
-/

/-- A bounded cache. -/
structure Fifo (κ ν : Type) [DecidableEq κ] where
  m : AList fun _ : κ ↦ ν := ∅
  order : List κ := []

namespace Fifo

variable {κ ν : Type} [DecidableEq κ]

/-- The value of a key. -/
def lookup (s : Fifo κ ν) (k : κ) : Option ν := s.m.lookup k

/-- Delete a key. -/
def erase (s : Fifo κ ν) (k : κ) : Fifo κ ν := { s with m := s.m.erase k }

/-- Make room, given the queue. -/
def evict (cap : ℕ) : List κ → (AList fun _ : κ ↦ ν) → Fifo κ ν
  | [], m => ⟨m, []⟩
  | k :: order, m => if cap ≤ m.keys.length then evict cap order (m.erase k) else ⟨m, k :: order⟩

/-- Put a key. -/
def put (cap : ℕ) (s : Fifo κ ν) (k : κ) (v : ν) : Fifo κ ν :=
  if (s.lookup k).isSome then { s with m := s.m.insert k v }
  else
    let s := evict cap s.order s.m
    { m := s.m.insert k v, order := s.order ++ [k] }

variable {s : Fifo κ ν} {k k' : κ} {v v' : ν} {cap : ℕ}

@[simp] theorem lookup_empty : ({} : Fifo κ ν).lookup k = none := rfl

@[simp] theorem lookup_erase_self : (s.erase k).lookup k = none := AList.lookup_erase _ _

/-- Deleting a key brings no value to any key. -/
theorem lookup_of_erase (h : (s.erase k).lookup k' = some v) : s.lookup k' = some v := by
  by_cases hk : k' = k
  · rw [hk, lookup_erase_self] at h
    cases h
  · exact (AList.lookup_erase_ne hk).symm.trans h

theorem lookup_evict {order : List κ} {m : AList fun _ : κ ↦ ν}
    (h : (evict cap order m).lookup k = some v) : m.lookup k = some v := by
  induction order generalizing m with
  | nil => exact h
  | cons k₀ order ih =>
    rw [evict] at h
    split_ifs at h with hcap
    · exact lookup_of_erase (s := ⟨m, []⟩) (ih h)
    · exact h

@[simp] theorem lookup_put_self : (s.put cap k v).lookup k = some v := by
  rw [put]
  split_ifs with h
  · exact AList.lookup_insert _
  · exact AList.lookup_insert _

/-- Putting a key brings a value to no other key. -/
theorem lookup_of_put (h : (s.put cap k v).lookup k' = some v') :
    k' = k ∧ v' = v ∨ s.lookup k' = some v' := by
  by_cases hk : k' = k
  · rw [hk, lookup_put_self] at h
    exact .inl ⟨hk, (Option.some.inj h).symm⟩
  · rw [put] at h
    split_ifs at h with hk'
    · exact .inr ((AList.lookup_insert_ne hk).symm.trans h)
    · exact .inr (lookup_evict ((AList.lookup_insert_ne hk).symm.trans h))

/-! ## Sizes -/

/-- Every key of the map is in the queue, and the map is within the capacity. -/
structure Bounded (cap : ℕ) (s : Fifo κ ν) : Prop where
  covered : ∀ k ∈ s.m, k ∈ s.order
  size_le : s.m.keys.length ≤ cap

theorem bounded_empty : Bounded cap ({} : Fifo κ ν) :=
  ⟨fun k hk ↦ absurd hk (AList.notMem_empty k), Nat.zero_le cap⟩

theorem Bounded.erase (h : s.Bounded cap) : (s.erase k).Bounded cap := by
  refine ⟨fun k' hk' ↦ h.covered k' (AList.mem_erase.mp hk').2, ?_⟩
  change (s.m.erase k).keys.length ≤ cap
  rw [AList.keys_erase]
  exact List.length_erase_le.trans h.size_le

/-- **Making room succeeds**: what leaves the queue leaves the map, and the queue has every key. -/
theorem evict_covered_lt (hcap : 0 < cap) {order : List κ} {m : AList fun _ : κ ↦ ν}
    (h : ∀ k ∈ m, k ∈ order) : (∀ k ∈ (evict cap order m).m, k ∈ (evict cap order m).order) ∧
      (evict cap order m).m.keys.length < cap := by
  induction order generalizing m with
  | nil =>
    have hnil : m.keys = [] := List.eq_nil_iff_forall_not_mem.mpr fun k hk ↦ nomatch h k hk
    refine ⟨h, ?_⟩
    rw [evict, hnil]
    exact hcap
  | cons k₀ order ih =>
    rw [evict]
    split_ifs with hfull
    · refine ih fun k hk ↦ ?_
      obtain ⟨hne, hk⟩ := AList.mem_erase.mp hk
      exact List.mem_of_ne_of_mem hne (h k hk)
    · exact ⟨h, Nat.lt_of_not_le hfull⟩

theorem Bounded.put (hcap : 0 < cap) (h : s.Bounded cap) : (s.put cap k v).Bounded cap := by
  have hinsert : ∀ {m : AList fun _ : κ ↦ ν} {k' : κ}, k' ∈ m.insert k v → k' = k ∨ k' ∈ m :=
    fun hk' ↦ (AList.mem_insert _).mp hk'
  rw [Fifo.put]
  split_ifs with hk
  · have hmem : k ∈ s.m := AList.lookup_isSome.mp hk
    constructor
    · intro k' hk'
      rcases hinsert hk' with rfl | hk'
      · exact h.covered _ hmem
      · exact h.covered k' hk'
    · -- The key leaves its place and comes back at the front.
      change (s.m.insert k v).keys.length ≤ cap
      rw [AList.keys_insert, List.length_cons, List.length_erase_of_mem (AList.mem_keys.mp hmem),
        Nat.sub_add_cancel (List.length_pos_of_mem (AList.mem_keys.mp hmem))]
      exact h.size_le
  · obtain ⟨hcovered, hroom⟩ := evict_covered_lt hcap h.covered
    constructor
    · intro k' hk'
      rcases hinsert hk' with rfl | hk'
      · exact List.mem_append_right _ (List.mem_singleton_self _)
      · exact List.mem_append_left _ (hcovered k' hk')
    · change ((evict cap s.order s.m).m.insert k v).keys.length ≤ cap
      rw [AList.keys_insert, List.length_cons]
      exact (Nat.add_le_add_right List.length_erase_le 1).trans hroom

theorem length_order_evict_le {order : List κ} {m : AList fun _ : κ ↦ ν} :
    (evict cap order m).order.length ≤ order.length := by
  induction order generalizing m with
  | nil => exact Nat.le_refl _
  | cons k₀ order ih =>
    rw [evict]
    split_ifs
    · exact ih.trans (Nat.le_succ _)
    · exact Nat.le_refl _

theorem evict_of_lt {order : List κ} {m : AList fun _ : κ ↦ ν} (h : m.keys.length < cap) :
    evict cap order m = ⟨m, order⟩ := by
  cases order with
  | nil => rfl
  | cons k₀ order => rw [evict, if_neg (Nat.not_le.mpr h)]

/-- **When the queue stays within the capacity.** The queue is shortened only when the map is full,
so a new key makes it too long exactly when it is full and the map is not. -/
theorem length_order_put_le_iff (hcap : 0 < cap) (h : s.Bounded cap) (hle : s.order.length ≤ cap) :
    (s.put cap k v).order.length ≤ cap ↔
      (s.lookup k = none → s.m.keys.length < cap → s.order.length < cap) := by
  rw [put]
  split_ifs with hk
  · exact iff_of_true hle fun hnone ↦ absurd hk (by simp [hnone])
  · rw [Option.not_isSome_iff_eq_none] at hk
    change (_ ++ [k]).length ≤ cap ↔ _
    rw [List.length_append, List.length_singleton]
    by_cases hroom : s.m.keys.length < cap
    · rw [evict_of_lt hroom]
      exact ⟨fun hlt _ _ ↦ hlt, fun hlt ↦ hlt hk hroom⟩
    · -- The map is full, so the queue is not empty and its first key leaves.
      refine iff_of_true ?_ fun _ hlt ↦ absurd hlt hroom
      obtain ⟨k₀, hk₀⟩ := List.exists_mem_of_length_pos (hcap.trans_le (Nat.not_lt.mp hroom))
      obtain ⟨m, order⟩ := s
      cases order with
      | nil => exact nomatch h.covered k₀ hk₀
      | cons k₁ order =>
        rw [evict, if_pos (Nat.not_lt.mp hroom)]
        exact (Nat.add_le_add_right length_order_evict_le 1).trans hle

end Fifo
