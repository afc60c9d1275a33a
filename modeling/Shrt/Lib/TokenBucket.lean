import Shrt.Lib.Lockstep

/-!
# Token buckets

A bucket fills at a constant rate up to its burst, and a request takes its cost out of it if there
is enough. A `Meter` has a bucket for every key and is given by how full each of them will be at any
later time if nothing is taken. It says what a rate limiter is for and forgets how one is kept:
lazily refilled, or thrown away while it is full.

What is granted to one key within a window of time is at most what was in the bucket when it began
and what flowed in since (`sum_granted_le`).
-/

namespace TokenBucket

open Lockstep (outputs)

variable {K : Type*} [Field K] [LinearOrder K]

/-- What a bucket holds after a time. -/
def refill (rate burst x dt : K) : K := min (x + dt * rate) burst

/-- What a request leaves. -/
def spend (x cost : K) : K := if cost ≤ x then x - cost else x

variable {rate burst x dt dt' : K}

theorem refill_le : refill rate burst x dt ≤ burst := min_le_right _ _

theorem refill_le_add : refill rate burst x dt ≤ x + dt * rate := min_le_left _ _

theorem refill_zero (h : x ≤ burst) : refill rate burst x 0 = x := by
  rw [refill, zero_mul, add_zero, min_eq_left h]

/-- A bucket that has had the time to fill is full. -/
theorem refill_eq_burst (h : burst ≤ x + dt * rate) : refill rate burst x dt = burst :=
  min_eq_right h

variable [IsStrictOrderedRing K]

/-- Two waits are one. -/
theorem refill_refill (hrate : 0 ≤ rate) (hdt' : 0 ≤ dt') :
    refill rate burst (refill rate burst x dt) dt' = refill rate burst x (dt + dt') := by
  have hflow : 0 ≤ dt' * rate := mul_nonneg hdt' hrate
  rw [refill, refill, refill, min_add, min_assoc, min_eq_right (le_add_of_nonneg_right hflow),
    add_mul, add_assoc]

theorem refill_nonneg (hrate : 0 ≤ rate) (hburst : 0 ≤ burst) (hx : 0 ≤ x) (hdt : 0 ≤ dt) :
    0 ≤ refill rate burst x dt :=
  le_min (add_nonneg hx (mul_nonneg hdt hrate)) hburst

theorem spend_nonneg {cost : K} (hx : 0 ≤ x) : 0 ≤ spend x cost := by
  rw [spend]
  split_ifs with h
  · exact sub_nonneg.mpr h
  · exact hx

theorem spend_le {cost : K} (hcost : 0 ≤ cost) : spend x cost ≤ x := by
  rw [spend]
  split_ifs
  · exact sub_le_self x hcost
  · exact le_rfl

/-! ## Requests -/

/-- The requests that were granted, given the answers. -/
def granted {α : Type*} : List Bool → List α → List α
  | b :: bs, q :: qs => if b then q :: granted bs qs else granted bs qs
  | _, _ => []

theorem granted_subset {α : Type*} (bs : List Bool) (qs : List α) : granted bs qs ⊆ qs := by
  induction qs generalizing bs with
  | nil =>
    cases bs with
    | nil => exact List.Subset.refl _
    | cons b bs => exact List.Subset.refl _
  | cons q qs ih =>
    cases bs with
    | nil => exact List.nil_subset _
    | cons b bs =>
      rw [granted]
      split_ifs
      · exact List.cons_subset_cons q (ih bs)
      · exact List.subset_cons_of_subset q (ih bs)

/-! ## Meters -/

section Meters

variable {K : Type*} [Field K] [LinearOrder K] {κ α : Type*}

/-- How full the bucket of a key will be at a later time. -/
abbrev Meter (κ K : Type*) := κ → K → K

/-- The buckets fill as they should, from a time on. -/
structure Meter.Lawful (rate burst : K) (m : Meter κ K) (now : K) : Prop where
  fills : ∀ k s s', now ≤ s → s ≤ s' → m k s' = refill rate burst (m k s) (s' - s)
  nonneg : ∀ k s, now ≤ s → 0 ≤ m k s
  le : ∀ k s, now ≤ s → m k s ≤ burst

/-- What a bucket gains, it gains at the rate. -/
theorem Meter.Lawful.le_add {rate burst : K} {m : Meter κ K} {now : K} (h : m.Lawful rate burst now)
    (k : κ) {s s' : K} (hs : now ≤ s) (hss' : s ≤ s') : m k s' ≤ m k s + (s' - s) * rate := by
  rw [h.fills k s s' hs hss']
  exact refill_le_add

variable [DecidableEq κ] (rate burst : K) (key : α → κ) (cost time : α → K)

/-- The answer to a request, and what becomes of the buckets. -/
def Meter.step (m : Meter κ K) (q : α) : Bool × Meter κ K :=
  (decide (cost q ≤ m (key q) (time q)),
    Function.update m (key q) fun s ↦
      refill rate burst (spend (m (key q) (time q)) (cost q)) (s - time q))

variable {rate burst key cost time} {m : Meter κ K} {q : α}

theorem Meter.step_self (s : K) : (m.step rate burst key cost time q).2 (key q) s =
    refill rate burst (spend (m (key q) (time q)) (cost q)) (s - time q) := by
  simp only [Meter.step, Function.update_self]

theorem Meter.step_of_ne {k : κ} (hk : k ≠ key q) :
    (m.step rate burst key cost time q).2 k = m k :=
  Function.update_of_ne hk _ _

end Meters

variable {κ α : Type*} [DecidableEq κ] {key : α → κ} {cost time : α → K} {m : Meter κ K} {now : K}
  {q : α}

namespace Meter.Lawful

/-- A request keeps the law, from its time on. -/
theorem step (h : m.Lawful rate burst now) (hrate : 0 ≤ rate) (hburst : 0 ≤ burst)
    (hnow : now ≤ time q) :
    (m.step rate burst key cost time q).2.Lawful rate burst (time q) where
  fills := by
    intro k s s' hs hss'
    by_cases hk : k = key q
    · have hsum : s - time q + (s' - s) = s' - time q := by ring
      rw [hk, step_self, step_self, refill_refill hrate (sub_nonneg.mpr hss'), hsum]
    · rw [step_of_ne hk]
      exact h.fills k s s' (hnow.trans hs) hss'
  nonneg := by
    intro k s hs
    by_cases hk : k = key q
    · rw [hk, step_self]
      exact refill_nonneg hrate hburst (spend_nonneg (h.nonneg _ _ hnow)) (sub_nonneg.mpr hs)
    · rw [step_of_ne hk]
      exact h.nonneg k s (hnow.trans hs)
  le := by
    intro k s hs
    by_cases hk : k = key q
    · rw [hk, step_self]
      exact refill_le
    · rw [step_of_ne hk]
      exact h.le k s (hnow.trans hs)

/-- Requests do not fill a bucket. -/
theorem step_le (h : m.Lawful rate burst now) (hcost : 0 ≤ cost q) (hnow : now ≤ time q) (k : κ)
    {s : K} (hs : time q ≤ s) : (m.step rate burst key cost time q).2 k s ≤ m k s := by
  by_cases hk : k = key q
  · rw [hk, step_self, h.fills _ _ _ hnow hs]
    exact min_le_min_right _ (add_le_add_left (spend_le hcost) _)
  · rw [step_of_ne hk]

/-- A request that is granted takes its cost out of the bucket. -/
theorem step_granted (h : m.Lawful rate burst now) (hcost : 0 ≤ cost q) (hnow : now ≤ time q)
    (hgranted : (m.step rate burst key cost time q).1 = true) :
    (m.step rate burst key cost time q).2 (key q) (time q) = m (key q) (time q) - cost q := by
  have hle : cost q ≤ m (key q) (time q) := of_decide_eq_true hgranted
  rw [step_self, sub_self, refill_zero ((spend_le hcost).trans (h.le _ _ hnow)), spend, if_pos hle]

end Meter.Lawful

/-! ## Windows -/

variable {t₁ t₂ : K} {k : κ} {qs : List α}

/-- **What is granted within a window** was in the bucket when it began, or has flowed in since. -/
theorem sum_granted_le (hrate : 0 ≤ rate) (hburst : 0 ≤ burst) (h : m.Lawful rate burst now)
    (hcost : ∀ q ∈ qs, 0 ≤ cost q) (hnow : ∀ q ∈ qs, now ≤ time q)
    (hmono : (qs.map time).Pairwise (· ≤ ·)) {p : α → Bool}
    (hp : ∀ q, p q = true → key q = k ∧ t₁ ≤ time q ∧ time q ≤ t₂) (hlt : max now t₁ ≤ t₂) :
    (((granted (outputs (Meter.step rate burst key cost time) m qs) qs).filter p).map cost).sum ≤
      m k (max now t₁) + (t₂ - max now t₁) * rate := by
  have hbound : 0 ≤ m k (max now t₁) + (t₂ - max now t₁) * rate :=
    add_nonneg (h.nonneg _ _ (le_max_left _ _)) (mul_nonneg (sub_nonneg.mpr hlt) hrate)
  induction qs generalizing m now with
  | nil => simpa [granted] using hbound
  | cons q qs ih =>
    have hq : now ≤ time q := hnow q List.mem_cons_self
    have hcq : 0 ≤ cost q := hcost q List.mem_cons_self
    rw [List.map_cons, List.pairwise_cons] at hmono
    have hqs : ∀ q' ∈ qs, time q ≤ time q' := fun q' hq' ↦ hmono.1 _ (List.mem_map_of_mem hq')
    rcases lt_or_ge t₂ (time q) with hover | hle
    · -- The window is over.
      have hnone : (granted (outputs (Meter.step rate burst key cost time) m (q :: qs))
          (q :: qs)).filter p = [] := by
        refine List.filter_eq_nil_iff.mpr fun q' hq' hpq' ↦ ?_
        refine (lt_of_lt_of_le hover ?_).not_ge (hp q' hpq').2.2
        rcases List.mem_cons.mp (granted_subset _ _ hq') with rfl | hmem
        · exact le_rfl
        · exact hqs q' hmem
      rw [hnone]
      exact hbound
    · have hmax : max now t₁ ≤ max (time q) t₁ := max_le_max_right _ hq
      have hmax₂ : max (time q) t₁ ≤ t₂ := max_le hle ((le_max_right _ _).trans hlt)
      have hlaw : (m.step rate burst key cost time q).2.Lawful rate burst (time q) :=
        h.step hrate hburst hq
      have hrest := ih hlaw (fun q' hq' ↦ hcost q' (List.mem_cons_of_mem _ hq')) hqs hmono.2 hmax₂
        (add_nonneg (hlaw.nonneg _ _ (le_max_left _ _)) (mul_nonneg (sub_nonneg.mpr hmax₂) hrate))
      have hdrift := h.le_add k (le_max_left now t₁) hmax
      have hkept := @Meter.Lawful.step_le K _ _ rate burst _ κ α _ key cost time m now q h hcq hq k
        (max (time q) t₁) (le_max_left _ _)
      have hflow : (t₂ - max (time q) t₁) * rate + (max (time q) t₁ - max now t₁) * rate =
          (t₂ - max now t₁) * rate := by ring
      by_cases hcount : (m.step rate burst key cost time q).1 = true ∧ p q = true
      · -- The request is granted and counts: its cost has left the bucket.
        obtain ⟨hyes, hpq⟩ := hcount
        obtain ⟨rfl, hfrom, -⟩ := hp q hpq
        have hspent := h.step_granted hcq hq hyes
        rw [max_eq_left hfrom] at hrest hdrift hflow
        rw [hspent] at hrest
        rw [outputs, granted, if_pos hyes, List.filter_cons_of_pos hpq, List.map_cons,
          List.sum_cons]
        linarith
      · have hskip : (granted (outputs (Meter.step rate burst key cost time) m (q :: qs))
            (q :: qs)).filter p =
            (granted (outputs (Meter.step rate burst key cost time)
              (m.step rate burst key cost time q).2 qs) qs).filter p := by
          rw [outputs, granted]
          split_ifs with hyes
          · exact List.filter_cons_of_neg fun hpq ↦ hcount ⟨hyes, hpq⟩
          · rfl
        rw [hskip]
        linarith

end TokenBucket
