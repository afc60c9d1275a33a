import Mathlib

/-!
# Logs of a counter

A log about one counter, replayed from left to right. An entry adds an amount, sets the counter, or
deletes it. Amounts may arrive before the counter has been set for the first time: they are parked,
and the entry that sets it takes them along. An entry that sets a counter which is there already
replaces it, and what had been added before is gone.

So the outcome depends on the order of the entries in general (`Cell.touch`). It does not when the
counter is set at most once and never deleted: then it is the sum of all that was added and set
(`total_replay_of_sets_le_one`), however the entries are mixed.
-/

namespace CounterLog

/-- One entry of the log. -/
inductive Touch (M : Type*) where
  /-- Count an amount. -/
  | add (d : M)
  /-- Set the counter. -/
  | set (n : M)
  /-- Delete the counter. -/
  | del
  deriving DecidableEq

/-- A counter, or the amounts parked for one that is not there yet. -/
structure Cell (M : Type*) where
  /-- Whether the counter is there. -/
  present : Bool
  /-- What was counted so far. -/
  total : M
  deriving DecidableEq

variable {M : Type*}

namespace Touch

/-- Entries that only count. -/
def isAdd : Touch M → Bool
  | add _ => true
  | _ => false

/-- Entries that set the counter. -/
def isSet : Touch M → Bool
  | set _ => true
  | _ => false

/-- Entries that delete the counter. -/
def isDel : Touch M → Bool
  | del => true
  | _ => false

theorem not_isSet_of_isAdd {t : Touch M} (h : t.isAdd = true) : t.isSet = false := by
  cases t with
  | add d => rfl
  | set n => exact absurd h Bool.false_ne_true
  | del => rfl

theorem not_isDel_of_isAdd {t : Touch M} (h : t.isAdd = true) : t.isDel = false := by
  cases t with
  | add d => rfl
  | set n => rfl
  | del => exact absurd h Bool.false_ne_true

end Touch

/-- How often a log sets the counter. -/
def sets (ts : List (Touch M)) : ℕ := ts.countP Touch.isSet

@[simp] theorem sets_nil : sets ([] : List (Touch M)) = 0 := rfl

theorem sets_cons (t : Touch M) (ts : List (Touch M)) :
    sets (t :: ts) = (if t.isSet then 1 else 0) + sets ts := by
  rw [sets, List.countP_cons, sets, Nat.add_comm]

theorem sets_append (ts us : List (Touch M)) : sets (ts ++ us) = sets ts + sets us :=
  List.countP_append

theorem sets_of_isAdd {ts : List (Touch M)} (h : ∀ t ∈ ts, t.isAdd = true) : sets ts = 0 :=
  List.countP_eq_zero.mpr fun t ht ↦ Bool.eq_false_iff.mp (Touch.not_isSet_of_isAdd (h t ht))

/-- Every amount is counted while the counter is there. -/
def Settled : Bool → List (Touch M) → Prop
  | _, [] => True
  | p, .add _ :: ts => p = true ∧ Settled p ts
  | _, .set _ :: ts => Settled true ts
  | _, .del :: ts => Settled false ts

theorem settled_of_isAdd {ts : List (Touch M)} (h : ∀ t ∈ ts, t.isAdd = true) :
    Settled true ts := by
  induction ts with
  | nil => trivial
  | cons t ts ih =>
    cases t with
    | add d => exact ⟨rfl, ih fun t ht ↦ h t (List.mem_cons_of_mem _ ht)⟩
    | set n => exact absurd (h _ List.mem_cons_self) Bool.false_ne_true
    | del => exact absurd (h _ List.mem_cons_self) Bool.false_ne_true

/-- A log that needs no parking without a record needs none with one. -/
theorem Settled.of_present {p : Bool} {ts : List (Touch M)} (h : Settled p ts) : Settled true ts := by
  cases p with
  | true => exact h
  | false =>
    cases ts with
    | nil => trivial
    | cons t ts =>
      cases t with
      | add d => exact absurd h.1 Bool.false_ne_true
      | set n => exact h
      | del => exact h

/-! ## Replaying -/

section Replay

variable [AddCommMonoid M]

/-- What an entry adds to the counter. -/
def Touch.added : Touch M → M
  | add d => d
  | _ => 0

/-- What an entry contributes when nothing is replaced. -/
def Touch.weight : Touch M → M
  | add d => d
  | set n => n
  | del => 0

/-- One entry applied. -/
def Cell.touch : Cell M → Touch M → Cell M
  | ⟨p, t⟩, .add d => ⟨p, t + d⟩
  | ⟨true, _⟩, .set n => ⟨true, n⟩
  | ⟨false, t⟩, .set n => ⟨true, n + t⟩
  | _, .del => ⟨false, 0⟩

theorem Cell.present_touch_set (c : Cell M) (n : M) : (c.touch (.set n)).present = true := by
  obtain ⟨p, t⟩ := c
  cases p <;> rfl

/-- A log applied, oldest entry first. -/
def replay (c : Cell M) (ts : List (Touch M)) : Cell M := ts.foldl Cell.touch c

/-- All that a log counts. -/
def added (ts : List (Touch M)) : M := (ts.map Touch.added).sum

/-- All that a log counts and sets. -/
def weight (ts : List (Touch M)) : M := (ts.map Touch.weight).sum

section Append

variable (ts us : List (Touch M))

theorem replay_append (c : Cell M) : replay c (ts ++ us) = replay (replay c ts) us :=
  List.foldl_append

theorem added_append : added (ts ++ us) = added ts + added us := by
  rw [added, List.map_append, List.sum_append, added, added]

theorem weight_append : weight (ts ++ us) = weight ts + weight us := by
  rw [weight, List.map_append, List.sum_append, weight, weight]

end Append

@[simp] theorem replay_nil (c : Cell M) : replay c [] = c := rfl

@[simp] theorem added_nil : added ([] : List (Touch M)) = 0 := rfl

@[simp] theorem weight_nil : weight ([] : List (Touch M)) = 0 := rfl

theorem replay_cons (c : Cell M) (t : Touch M) (ts : List (Touch M)) :
    replay c (t :: ts) = replay (c.touch t) ts := rfl

theorem weight_cons (t : Touch M) (ts : List (Touch M)) :
    weight (t :: ts) = t.weight + weight ts := by
  rw [weight, List.map_cons, List.sum_cons, weight]

theorem added_cons (t : Touch M) (ts : List (Touch M)) : added (t :: ts) = t.added + added ts := by
  rw [added, List.map_cons, List.sum_cons, added]

section Map

variable {N : Type*} [AddCommMonoid N]

/-- An entry with its amount replaced. -/
def Touch.map (f : M → N) : Touch M → Touch N
  | add d => add (f d)
  | set n => set (f n)
  | del => del

/-- A counter with its amount replaced. -/
def Cell.map (f : M → N) (c : Cell M) : Cell N := ⟨c.present, f c.total⟩

theorem Cell.map_touch (f : M →+ N) (c : Cell M) (t : Touch M) :
    (c.map f).touch (t.map f) = (c.touch t).map f := by
  obtain ⟨p, x⟩ := c
  cases t <;> cases p <;> simp [Cell.map, Touch.map, Cell.touch]

/-- A part of the amounts can be followed on its own. -/
theorem replay_map (f : M →+ N) (c : Cell M) (ts : List (Touch M)) :
    replay (c.map f) (ts.map (Touch.map f)) = (replay c ts).map f := by
  induction ts generalizing c with
  | nil => rfl
  | cons t ts ih => rw [List.map_cons, replay_cons, replay_cons, Cell.map_touch, ih]

end Map

/-- Entries that only count add up, on a counter that is there and on one that is not. -/
theorem replay_of_isAdd {ts : List (Touch M)} (h : ∀ t ∈ ts, t.isAdd = true) : ∀ c : Cell M,
    replay c ts = ⟨c.present, c.total + added ts⟩ := by
  induction ts with
  | nil => intro c; rw [replay_nil, added_nil, add_zero]
  | cons t ts ih =>
    intro c
    obtain ⟨p, x⟩ := c
    cases t with
    | add d =>
      rw [replay_cons, ih fun t ht ↦ h t (List.mem_cons_of_mem _ ht), added_cons, ← add_assoc]
      rfl
    | set n => exact absurd (h _ List.mem_cons_self) Bool.false_ne_true
    | del => exact absurd (h _ List.mem_cons_self) Bool.false_ne_true

/-- **Order does not matter for a counter that is set once.** -/
theorem total_replay_of_sets_le_one {ts : List (Touch M)} (hdel : ∀ t ∈ ts, t.isDel = false) :
    ∀ c : Cell M, (if c.present then 1 else 0) + sets ts ≤ 1 →
      (replay c ts).total = c.total + weight ts := by
  induction ts with
  | nil => intro c _; rw [replay_nil, weight_nil, add_zero]
  | cons t ts ih =>
    intro c hc
    have ih := ih fun t ht ↦ hdel t (List.mem_cons_of_mem _ ht)
    obtain ⟨p, x⟩ := c
    rw [sets_cons] at hc
    rw [replay_cons, weight_cons]
    cases t with
    | add d =>
      have hts : (if p then 1 else 0) + sets ts ≤ 1 := by simpa [Touch.isSet] using hc
      rw [Cell.touch, ih ⟨p, x + d⟩ hts, ← add_assoc]
      rfl
    | set n =>
      cases p with
      | true => simp [Touch.isSet] at hc
      | false =>
        have hts : sets ts = 0 := by simpa [Touch.isSet] using hc
        rw [ih _ (by simp [Cell.touch, hts]), ← add_assoc]
        exact congrArg (· + weight ts) (add_comm n x)
    | del => exact absurd (hdel _ List.mem_cons_self) (by simp [Touch.isDel])

/-- The counter is there once it has been set, if it is never deleted. -/
theorem present_replay {ts : List (Touch M)} (hdel : ∀ t ∈ ts, t.isDel = false) : ∀ c : Cell M,
    (replay c ts).present = (c.present || decide (0 < sets ts)) := by
  induction ts with
  | nil => intro c; simp
  | cons t ts ih =>
    intro c
    obtain ⟨p, x⟩ := c
    rw [replay_cons, ih fun t ht ↦ hdel t (List.mem_cons_of_mem _ ht), sets_cons]
    cases t with
    | add d => simp [Cell.touch, Touch.isSet]
    | set n => cases p <;> simp [Cell.touch, Touch.isSet]
    | del => exact absurd (hdel _ List.mem_cons_self) (by simp [Touch.isDel])

/-! ### Counters that are set once -/

/-- A log that sets the counter once and never deletes it, and is worth an amount in all. -/
structure Once (n : M) (ts : List (Touch M)) : Prop where
  kept : ∀ t ∈ ts, t.isDel = false
  sets : sets ts = 1
  weight : weight ts = n

/-- What such a log is worth does not depend on its order. -/
theorem Once.replay {n : M} {ts : List (Touch M)} (h : Once n ts) :
    replay ⟨false, 0⟩ ts = ⟨true, n⟩ := by
  have htotal := total_replay_of_sets_le_one h.kept ⟨false, 0⟩ (by simp [h.sets])
  have hpresent := present_replay h.kept (⟨false, 0⟩ : Cell M)
  rw [h.sets] at hpresent
  rw [zero_add, h.weight] at htotal
  generalize CounterLog.replay (⟨false, 0⟩ : Cell M) ts = r at htotal hpresent
  obtain ⟨p, x⟩ := r
  obtain rfl : x = n := htotal
  obtain rfl : p = true := hpresent
  rfl

theorem once_set_cons (n : M) {ts : List (Touch M)} (h : ∀ t ∈ ts, t.isAdd = true) :
    Once (n + CounterLog.weight ts) (.set n :: ts) := by
  refine ⟨fun t ht ↦ ?_, ?_, weight_cons _ _⟩
  · rcases List.mem_cons.mp ht with rfl | ht
    · rfl
    · exact Touch.not_isDel_of_isAdd (h t ht)
  · rw [CounterLog.sets, List.countP_cons_of_pos rfl, ← CounterLog.sets, sets_of_isAdd h]

theorem once_set (n : M) : Once n [.set n] := by
  have h := once_set_cons n (List.forall_mem_nil fun t : Touch M ↦ t.isAdd = true)
  rwa [weight_nil, add_zero] at h

theorem Once.perm {n : M} {ts ts' : List (Touch M)} (h : Once n ts) (hperm : ts'.Perm ts) :
    Once n ts' := by
  refine ⟨fun t ht ↦ h.kept t (hperm.mem_iff.mp ht), ?_, ?_⟩
  · rw [CounterLog.sets, hperm.countP_eq, ← CounterLog.sets, h.sets]
  · rw [CounterLog.weight, (hperm.map _).sum_eq, ← CounterLog.weight, h.weight]

section Several

variable {ι α N : Type*} [Fintype ι] [DecidableEq ι] [AddCommMonoid N]

omit [AddCommMonoid M] in
/-- A quantity that adds up over lists adds up over the lists of several writers. -/
theorem flatMap_eq_sum {φ : List α → N} (hnil : φ [] = 0)
    (happend : ∀ xs ys, φ (xs ++ ys) = φ xs + φ ys)
    {is : List ι} (his : is.Nodup) {f : ι → List α} (hf : ∀ i, i ∉ is → f i = []) :
    φ (is.flatMap f) = ∑ i, φ (f i) := by
  have hsum : ∀ is : List ι, φ (is.flatMap f) = (is.map fun i ↦ φ (f i)).sum := by
    intro is
    induction is with
    | nil => exact hnil
    | cons i is ih => rw [List.flatMap_cons, happend, ih, List.map_cons, List.sum_cons]
  rw [hsum, ← List.sum_toFinset _ his]
  refine Finset.sum_subset (Finset.subset_univ _) fun i _ hi ↦ ?_
  rw [hf i fun hmem ↦ hi (List.mem_toFinset.mpr hmem), hnil]

/-- **The logs of several writers**, one of whom sets the counter: read in two parts each, all first
parts before all second ones and each in any order, they are worth what all of them weigh. -/
theorem once_flatMap {is is' : List ι} (his : is.Nodup) (his' : is'.Nodup)
    {f g : ι → List (Touch M)} (hf : ∀ i, i ∉ is → f i = []) (hg : ∀ i, i ∉ is' → g i = [])
    {j : ι} {n : M} (hj : Once n (f j ++ g j))
    (hother : ∀ i, i ≠ j → ∀ t ∈ f i ++ g i, t.isAdd = true) :
    Once (∑ i, weight (f i ++ g i)) (is.flatMap f ++ is'.flatMap g) := by
  refine ⟨fun t ht ↦ ?_, ?_, ?_⟩
  · obtain ⟨i, hi⟩ : ∃ i, t ∈ f i ++ g i := by
      rcases List.mem_append.mp ht with ht | ht
      · obtain ⟨i, -, ht⟩ := List.mem_flatMap.mp ht
        exact ⟨i, List.mem_append_left _ ht⟩
      · obtain ⟨i, -, ht⟩ := List.mem_flatMap.mp ht
        exact ⟨i, List.mem_append_right _ ht⟩
    by_cases hij : i = j
    · exact hj.kept t (hij ▸ hi)
    · exact Touch.not_isDel_of_isAdd (hother i hij t hi)
  · rw [sets_append, flatMap_eq_sum sets_nil sets_append his hf,
      flatMap_eq_sum sets_nil sets_append his' hg, ← Finset.sum_add_distrib]
    have hone : ∀ i, i ≠ j → CounterLog.sets (f i) + CounterLog.sets (g i) = 0 := fun i hij ↦ by
      rw [← sets_append, sets_of_isAdd (hother i hij)]
    rw [Finset.sum_eq_single j (fun i _ ↦ hone i) fun h ↦ absurd (Finset.mem_univ j) h,
      ← sets_append, hj.sets]
  · rw [weight_append, flatMap_eq_sum weight_nil weight_append his hf,
      flatMap_eq_sum weight_nil weight_append his' hg, ← Finset.sum_add_distrib]
    exact Finset.sum_congr rfl fun i _ ↦ (weight_append _ _).symm

end Several

/-! ### Parking -/

theorem settled_append {ts us : List (Touch M)} : ∀ c : Cell M,
    Settled c.present (ts ++ us) ↔ Settled c.present ts ∧ Settled (replay c ts).present us := by
  induction ts with
  | nil => intro c; simp [Settled]
  | cons t ts ih =>
    rintro ⟨p, x⟩
    rw [List.cons_append, replay_cons]
    cases t with
    | add d =>
      have ih := ih ⟨p, x + d⟩
      simp only [Settled, Cell.touch, and_assoc] at ih ⊢
      rw [ih]
    | set n =>
      have ih := ih (Cell.touch ⟨p, x⟩ (.set n))
      cases p <;> simpa [Settled, Cell.touch] using ih
    | del => simpa [Settled, Cell.touch] using ih ⟨false, 0⟩

/-- A counter without a record, none of whose additions were parked, has nothing. -/
theorem total_replay_of_settled {ts : List (Touch M)} : ∀ {c : Cell M},
    (c.present = false → c.total = 0) → Settled c.present ts →
      (replay c ts).present = false → (replay c ts).total = 0 := by
  induction ts with
  | nil => intro c hc _; exact hc
  | cons t ts ih =>
    rintro ⟨p, x⟩ hc hset
    rw [replay_cons]
    cases t with
    | add d =>
      obtain ⟨rfl, hset⟩ := hset
      exact ih (fun hp ↦ nomatch hp) hset
    | set n =>
      have hp := Cell.present_touch_set ⟨p, x⟩ n
      refine ih (fun hp' ↦ ?_) (by rw [hp]; exact hset)
      rw [hp] at hp'
      exact nomatch hp'
    | del => exact ih (fun _ ↦ rfl) hset

/-- **A log replayed over a record that already counts it.** As long as the log only adds, it is
counted twice. From its first record on it says what it always said. -/
theorem replay_over {ts : List (Touch M)} : ∀ {c : Cell M} (x : M),
    (c.present = false → c.total = 0) → Settled c.present ts →
      replay ⟨true, x⟩ ts
        = if ts.all Touch.isAdd then ⟨true, x + added ts⟩ else replay c ts := by
  induction ts with
  | nil =>
    intro c x _ _
    exact congrArg (Cell.mk true) (add_zero x).symm
  | cons t ts ih =>
    rintro ⟨p, y⟩ x hc hset
    rw [replay_cons, replay_cons, List.all_cons, added_cons]
    cases t with
    | add d =>
      obtain ⟨rfl, hset⟩ := hset
      have ih := ih (c := ⟨true, y + d⟩) (x + d) (fun h ↦ nomatch h) hset
      rw [add_assoc] at ih
      exact ih
    | set n =>
      -- Both replays are at this record now.
      have hsame : Cell.touch ⟨true, x⟩ (.set n) = Cell.touch ⟨p, y⟩ (.set n) := by
        cases p with
        | true => rfl
        | false =>
          obtain rfl : y = 0 := hc rfl
          exact congrArg (Cell.mk true) (add_zero n).symm
      rw [hsame]
      rfl
    | del => rfl

end Replay

end CounterLog
