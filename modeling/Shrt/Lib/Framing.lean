import Mathlib

/-!
# Delimiter framing

A stream of symbols is cut into records at every occurrence of a delimiter. `cut` returns the
records that were closed by a delimiter together with the symbols after the last one, the *open
tail*; empty records are dropped. `frame` is the converse: each record followed by one delimiter.

## Torn tails

The point of the layout is that a stream can be stopped at any symbol. `cut_fst_of_take_frame`
says what a reader of the first `m` symbols of a framed list sees: exactly the records that end
inside those symbols, and nothing of the one that was being written. `cut_append` is the law behind
it and behind any reader that resumes: the open tail of what has been read is carried into what is
read next.
-/

namespace Framing

variable {α : Type*}

/-! ## Framing -/

/-- Each record followed by one delimiter. -/
def frame (nl : α) (rs : List (List α)) : List α := rs.flatMap fun r ↦ r ++ [nl]

/-- A record that framing can carry: nonempty and free of the delimiter. -/
def Record (nl : α) (r : List α) : Prop := r ≠ [] ∧ nl ∉ r

variable {nl : α}

@[simp] theorem frame_nil : frame nl ([] : List (List α)) = [] := rfl

@[simp] theorem frame_cons (r : List α) (rs : List (List α)) :
    frame nl (r :: rs) = r ++ nl :: frame nl rs := by
  simp [frame]

theorem frame_append (rs qs : List (List α)) :
    frame nl (rs ++ qs) = frame nl rs ++ frame nl qs := by
  simp [frame]

/-! ## What a bounded reader can have seen -/

/-- The number of records of `rs` whose closing delimiter lies within the first `m` symbols. -/
def closedWithin : List (List α) → ℕ → ℕ
  | [], _ => 0
  | r :: rs, m => if r.length + 1 ≤ m then closedWithin rs (m - (r.length + 1)) + 1 else 0

theorem closedWithin_le_length (rs : List (List α)) : ∀ m : ℕ, closedWithin rs m ≤ rs.length := by
  induction rs with
  | nil => intro m; simp [closedWithin]
  | cons r rs ih =>
    intro m
    rw [closedWithin]
    split_ifs
    · exact Nat.succ_le_succ (ih _)
    · exact Nat.zero_le _

/-- The count is the right one: the first `closedWithin rs m` records end inside the first `m`
symbols. -/
theorem length_frame_take_closedWithin_le (rs : List (List α)) : ∀ m : ℕ,
    (frame nl (rs.take (closedWithin rs m))).length ≤ m := by
  induction rs with
  | nil => intro m; simp [closedWithin]
  | cons r rs ih =>
    intro m
    rw [closedWithin]
    split_ifs with hm
    · rw [List.take_succ_cons, frame_cons, List.length_append, List.length_cons]
      have := ih (m - (r.length + 1))
      omega
    · simp

/-- And no further record does. -/
theorem lt_length_frame_take_succ (rs : List (List α)) : ∀ m : ℕ,
    closedWithin rs m < rs.length →
      m < (frame nl (rs.take (closedWithin rs m + 1))).length := by
  induction rs with
  | nil => intro m h; simp [closedWithin] at h
  | cons r rs ih =>
    intro m h
    rw [closedWithin] at h ⊢
    split_ifs at h ⊢ with hm
    · rw [List.length_cons] at h
      rw [List.take_succ_cons, frame_cons, List.length_append, List.length_cons]
      have := ih (m - (r.length + 1)) (by omega)
      omega
    · simp only [Nat.zero_add, List.take_succ_cons, List.take_zero, frame_cons, frame_nil,
        List.length_append, List.length_cons, List.length_nil]
      omega

/-! ## Cutting -/

variable [DecidableEq α]

/-- Cut a stream at every delimiter, with `cur` the record begun so far. -/
def cut (nl : α) : List α → List α → List (List α) × List α
  | cur, [] => ([], cur)
  | cur, b :: rest =>
    if b = nl then
      let r := cut nl [] rest
      (if cur = [] then r.1 else cur :: r.1, r.2)
    else cut nl (cur ++ [b]) rest

@[simp] theorem cut_nil (cur : List α) : cut nl cur [] = ([], cur) := rfl

theorem cut_cons_self (cur rest : List α) :
    cut nl cur (nl :: rest)
      = (if cur = [] then (cut nl [] rest).1 else cur :: (cut nl [] rest).1,
          (cut nl [] rest).2) := by
  rw [cut, if_pos rfl]

theorem cut_cons_of_ne {b : α} (h : b ≠ nl) (cur rest : List α) :
    cut nl cur (b :: rest) = cut nl (cur ++ [b]) rest := by
  rw [cut, if_neg h]

/-- **Resumption.** The open tail of the first part is the begun record of the second. -/
theorem cut_append (xs : List α) : ∀ (cur ys : List α),
    cut nl cur (xs ++ ys)
      = ((cut nl cur xs).1 ++ (cut nl (cut nl cur xs).2 ys).1,
          (cut nl (cut nl cur xs).2 ys).2) := by
  induction xs with
  | nil => intro cur ys; rfl
  | cons b xs ih =>
    intro cur ys
    by_cases hb : b = nl
    · subst hb
      rw [List.cons_append, cut_cons_self, cut_cons_self, ih]
      by_cases hc : cur = []
      · simp [hc]
      · simp [hc]
    · rw [List.cons_append, cut_cons_of_ne hb, cut_cons_of_ne hb, ih]

theorem cut_of_notMem {xs : List α} (h : nl ∉ xs) : ∀ cur : List α,
    cut nl cur xs = ([], cur ++ xs) := by
  induction xs with
  | nil => intro cur; simp
  | cons b xs ih =>
    intro cur
    rw [List.mem_cons, not_or] at h
    rw [cut_cons_of_ne (Ne.symm h.1), ih h.2]
    simp

/-- The open tail never holds a delimiter. -/
theorem notMem_cut_snd (xs : List α) : ∀ cur : List α, nl ∉ cur → nl ∉ (cut nl cur xs).2 := by
  induction xs with
  | nil => intro cur h; exact h
  | cons b xs ih =>
    intro cur h
    by_cases hb : b = nl
    · subst hb
      rw [cut_cons_self]
      exact ih [] (List.not_mem_nil)
    · rw [cut_cons_of_ne hb]
      refine ih _ fun hmem ↦ ?_
      rcases List.mem_append.mp hmem with hmem | hmem
      · exact h hmem
      · exact hb (List.mem_singleton.mp hmem).symm

/-- Cutting makes nothing longer; it drops the delimiters of empty records. -/
theorem length_frame_cut_le (xs : List α) : ∀ cur : List α,
    (frame nl (cut nl cur xs).1).length + (cut nl cur xs).2.length ≤ cur.length + xs.length := by
  induction xs with
  | nil =>
    intro cur
    rw [cut_nil, frame_nil]
    exact le_of_eq (Nat.add_comm _ _)
  | cons b xs ih =>
    intro cur
    by_cases hb : b = nl
    · subst hb
      have hrest := ih []
      rw [cut_cons_self]
      split_ifs
      · simp only [List.length_cons, List.length_nil] at hrest ⊢
        omega
      · simp only [frame_cons, List.length_append, List.length_cons, List.length_nil] at hrest ⊢
        omega
    · rw [cut_cons_of_ne hb]
      have hrest := ih (cur ++ [b])
      simp only [List.length_append, List.length_cons, List.length_nil] at hrest ⊢
      omega

theorem length_cut_snd_le (xs cur : List α) :
    (cut nl cur xs).2.length ≤ cur.length + xs.length :=
  le_of_add_le_right (length_frame_cut_le xs cur)

/-- A reader that puts the open tail in front of what it reads next misses nothing. -/
theorem cut_append_tail (xs ys : List α) : cut nl [] (xs ++ ys)
    = ((cut nl [] xs).1 ++ (cut nl [] ((cut nl [] xs).2 ++ ys)).1,
        (cut nl [] ((cut nl [] xs).2 ++ ys)).2) := by
  have htail : nl ∉ (cut nl [] xs).2 := notMem_cut_snd xs [] List.not_mem_nil
  rw [cut_append xs, cut_append (cut nl [] xs).2, cut_of_notMem htail, List.nil_append,
    List.nil_append]

/-- A begun record that is closed by the delimiter is delivered whole. -/
theorem cut_closed {xs : List α} (h : Record nl xs) (ys : List α) :
    cut nl [] (xs ++ nl :: ys) = (xs :: (cut nl [] ys).1, (cut nl [] ys).2) := by
  rw [cut_append, cut_of_notMem h.2, cut_cons_self, List.nil_append]
  simp only [if_neg h.1, List.nil_append]

/-- **Framing is lossless**, whatever follows the framed records. -/
theorem cut_frame_append {rs : List (List α)} (h : ∀ r ∈ rs, Record nl r) (ys : List α) :
    cut nl [] (frame nl rs ++ ys) = (rs ++ (cut nl [] ys).1, (cut nl [] ys).2) := by
  induction rs with
  | nil => rfl
  | cons r rs ih =>
    rw [frame_cons, List.append_assoc, List.cons_append, cut_closed (h r List.mem_cons_self),
      ih fun q hq ↦ h q (List.mem_cons_of_mem _ hq)]
    rfl

theorem cut_frame {rs : List (List α)} (h : ∀ r ∈ rs, Record nl r) :
    cut nl [] (frame nl rs) = (rs, []) := by
  simpa using cut_frame_append h []

/-- **Torn tail.** A reader of the first `m` symbols sees the records closed within them. -/
theorem cut_fst_of_take_frame {rs : List (List α)} (h : ∀ r ∈ rs, Record nl r) : ∀ m : ℕ,
    (cut nl [] ((frame nl rs).take m)).1 = rs.take (closedWithin rs m) := by
  induction rs with
  | nil => intro m; simp [closedWithin]
  | cons r rs ih =>
    intro m
    have hr := h r List.mem_cons_self
    have hrs : ∀ q ∈ rs, Record nl q := fun q hq ↦ h q (List.mem_cons_of_mem _ hq)
    rw [frame_cons, closedWithin]
    by_cases hm : r.length + 1 ≤ m
    · have htake : (r ++ nl :: frame nl rs).take m
          = r ++ nl :: (frame nl rs).take (m - (r.length + 1)) := by
        rw [List.take_append, List.take_of_length_le (by omega),
          show m - r.length = (m - (r.length + 1)) + 1 from by omega, List.take_succ_cons]
      rw [htake, cut_closed hr, ih hrs, if_pos hm, List.take_succ_cons]
    · -- The cut falls inside the first record, so no delimiter has been read.
      have htake : (r ++ nl :: frame nl rs).take m = r.take m := by
        rw [List.take_append, show m - r.length = 0 from by omega, List.take_zero,
          List.append_nil]
      rw [htake, cut_of_notMem fun hmem ↦ hr.2 (List.mem_of_mem_take hmem), if_neg hm,
        List.take_zero]

/-- A torn stream is the records closed within it and the open tail. -/
theorem take_frame_eq {rs : List (List α)} (h : ∀ r ∈ rs, Record nl r) : ∀ m : ℕ,
    (frame nl rs).take m
      = frame nl (rs.take (closedWithin rs m)) ++ (cut nl [] ((frame nl rs).take m)).2 := by
  induction rs with
  | nil => intro m; simp [closedWithin]
  | cons r rs ih =>
    intro m
    have hr := h r List.mem_cons_self
    rw [frame_cons, closedWithin]
    by_cases hm : r.length + 1 ≤ m
    · have htake : (r ++ nl :: frame nl rs).take m
          = r ++ nl :: (frame nl rs).take (m - (r.length + 1)) := by
        rw [List.take_append, List.take_of_length_le (by omega),
          show m - r.length = (m - (r.length + 1)) + 1 from by omega, List.take_succ_cons]
      rw [htake, cut_closed hr, if_pos hm, List.take_succ_cons, frame_cons, List.append_assoc,
        List.cons_append, ← ih fun q hq ↦ h q (List.mem_cons_of_mem _ hq)]
    · have htake : (r ++ nl :: frame nl rs).take m = r.take m := by
        rw [List.take_append, show m - r.length = 0 from by omega, List.take_zero,
          List.append_nil]
      rw [htake, cut_of_notMem fun hmem ↦ hr.2 (List.mem_of_mem_take hmem), if_neg hm,
        List.take_zero]
      rfl

/-! ## Cutting and splitting -/

/-- Cutting is splitting at every delimiter: all pieces but the last are closed, and the empty ones
among them are dropped. -/
theorem cut_eq_splitOn (xs : List α) : ∀ cur : List α,
    cut nl cur xs = (((xs.splitOn nl).modifyHead (cur ++ ·)).dropLast.filter (· ≠ []),
      ((xs.splitOn nl).modifyHead (cur ++ ·)).getLastD []) := by
  induction xs with
  | nil =>
    intro cur
    simp
  | cons b xs ih =>
    intro cur
    obtain ⟨p, ps, hps⟩ := List.exists_cons_of_ne_nil (List.splitOnP_ne_nil (· == nl) xs)
    have hxs : xs.splitOn nl = p :: ps := hps
    by_cases hb : b = nl
    · subst hb
      have hsplit : (b :: xs).splitOn b = [] :: xs.splitOn b := by
        rw [List.splitOn, List.splitOnP_cons_eq_if_modifyHead, if_pos (beq_self_eq_true b),
          List.splitOn]
      rw [cut_cons_self, ih, hsplit, hxs]
      by_cases hc : cur = []
      · simp [hc]
      · simp [hc]
    · have hsplit : (b :: xs).splitOn nl = (b :: p) :: ps := by
        rw [List.splitOn, List.splitOnP_cons_eq_if_modifyHead, if_neg (by simpa using hb), hps,
          List.modifyHead_cons]
      rw [cut_cons_of_ne hb, ih, hsplit, hxs]
      simp

end Framing
