import Shrt.Lib.CounterLog

/-!
# Counters written behind

A counter is kept in memory and written to a log behind its back: hits are counted at once,
collected as a pending amount, and appended to the log by a flush. The log can be compacted to one
entry that sets the counter, and a restart replays it.

`Counted` is the invariant that makes a restart harmless: what the log is worth and what is pending
add up to what was counted. Every operation keeps it (`Counted.step`) but one. Writing the counter's
record anew with a count of zero, as a change of other data in the same record does, forgets what
the log was worth. It is harmless exactly when that was nothing, so that all hits are still pending
(`Counted.write_zero`, `Counted.outcome_write_zero`).

Amounts live in any commutative group, with a homomorphism that says what a number of hits is there;
a counter of bounded width is one.
-/

namespace WriteBehind

open CounterLog

/-- A counter with its log. -/
structure Counter (M : Type*) where
  /-- Whether memory has it. -/
  present : Bool
  /-- What memory has counted. -/
  own : M
  /-- The log. -/
  files : List (Touch M)
  /-- What the next flush will write. -/
  pending : Option M

variable {M : Type*}

/-- The pending amount, as a log entry. -/
def Counter.todo (v : Counter M) : List (Touch M) := (v.pending.map Touch.add).toList

theorem Counter.isAdd_of_mem_todo {v : Counter M} {t : Touch M} (ht : t ∈ v.todo) :
    t.isAdd = true := by
  obtain ⟨d, -, rfl⟩ := Option.map_eq_some_iff.mp (Option.mem_toList.mp ht)
  rfl

variable [AddCommGroup M] {φ : ℕ →+ M} {R k : ℕ} {v v' : Counter M}

namespace Counter

/-- What a restart finds: all that was written, and what is still pending, since closing flushes. -/
def outcome (v : Counter M) : Cell M := replay ⟨false, 0⟩ (v.files ++ v.todo)

/-- Write entries to the log. Writing `[.set 0]` writes the record anew, with a count of zero. -/
def write (v : Counter M) (ts : List (Touch M)) : Counter M := { v with files := v.files ++ ts }

theorem added_todo (v : Counter M) : added v.todo = v.pending.getD 0 := by
  rw [todo]
  cases v.pending with
  | none => rfl
  | some d => exact add_zero d

/-- The replay of the log, with the pending amount on top. -/
theorem replay_files_todo (v : Counter M) : v.outcome
    = ⟨(replay ⟨false, 0⟩ v.files).present,
        (replay ⟨false, 0⟩ v.files).total + v.pending.getD 0⟩ := by
  rw [outcome, replay_append, replay_of_isAdd fun t ↦ isAdd_of_mem_todo, added_todo]

theorem weight_todo (v : Counter M) : weight v.todo = v.pending.getD 0 := by
  rw [todo]
  cases v.pending with
  | none => rfl
  | some d => exact add_zero d

/-- All that was written and what is still pending, of a counter that is set once. -/
theorem once_files_todo {v : Counter M} {n : M} : Once n (v.files ++ v.todo) ↔
    (∀ t ∈ v.files, t.isDel = false) ∧ sets v.files = 1 ∧ weight v.files + v.pending.getD 0 = n := by
  have hadd : ∀ t ∈ v.todo, t.isAdd = true := fun t ↦ isAdd_of_mem_todo
  have hsets : sets (v.files ++ v.todo) = sets v.files := by
    rw [sets_append, sets_of_isAdd hadd, Nat.add_zero]
  have hweight : weight (v.files ++ v.todo) = weight v.files + v.pending.getD 0 := by
    rw [weight_append, weight_todo]
  constructor
  · intro h
    exact ⟨fun t ht ↦ h.kept t (List.mem_append_left _ ht), hsets.symm.trans h.sets,
      hweight.symm.trans h.weight⟩
  · rintro ⟨hkept, hone, hn⟩
    refine ⟨fun t ht ↦ ?_, hsets.trans hone, hweight.trans hn⟩
    rcases List.mem_append.mp ht with ht | ht
    · exact hkept t ht
    · exact Touch.not_isDel_of_isAdd (hadd t ht)

end Counter

/-- The operations that count right, with the number of hits each of them counts. -/
inductive Step (φ : ℕ →+ M) : Counter M → Counter M → ℕ → Prop
  /-- Nothing happens to this counter. -/
  | idle {v : Counter M} : Step φ v v 0
  /-- The counter is created, with a record of count zero. -/
  | create {v : Counter M} (h : v.present = false) :
      Step φ v { v.write [.set 0] with present := true, own := 0 } 0
  /-- A hit. -/
  | hit {v : Counter M} (h : v.present = true) :
      Step φ v { v with own := v.own + φ 1, pending := some (v.pending.getD 0 + φ 1) } 1
  /-- A flush. -/
  | flush {v : Counter M} : Step φ v { v.write v.todo with pending := none } 0
  /-- A compaction. -/
  | compact {v : Counter M} : Step φ v
      { v with files := if v.present then [.set v.own] else [], pending := none } 0
  /-- A restart. -/
  | restart {v : Counter M} : Step φ v
      { present := v.outcome.present
        own := if v.outcome.present then v.outcome.total else 0
        files := v.files ++ v.todo
        pending := none } 0

/-- What was counted is in the log or pending, and the log needs no parking. -/
structure Counted (φ : ℕ →+ M) (R : ℕ) (v : Counter M) : Prop where
  settled : Settled false v.files
  absent : v.present = false → v.pending = none ∧ v.own = 0
  own : v.own = φ R
  logged : ∃ l d, replay ⟨false, 0⟩ v.files = ⟨v.present, φ l⟩ ∧ v.pending.getD 0 = φ d ∧ l + d = R

namespace Counted

/-- **A restart is harmless.** -/
theorem outcome_eq (h : Counted φ R v) : v.outcome = ⟨v.present, v.own⟩ := by
  obtain ⟨l, d, hrep, hpend, hsum⟩ := h.logged
  rw [Counter.replay_files_todo, hrep, hpend, ← map_add, hsum, h.own]

theorem settled_files_todo (h : Counted φ R v) : Settled false (v.files ++ v.todo) := by
  obtain ⟨l, d, hrep, -, -⟩ := h.logged
  refine (settled_append ⟨false, 0⟩).mpr ⟨h.settled, ?_⟩
  rw [hrep]
  cases hp : v.present with
  | true => exact settled_of_isAdd fun t ↦ Counter.isAdd_of_mem_todo
  | false =>
    rw [Counter.todo, (h.absent hp).1]
    trivial

/-- Every operation that counts right keeps the invariant. -/
theorem step (h : Counted φ R v) (hs : Step φ v v' k) : Counted φ (R + k) v' := by
  have hout := h.outcome_eq
  have hset := h.settled_files_todo
  obtain ⟨l, d, hrep, hpend, hsum⟩ := h.logged
  cases hs with
  | idle => exact h
  | create hp =>
    obtain ⟨hnone, hown⟩ := h.absent hp
    refine ⟨(settled_append ⟨false, 0⟩).mpr ⟨h.settled, trivial⟩,
      (fun hp' ↦ nomatch hp'), hown.symm.trans h.own, l, d, ?_, hpend, hsum⟩
    rw [Counter.write, replay_append, hrep, hp]
    exact congrArg (Cell.mk true) (zero_add (φ l))
  | hit hp =>
    refine ⟨h.settled, fun hp' ↦ ?_, ?_, l, d + 1, hrep, ?_, by rw [← hsum, add_assoc]⟩
    · rw [hp] at hp'
      exact nomatch hp'
    · rw [h.own, map_add]
    · rw [Option.getD_some, hpend, map_add]
  | flush =>
    refine ⟨hset, fun hp ↦ ⟨rfl, (h.absent hp).2⟩, h.own, R, 0, ?_, (map_zero φ).symm, rfl⟩
    rw [← h.own]
    exact hout
  | compact =>
    refine ⟨?_, fun hp ↦ ⟨rfl, (h.absent hp).2⟩, h.own, R, 0, ?_, (map_zero φ).symm, rfl⟩
    · split_ifs <;> trivial
    · cases hp : v.present with
      | true =>
        rw [if_pos rfl, ← h.own]
        exact congrArg (Cell.mk true) (add_zero v.own)
      | false =>
        rw [if_neg Bool.false_ne_true, ← h.own, (h.absent hp).2]
        rfl
  | restart =>
    refine ⟨hset, fun hp ↦ ⟨rfl, if_neg (Bool.eq_false_iff.mp hp)⟩, ?_, R, 0, ?_,
      (map_zero φ).symm, rfl⟩
    · rw [hout]
      cases hp : v.present with
      | true => exact h.own
      | false =>
        rw [if_neg Bool.false_ne_true, ← (h.absent hp).2]
        exact h.own
    · rw [← h.own, hout]
      exact hout

/-- What a restart finds after the record was written anew: the hits that were pending. -/
theorem outcome_write_zero (h : Counted φ R v) (hp : v.present = true) :
    (v.write [.set 0]).outcome = ⟨true, v.pending.getD 0⟩ := by
  obtain ⟨l, d, hrep, -, -⟩ := h.logged
  rw [Counter.replay_files_todo, Counter.write, replay_append, hrep, hp]
  exact congrArg (Cell.mk true) (zero_add _)

theorem settled_write_zero (h : Counted φ R v) :
    Settled false ((v.write [.set 0]).files ++ (v.write [.set 0]).todo) := by
  refine (settled_append ⟨false, 0⟩).mpr ⟨(settled_append ⟨false, 0⟩).mpr ⟨h.settled, trivial⟩, ?_⟩
  have hpresent : (replay ⟨false, 0⟩ (v.write [.set 0]).files).present = true := by
    rw [Counter.write, replay_append]
    exact Cell.present_touch_set ..
  rw [hpresent]
  exact settled_of_isAdd fun t ↦ Counter.isAdd_of_mem_todo

/-- **Writing the record anew is harmless when all hits are pending.** -/
theorem write_zero (h : Counted φ R v) (hp : v.present = true) (hown : v.own = v.pending.getD 0) :
    Counted φ R (v.write [.set 0]) := by
  obtain ⟨l, d, hrep, hpend, hsum⟩ := h.logged
  have hl : φ l = 0 := by
    rw [h.own, hpend, ← hsum, map_add] at hown
    exact add_eq_right.mp hown
  refine ⟨(settled_append ⟨false, 0⟩).mpr ⟨h.settled, trivial⟩, h.absent, h.own, l, d, ?_, hpend,
    hsum⟩
  rw [Counter.write, replay_append, hrep, hp, hl]
  rfl

end Counted

/-! ## Counters that are deleted

A counter can be deleted while hits on it are pending. They are written after the entry that deletes
it and wait there, in the log, for a counter of the same name. -/

/-- A deleted counter, with the hits that wait for a successor. -/
structure Gone (v : Counter M) : Prop where
  absent : v.present = false
  own : v.own = 0
  waiting : ∃ ts us, v.files = ts ++ us ∧ Settled false ts ∧ replay ⟨false, 0⟩ ts = ⟨false, 0⟩ ∧
    ∀ u ∈ us, u.isAdd = true

/-- No hits wait for a successor: none are pending, and the last entry of the log is not one that
counts. -/
def Counter.Clear (v : Counter M) : Prop :=
  v.pending = none ∧ ∀ t ∈ v.files.getLast?, t.isAdd = false

instance Counter.decidableClear [DecidableEq M] (v : Counter M) : Decidable v.Clear :=
  inferInstanceAs (Decidable (_ ∧ _))

namespace Gone

/-- A counter that was never there. -/
theorem of_counted (h : Counted φ R v) (hp : v.present = false) : Gone v := by
  obtain ⟨l, d, hrep, -, -⟩ := h.logged
  rw [hp] at hrep
  have htotal := CounterLog.total_replay_of_settled (c := ⟨false, (0 : M)⟩) (fun _ ↦ rfl) h.settled
    (by rw [hrep])
  refine ⟨hp, (h.absent hp).2, v.files, [], (List.append_nil _).symm, h.settled, ?_, by simp⟩
  rw [hrep] at htotal ⊢
  exact congrArg (Cell.mk false) htotal

/-- Deleting a counter. -/
theorem delete (h : Counted φ R v) : Gone { v.write [.del] with present := false, own := 0 } where
  absent := rfl
  own := rfl
  waiting := by
    refine ⟨v.files ++ [.del], [], (List.append_nil _).symm, ?_, ?_, by simp⟩
    · exact (settled_append ⟨false, 0⟩).mpr ⟨h.settled, trivial⟩
    · rw [replay_append]
      rfl

/-- A flush, and a restart, write the pending hits. -/
theorem write_todo (h : Gone v) : Gone { v.write v.todo with pending := none } where
  absent := h.absent
  own := h.own
  waiting := by
    obtain ⟨ts, us, hfiles, hset, hrep, hadd⟩ := h.waiting
    refine ⟨ts, us ++ v.todo, ?_, hset, hrep, fun u hu ↦ ?_⟩
    · rw [← List.append_assoc, ← hfiles]
      rfl
    · rcases List.mem_append.mp hu with hu | hu
      · exact hadd u hu
      · exact Counter.isAdd_of_mem_todo hu

/-- When no hits wait, a successor starts from zero. -/
theorem counted (h : Gone v) (hc : v.Clear) : Counted φ 0 v := by
  obtain ⟨ts, us, hfiles, hset, hrep, hadd⟩ := h.waiting
  have hus : us = [] := by
    rcases List.eq_nil_or_concat us with rfl | ⟨us', u, rfl⟩
    · rfl
    · have hlast : v.files.getLast? = some u := by
        rw [hfiles, List.concat_eq_append, ← List.append_assoc, List.getLast?_concat]
      have hnot := hc.2 u hlast
      rw [hadd u (by simp)] at hnot
      exact nomatch hnot
  rw [hus, List.append_nil] at hfiles
  refine ⟨hfiles ▸ hset, fun _ ↦ ⟨hc.1, h.own⟩, h.own.trans (map_zero φ).symm, 0, 0, ?_, ?_, rfl⟩
  · rw [hfiles, hrep, h.absent, map_zero]
  · rw [hc.1, map_zero]
    rfl

end Gone

/-! ## Amounts that add up

When several parties hold a share of the hits at once, each share is known only up to what the
counters can hold. `Parts` says that the shares are those of natural numbers of hits that add up. -/

/-- The amounts are numbers of hits that add up to `R`. -/
def Parts (φ : ℕ →+ M) (R : ℕ) (s : Multiset M) : Prop := ∃ ns : Multiset ℕ, ns.map φ = s ∧ ns.sum = R

namespace Parts

variable {s z : Multiset M} {x y : M}

theorem congr {t : Multiset M} (h : Parts φ R s) (hst : s = t) : Parts φ R t := hst ▸ h

theorem sum_eq (h : Parts φ R s) : s.sum = φ R := by
  obtain ⟨ns, rfl, rfl⟩ := h
  exact (map_multiset_sum φ ns).symm

/-- One more hit. -/
theorem one (h : Parts φ R s) : Parts φ (R + 1) ({φ 1} + s) := by
  obtain ⟨ns, rfl, rfl⟩ := h
  refine ⟨1 ::ₘ ns, Multiset.map_cons .., ?_⟩
  rw [Multiset.sum_cons, add_comm]

/-- A party that has nothing. -/
theorem zero (h : Parts φ R s) : Parts φ R ({0} + s) := by
  obtain ⟨ns, rfl, rfl⟩ := h
  refine ⟨0 ::ₘ ns, ?_, ?_⟩
  · rw [Multiset.map_cons, map_zero, Multiset.singleton_add]
  · rw [Multiset.sum_cons, zero_add]

theorem zeros (hz : ∀ x ∈ z, x = 0) (h : Parts φ R s) : Parts φ R (z + s) := by
  induction z using Multiset.induction_on with
  | empty => rwa [zero_add]
  | cons x z ih =>
    rw [hz x (Multiset.mem_cons_self x z), ← Multiset.singleton_add, add_assoc]
    exact (ih fun y hy ↦ hz y (Multiset.mem_cons_of_mem hy)).zero

/-- One party's share. -/
theorem cons (h : Parts φ R ({x} + s)) : ∃ n u, φ n = x ∧ n + u = R ∧ Parts φ u s := by
  classical
  obtain ⟨ns, hns, rfl⟩ := h
  obtain ⟨n, hn, rfl, hrest⟩ := (Multiset.map_eq_cons φ ns s x).mpr hns
  refine ⟨n, (ns.erase n).sum, rfl, ?_, ns.erase n, hrest, rfl⟩
  rw [← Multiset.sum_cons, Multiset.cons_erase hn]

/-- A party hands its share to another. -/
theorem merge (h : Parts φ R ({x} + ({y} + s))) : Parts φ R ({x + y} + s) := by
  obtain ⟨n, u, rfl, rfl, hu⟩ := h.cons
  obtain ⟨k, v, rfl, rfl, ns, rfl, rfl⟩ := hu.cons
  refine ⟨(n + k) ::ₘ ns, ?_, ?_⟩
  · rw [Multiset.map_cons, map_add, Multiset.singleton_add]
  · rw [Multiset.sum_cons, add_assoc]

/-- A party that has nothing leaves. -/
theorem dismiss (hz : ∀ x ∈ z, x = 0) (h : Parts φ R ({x} + (z + s))) : Parts φ R ({x} + s) := by
  induction z using Multiset.induction_on with
  | empty => rwa [zero_add] at h
  | cons y z ih =>
    rw [hz y (Multiset.mem_cons_self y z), ← Multiset.singleton_add, add_assoc] at h
    have hmerge := h.merge
    rw [add_zero] at hmerge
    exact ih (fun y hy ↦ hz y (Multiset.mem_cons_of_mem hy)) hmerge

end Parts

end WriteBehind
