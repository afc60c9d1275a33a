import Shrt.Common
import Shrt.Lib.SlotRing

/-!
# The window of the metrics

`GET /metrics` tells how many requests came in each of the last thirty seconds and in the current
one. They are counted in sixty buckets, one for a second modulo sixty. A bucket is cleared only when
a tick arrives in a later second, so what a reader finds in the ring may be as old as the last tick:
it takes a bucket for its second only if that second is not later than the last tick and less than
sixty seconds before it.

The functions of the source are atomic here. Their times are read off the clock in milliseconds, and
the seconds are plain integers: a quotient by a thousand is far from the ends of `int64_t`. The
counters wrap as in the source.
-/

namespace Shrt

/-- The second of a time in milliseconds. -/
def second (ms : Int64) : ℤ := ms.toInt.tdiv 1000

/-- The bucket of a second, `t % N`. The remainder in C has the sign of `t`, and a second before the
epoch has no bucket; it is given the first one. -/
def bucket (t : ℤ) : Fin 60 := Fin.ofNat 60 (t.tmod 60).toNat

/-- The state behind `tick` and `snapshot`. -/
structure Metrics where
  /-- `BUCKETS`. -/
  buckets : Fin 60 → Int64 := fun _ ↦ 0
  /-- `CUR`, the second of the last tick. -/
  cur : ℤ := 0
  /-- `TOTAL`. -/
  total : Int64 := 0
  /-- `STARTED`, in milliseconds. -/
  started : Int64 := 0

/-- What `snapshot` prints. -/
structure Report where
  /-- Requests a second, over the last five seconds that are over. -/
  reqS : Float
  /-- All requests. -/
  total : Int64
  /-- The time since the start in seconds. -/
  uptimeS : Int64
  /-- The requests in each of the last thirty seconds and in the current one. -/
  perSecond : Fin 31 → Int64

/-- The mean over the last five seconds that are over, to one decimal. -/
def reqS (window : Fin 31 → Int64) : Float :=
  let last5 := ([25, 26, 27, 28, 29] : List (Fin 31)).foldl (fun n i ↦ n + window i) 0
  Float.round (last5.toFloat / 5.0 * 10.0) / 10.0

/-- Numbers with commas between them. -/
def itoaCommas : List Int64 → Bytes
  | [] => []
  | [v] => itoa v
  | v :: w :: vs => itoa v ++ [44] ++ itoaCommas (w :: vs)

/-- The text of a report; `fmt` is the format `%g`. -/
def Report.text (fmt : Float → Bytes) (r : Report) : Bytes :=
  lit "\x7b\"req_s\":" ++ fmt r.reqS ++ lit ",\"total\":" ++ itoa r.total ++ lit ",\"uptime_s\":" ++
    itoa r.uptimeS ++ lit ",\"per_second\":[" ++ itoaCommas (List.ofFn r.perSecond) ++ lit "]\x7d"

namespace Metrics

/-- `metrics::init`. -/
def init (m : Metrics) (ms : Int64) : Metrics := { m with started := ms, cur := second ms }

/-- Counts a request in the bucket of a second. -/
def bump (m : Metrics) (sec : ℤ) : Metrics :=
  { m with buckets := Function.update m.buckets (bucket sec) (m.buckets (bucket sec) + 1) }

/-- The rest of `tick` in the second `s` once `c` has been loaded from `CUR`. -/
def tickFrom (m : Metrics) (s c : ℤ) : Metrics :=
  if s = c then m.bump s
  else if m.cur = c then
    -- The exchange succeeds, and this thread clears the buckets of the seconds since.
    bump { m with cur := s, buckets := SlotRing.clear bucket (s - c).toNat c m.buckets } s
  else m.bump m.cur

/-- `metrics::tick`. -/
def tick (m : Metrics) (ms : Int64) : Metrics :=
  tickFrom { m with total := m.total + 1 } (second ms) m.cur

/-- The array `window` of `snapshot` in the second `s`. -/
def window (m : Metrics) (s : ℤ) (i : Fin 31) : Int64 :=
  let t := s - 30 + (i : ℕ)
  if t ≤ m.cur ∧ m.cur - t < 60 then m.buckets (bucket t) else 0

/-- `metrics::snapshot`, which reads the clock a second time for the time since the start. -/
def snapshot (m : Metrics) (ms ms' : Int64) : Report where
  reqS := reqS (m.window (second ms))
  total := m.total
  uptimeS := (ms' - m.started) / 1000
  perSecond := m.window (second ms)

/-! ## Runs -/

/-- A call, with what it reads off the clock. -/
inductive Call where
  | tick (ms : Int64)
  | snapshot (ms ms' : Int64)

/-- The time of a call, which is its first reading of the clock. -/
def Call.ms : Call → Int64
  | .tick ms => ms
  | .snapshot ms _ => ms

/-- What a call leaves. -/
def after (m : Metrics) : Call → Metrics
  | .tick ms => m.tick ms
  | .snapshot _ _ => m

/-- Whether a call is a tick in a second. -/
def Call.ticks (t : ℤ) : Call → Bool
  | .tick ms => second ms = t
  | .snapshot _ _ => false

/-- The number of ticks in a second. -/
def ticksIn (t : ℤ) (calls : List Call) : ℕ := calls.countP (Call.ticks t)

/-- Whether a call is a tick. -/
def Call.isTick : Call → Bool
  | .tick _ => true
  | .snapshot _ _ => false

/-- What a snapshot is for: the report on the calls since the start at `ms₀`. -/
def report (ms₀ : Int64) (calls : List Call) (ms ms' : Int64) : Report :=
  let window := fun i : Fin 31 ↦ Int64.ofNat (ticksIn (second ms - 30 + (i : ℕ)) calls)
  { reqS := reqS window
    total := Int64.ofNat (calls.countP Call.isTick)
    uptimeS := (ms' - ms₀) / 1000
    perSecond := window }

theorem ticksIn_concat_snapshot {t : ℤ} {calls : List Call} {ms ms' : Int64} :
    ticksIn t (calls ++ [.snapshot ms ms']) = ticksIn t calls := by
  rw [ticksIn, List.countP_append]
  rfl

theorem ticksIn_concat_tick {t : ℤ} {calls : List Call} {ms : Int64} :
    ticksIn t (calls ++ [.tick ms]) = ticksIn t calls + if second ms = t then 1 else 0 := by
  rw [ticksIn, List.countP_append, List.countP_singleton, Call.ticks, ticksIn]
  simp only [decide_eq_true_eq]

/-- One more tick is one more in its second. -/
theorem ofNat_ticksIn_concat (calls : List Call) (ms : Int64) :
    (fun t ↦ Int64.ofNat (ticksIn t (calls ++ [.tick ms]))) =
      Function.update (fun t ↦ Int64.ofNat (ticksIn t calls)) (second ms)
        (Int64.ofNat (ticksIn (second ms) calls) + 1) := by
  funext t
  rw [ticksIn_concat_tick]
  by_cases ht : second ms = t
  · rw [if_pos ht, ← ht, Function.update_self, Int64.ofNat_add]
    rfl
  · rw [if_neg ht, Function.update_of_ne (Ne.symm ht), add_zero]

/-! ## The buckets -/

theorem second_mono {a b : Int64} (h : a ≤ b) : second a ≤ second b :=
  Int.tdiv_le_tdiv (by decide) (Int64.le_iff_toInt_le.mp h)

/-- Seconds less than sixty apart have different buckets. -/
theorem separates_bucket : SlotRing.Separates bucket 60 0 := by
  intro t t' ht hlt hlast h
  have hmod : (t.tmod 60).toNat % 60 = (t'.tmod 60).toNat % 60 := congrArg Fin.val h
  rw [Int.tmod_eq_emod_of_nonneg ht, Int.tmod_eq_emod_of_nonneg (ht.trans hlt.le)] at hmod
  omega

/-- A tick that does not come from the past moves the ring on to its second, by none if it is in the
second of the last tick. -/
theorem tick_of_le {m : Metrics} {ms : Int64} (h : m.cur ≤ second ms) :
    m.tick ms =
      bump { m with
        total := m.total + 1
        cur := second ms
        buckets := SlotRing.clear bucket (second ms - m.cur).toNat m.cur m.buckets } (second ms) := by
  rw [tick, tickFrom]
  rcases h.eq_or_lt with heq | hlt
  · rw [if_pos heq.symm, ← heq, sub_self]
    rfl
  · rw [if_neg hlt.ne', if_pos rfl]

/-- The buckets hold the ticks of the sixty seconds up to the last tick, and there are no later
ones; `ms` is a time by which all calls were made. -/
structure Exact (m : Metrics) (calls : List Call) (ms : Int64) : Prop where
  cur_ge : 60 ≤ m.cur
  cur_le : m.cur ≤ second ms
  holds : SlotRing.Holds bucket 60 (fun t ↦ Int64.ofNat (ticksIn t calls)) m.cur m.buckets
  none_later : ∀ t, m.cur < t → ticksIn t calls = 0

theorem exact_init {ms : Int64} (h : 60 ≤ second ms) : Exact (init {} ms) [] ms where
  cur_ge := h
  cur_le := le_rfl
  holds := fun _ _ _ ↦ rfl
  none_later := fun _ _ ↦ rfl

namespace Exact

variable {m : Metrics} {calls : List Call} {ms ms' : Int64}

theorem mono (h : Exact m calls ms) (hle : ms ≤ ms') : Exact m calls ms' :=
  { h with cur_le := h.cur_le.trans (second_mono hle) }

/-- The ring is moved on to the second of the tick, which is then counted there. -/
theorem tick (h : Exact m calls ms) (hle : ms ≤ ms') :
    Exact (m.tick ms') (calls ++ [.tick ms']) ms' := by
  have hcur : m.cur ≤ second ms' := h.cur_le.trans (second_mono hle)
  have hge := h.cur_ge
  have hnone : ∀ t, m.cur < t → Int64.ofNat (ticksIn t calls) = 0 := by
    intro t ht
    rw [h.none_later t ht]
    rfl
  have hmoved := h.holds.clear separates_bucket (second ms' - m.cur).toNat (by omega) hnone
  rw [Int.toNat_of_nonneg (by omega), add_sub_cancel] at hmoved
  have hcount :
      SlotRing.clear bucket (second ms' - m.cur).toNat m.cur m.buckets (bucket (second ms')) =
        Int64.ofNat (ticksIn (second ms') calls) := hmoved (second ms') (by omega) le_rfl
  rw [tick_of_le hcur]
  refine ⟨hge.trans hcur, le_rfl, ?_, fun t ht ↦ ?_⟩
  · rw [ofNat_ticksIn_concat, ← hcount]
    exact hmoved.update separates_bucket (by omega) _
  · have hlt : second ms' < t := ht
    rw [ticksIn_concat_tick, h.none_later t (hcur.trans_lt hlt), if_neg hlt.ne]

/-- What one call keeps. -/
theorem after (h : Exact m calls ms) {call : Call} (hle : ms ≤ call.ms) :
    Exact (m.after call) (calls ++ [call]) call.ms := by
  cases call with
  | tick ms' => exact h.tick hle
  | snapshot ms' ms'' =>
    have h' := h.mono hle
    refine ⟨h'.cur_ge, h'.cur_le, ?_, fun t ht ↦ ?_⟩
    · simp only [ticksIn_concat_snapshot]
      exact h'.holds
    · rw [ticksIn_concat_snapshot]
      exact h'.none_later t ht

/-- What a run keeps. -/
theorem run (more : List Call) (h : Exact m calls ms)
    (htimes : (ms :: (more.map Call.ms ++ [ms'])).Pairwise (· ≤ ·)) :
    Exact (more.foldl Metrics.after m) (calls ++ more) ms' := by
  induction more generalizing m calls ms with
  | nil =>
    rw [List.append_nil]
    exact h.mono ((List.pairwise_cons.mp htimes).1 ms' List.mem_cons_self)
  | cons call more ih =>
    obtain ⟨hfirst, hrest⟩ := List.pairwise_cons.mp htimes
    have hstep := h.after (hfirst call.ms List.mem_cons_self)
    have hrun := ih hstep hrest
    rw [List.append_assoc] at hrun
    exact hrun

/-- The window has the ticks of each of its seconds: a second after the last tick has none, and no
second of the window is sixty seconds before the last tick. -/
theorem window (h : Exact m calls ms) (i : Fin 31) :
    m.window (second ms) i = Int64.ofNat (ticksIn (second ms - 30 + (i : ℕ)) calls) := by
  have hle := h.cur_le
  rw [Metrics.window]
  by_cases hlater : second ms - 30 + (i : ℕ) ≤ m.cur
  · rw [if_pos ⟨hlater, by omega⟩]
    exact h.holds _ (by omega) hlater
  · rw [if_neg fun hread ↦ hlater hread.1, h.none_later _ (not_le.mp hlater)]
    rfl

end Exact

/-! ## Snapshots -/

section Totals

variable (m : Metrics) (calls : List Call)

/-- Whichever way a tick takes, it is counted once. -/
theorem total_tick (ms : Int64) :
    (m.tick ms).total = m.total + 1 ∧ (m.tick ms).started = m.started := by
  rw [tick, tickFrom]
  split_ifs <;> exact ⟨rfl, rfl⟩

/-- All ticks are counted in the total, at whatever times they come. -/
theorem total_run :
    (calls.foldl after m).total = m.total + Int64.ofNat (calls.countP Call.isTick) := by
  induction calls generalizing m with
  | nil => exact (add_zero m.total).symm
  | cons call calls ih =>
    rw [List.foldl_cons, ih]
    cases call with
    | tick ms =>
      have hmore : (Call.tick ms :: calls).countP Call.isTick = 1 + calls.countP Call.isTick := by
        rw [List.countP_cons_of_pos rfl, add_comm]
      rw [after, (total_tick m ms).1, hmore, Int64.ofNat_add, add_assoc]
      rfl
    | snapshot ms ms' => rw [after, List.countP_cons_of_neg Bool.false_ne_true]

theorem started_run : (calls.foldl after m).started = m.started := by
  induction calls generalizing m with
  | nil => rfl
  | cons call calls ih =>
    rw [List.foldl_cons, ih]
    cases call with
    | tick ms => exact (total_tick m ms).2
    | snapshot ms ms' => rfl

end Totals

section Snapshots

variable (ms₀ : Int64) (calls : List Call) (ms ms' : Int64) (hstart : 60 ≤ second ms₀)
  (htimes : (ms₀ :: (calls.map Call.ms ++ [ms])).Pairwise (· ≤ ·))

include hstart htimes

/-- A snapshot is the report on the calls since the start. -/
theorem snapshot_eq_report :
    (calls.foldl after (init {} ms₀)).snapshot ms ms' = report ms₀ calls ms ms' := by
  have hwindow := funext ((exact_init hstart).run calls htimes).window
  rw [snapshot, report, hwindow, total_run, started_run]
  congr 1
  exact zero_add _

/-- **The window of a snapshot is exact.** After `init` and any calls at times that do not decrease,
a snapshot in the second `s` reports for each `i` the number of ticks in the second `s - 30 + i`. -/
theorem perSecond_eq_ticksIn (i : Fin 31) :
    ((calls.foldl after (init {} ms₀)).snapshot ms ms').perSecond i =
      Int64.ofNat (ticksIn (second ms - 30 + (i : ℕ)) calls) := by
  rw [snapshot_eq_report ms₀ calls ms ms' hstart htimes]
  rfl

end Snapshots

/-- Two ticks, one more sixty seconds later in the same bucket, and after an idle time of more than
sixty seconds another one. -/
def idleCalls : List Call :=
  [.tick 60000, .tick 60999, .tick 120500, .snapshot 120900 120900, .tick 200000]

theorem perSecond_eq_ticksIn_idleCalls :
    (((idleCalls.take 3).foldl after (init {} 60000)).snapshot 120900 120900).perSecond 30 = 1 ∧
      ((idleCalls.foldl after (init {} 60000)).snapshot 209000 209000).perSecond 21 = 1 ∧
      ((idleCalls.foldl after (init {} 60000)).snapshot 209000 209000).perSecond 1 = 0 := by
  have hfirst := perSecond_eq_ticksIn 60000 (idleCalls.take 3) 120900 120900 (by decide)
    (by decide +kernel) 30
  have hsecond := perSecond_eq_ticksIn 60000 idleCalls 209000 209000 (by decide) (by decide +kernel)
  refine ⟨hfirst.trans (by decide +kernel), (hsecond 21).trans (by decide +kernel),
    (hsecond 1).trans (by decide +kernel)⟩

end Metrics

end Shrt
