import Shrt.Common
import Shrt.Lib.TokenBucket

/-!
# The rate limiter

`RateLimiter` keeps a token bucket for every client, by the hash of its address, in 64 maps. A
bucket is filled when it is used next. When a map has become crowded, the buckets that were not used
for a minute are dropped, and a client whose bucket is missing gets a full one.

`Meters` relates a limiter to the meter it stands for: the level of every bucket, or of the full
bucket that a missing one stands for, at any later time. A call keeps the relation and returns what
the meter returns, as long as dropping idle buckets does not change a level (`Harmless`). A bucket
that was idle for a minute is full if the burst takes no longer than that to fill, which it does not
in the default configuration, where it takes a second. So the budget is enforced there
(`budget_enforced`).

Tokens are exact rationals, and the time of last use is the integer that its `double` holds.
-/

namespace Shrt.RateLimit

open Lockstep (outputs)
open TokenBucket (Meter granted refill spend refill_eq_burst)

/-! ## The limiter -/

/-- The number of maps. -/
def SHARDS : ℕ := 64

/-- The number of keys at which a map is crowded. -/
def MAX_KEYS : ℕ := 4096

/-- After how many milliseconds without use a bucket is idle. -/
def IDLE_MS : Int64 := 60000

/-- `ip_key`. -/
def ipKey (ip : Bytes) : UInt64 :=
  ip.foldl (fun h c ↦ (h ^^^ c.toUInt64) * 0x100000001b3) 0xcbf29ce484222325

/-- The map of a key. -/
def shardIdx (k : UInt64) : Fin SHARDS := ⟨k.toNat % 64, Nat.mod_lt _ (by decide)⟩

/-- A token bucket. -/
structure Bucket where
  tokens : ℚ
  lastMs : Int64

/-- One of the maps. -/
abbrev Shard := AList fun _ : UInt64 ↦ Bucket

/-- `RateLimiter`. -/
structure Limiter where
  rate : ℚ
  burst : ℚ
  shards : Fin SHARDS → Shard := fun _ ↦ ∅

/-- The limiter that `RATE_LIMIT` and `RATE_LIMIT_BURST` ask for. -/
def load (rateEnv burstEnv : Option ℚ) : Limiter :=
  let rate := match rateEnv with
    | some v => max 0 v
    | none => 0
  let burst := match burstEnv with
    | some v => max 0 v
    | none => rate
  { rate, burst := if burst < 1 then 1 else burst }

/-- Drop the buckets that are idle. -/
def evictIdle (now : Int64) (m : Shard) : Shard where
  entries := m.entries.filter fun e ↦ !decide (IDLE_MS < now - e.2.lastMs)
  nodupKeys := List.NodupKeys.sublist List.filter_sublist m.nodupKeys

/-- Make room in a map that is crowded. -/
def makeRoom (now : Int64) (m : Shard) : Shard := if MAX_KEYS ≤ m.keys.length then evictIdle now m else m

/-- A call of `allow`. -/
structure Call where
  ip : Bytes
  cost : ℚ
  now : Int64

/-- What a bucket holds at a time, in the words of the source. -/
def Bucket.filled (b : Bucket) (rate burst : ℚ) (now : Int64) : ℚ :=
  min (b.tokens + (now.toInt - b.lastMs.toInt : ℤ) / 1000 * rate) burst

/-- Take tokens out of the bucket of a key. -/
def draw (rate burst : ℚ) (m : Shard) (k : UInt64) (cost : ℚ) (now : Int64) : Bool × Shard :=
  let b := (m.lookup k).getD { tokens := burst, lastMs := now }
  let tokens := b.filled rate burst now
  if cost ≤ tokens then (true, m.insert k { tokens := tokens - cost, lastMs := now })
  else (false, m.insert k { tokens, lastMs := now })

/-- `RateLimiter::allow`, given what is done to a map first. -/
def allowAfter (tidy : Int64 → Shard → Shard) (L : Limiter) (c : Call) : Bool × Limiter :=
  if L.rate ≤ 0 then (true, L)
  else
    let k := ipKey c.ip
    let r := draw L.rate L.burst (tidy c.now (L.shards (shardIdx k))) k c.cost c.now
    (r.1, { L with shards := Function.update L.shards (shardIdx k) r.2 })

/-- `RateLimiter::allow`. -/
def allow : Limiter → Call → Bool × Limiter := allowAfter makeRoom

/-! ## Maps of buckets -/

section Shards

variable {m : Shard} {k : UInt64} {now : Int64} {rate burst : ℚ}

theorem lookup_evictIdle : (evictIdle now m).lookup k =
    (m.lookup k).filter fun b ↦ !decide (IDLE_MS < now - b.lastMs) := by
  refine Option.ext fun b ↦ ?_
  rw [← Option.mem_def, AList.mem_lookup_iff, evictIdle, List.mem_filter, Option.filter_eq_some_iff,
    ← Option.mem_def, AList.mem_lookup_iff]

/-- How full the bucket of a key will be. -/
def Shard.level (rate burst : ℚ) (m : Shard) (k : UInt64) (s : ℚ) : ℚ := match m.lookup k with
  | none => burst
  | some b => refill (rate / 1000) burst b.tokens (s - b.lastMs.toInt)

/-- A bucket that was used before and is not overdrawn. -/
def Bucket.Sane (b : Bucket) (now : Int64) : Prop := b.lastMs ≤ now ∧ 0 ≤ b.tokens

/-- An idle bucket has not been used for more than a minute; the difference does not wrap around. -/
theorem Bucket.Sane.idle {b : Bucket} (h : b.Sane now) (hidle : IDLE_MS < now - b.lastMs) :
    60001 ≤ now.toInt - b.lastMs.toInt := by
  have hle := Int64.le_iff_toInt_le.mp h.1
  rw [Int64.lt_iff_toInt_lt, Int64.toInt_sub] at hidle
  have hms : IDLE_MS.toInt = 60000 := rfl
  have hlow := b.lastMs.le_toInt
  have hhigh := now.toInt_lt
  rw [hms] at hidle
  rcases lt_or_ge (now.toInt - b.lastMs.toInt) (2 ^ 63) with hsmall | hbig
  · rw [Int.bmod_eq_of_le (by omega) (by omega)] at hidle
    omega
  · have hwrap : (now.toInt - b.lastMs.toInt).bmod (2 ^ 64) = now.toInt - b.lastMs.toInt - 2 ^ 64 := by
      rw [← Int.sub_bmod_right, Int.bmod_eq_of_le (by omega) (by omega)]
      rfl
    omega

/-- What a map of buckets can be turned into without a change of level. -/
structure Harmless (rate burst : ℚ) (tidy : Int64 → Shard → Shard) : Prop where
  level : ∀ (m : Shard) (now : Int64), (∀ k b, m.lookup k = some b → b.Sane now) →
    ∀ k s, (now.toInt : ℚ) ≤ s → (tidy now m).level rate burst k s = m.level rate burst k s
  keeps : ∀ (m : Shard) (now : Int64) k b, (tidy now m).lookup k = some b → m.lookup k = some b

theorem harmless_id : Harmless rate burst fun _ m ↦ m :=
  ⟨fun _ _ _ _ _ _ ↦ rfl, fun _ _ _ _ h ↦ h⟩

/-- **Dropping idle buckets is harmless** if a bucket fills in a minute and a millisecond. -/
theorem harmless_makeRoom (hrate : 0 ≤ rate) (hfills : burst ≤ 60001 / 1000 * rate) :
    Harmless rate burst makeRoom where
  level := by
    intro m now hsane k s hs
    rw [makeRoom]
    split_ifs
    · rw [Shard.level, Shard.level, lookup_evictIdle]
      cases hk : m.lookup k with
      | none => rfl
      | some b =>
        by_cases hidle : IDLE_MS < now - b.lastMs
        · -- The bucket is dropped, and it is full.
          have hlong := (hsane k b hk).idle hidle
          have hwait : (60001 : ℚ) ≤ s - b.lastMs.toInt := by
            have : ((60001 : ℤ) : ℚ) ≤ ((now.toInt - b.lastMs.toInt : ℤ) : ℚ) := Int.cast_le.mpr hlong
            push_cast at this
            linarith
          have hfull : burst ≤ b.tokens + (s - b.lastMs.toInt) * (rate / 1000) := by
            have htokens := (hsane k b hk).2
            have := mul_le_mul_of_nonneg_right hwait (div_nonneg hrate (by norm_num : (0 : ℚ) ≤ 1000))
            linarith
          rw [Option.filter_some, if_neg (by simp [hidle])]
          exact (refill_eq_burst hfull).symm
        · rw [Option.filter_some, if_pos (by simp [hidle])]
    · rfl
  keeps := by
    intro m now k b h
    rw [makeRoom] at h
    split_ifs at h
    · rw [lookup_evictIdle] at h
      exact (Option.filter_eq_some_iff.mp h).1
    · exact h

/-! ## One call -/

theorem filled_eq_level :
    ((m.lookup k).getD { tokens := burst, lastMs := now }).filled rate burst now =
      m.level rate burst k now.toInt := by
  rw [Shard.level]
  cases m.lookup k with
  | none =>
    rw [Option.getD_none, Bucket.filled, sub_self, Int.cast_zero, zero_div, zero_mul, add_zero,
      min_self]
  | some b =>
    rw [Option.getD_some, Bucket.filled]
    dsimp only [refill]
    push_cast
    congr 2
    ring

/-- What `draw` answers and leaves. -/
theorem draw_eq (cost : ℚ) : draw rate burst m k cost now =
    (decide (cost ≤ m.level rate burst k now.toInt),
      m.insert k ⟨spend (m.level rate burst k now.toInt) cost, now⟩) := by
  rw [draw, filled_eq_level, spend]
  split_ifs with h
  · rw [decide_eq_true h]
  · rw [decide_eq_false h]

theorem level_insert (b : Bucket) (k' : UInt64) (s : ℚ) :
    Shard.level rate burst (m.insert k b) k' s =
      if k' = k then refill (rate / 1000) burst b.tokens (s - b.lastMs.toInt)
      else m.level rate burst k' s := by
  rw [Shard.level]
  split_ifs with h
  · rw [h, AList.lookup_insert]
  · rw [AList.lookup_insert_ne h, Shard.level]

end Shards

/-! ## The meter behind a limiter -/

variable {L : Limiter} {M : Meter UInt64 ℚ} {now : Int64} {tidy : Int64 → Shard → Shard} {c : Call}

/-- The meter of a limiter takes calls for requests. -/
abbrev meterStep (rate burst : ℚ) : Meter UInt64 ℚ → Call → Bool × Meter UInt64 ℚ :=
  Meter.step (rate / 1000) burst (fun c ↦ ipKey c.ip) Call.cost fun c ↦ c.now.toInt

/-- The limiter stands for the meter. -/
structure Meters (L : Limiter) (M : Meter UInt64 ℚ) (now : Int64) : Prop where
  lawful : M.Lawful (L.rate / 1000) L.burst now.toInt
  level : ∀ k s, (now.toInt : ℚ) ≤ s → (L.shards (shardIdx k)).level L.rate L.burst k s = M k s
  sane : ∀ i k b, (L.shards i).lookup k = some b → b.Sane now

/-- A meter whose buckets are full. -/
theorem lawful_full {rate burst : ℚ} (hrate : 0 ≤ rate) (hburst : 0 ≤ burst) (now : ℚ) :
    Meter.Lawful (rate / 1000) burst (fun (_ : UInt64) _ ↦ burst) now where
  fills := by
    intro k s s' _ hss'
    have hflow : 0 ≤ (s' - s) * (rate / 1000) :=
      mul_nonneg (sub_nonneg.mpr hss') (div_nonneg hrate (by norm_num))
    exact (refill_eq_burst (le_add_of_nonneg_right hflow)).symm
  nonneg := fun _ _ _ ↦ hburst
  le := fun _ _ _ ↦ le_rfl

/-- A new limiter has full buckets only. -/
theorem meters_new {rate burst : ℚ} (hrate : 0 ≤ rate) (hburst : 0 ≤ burst) (now : Int64) :
    Meters { rate, burst } (fun _ _ ↦ burst) now where
  lawful := lawful_full hrate hburst _
  level := fun _ _ _ ↦ rfl
  sane := fun _ k b h ↦ by cases h

/-- **One call.** The limiter answers as the meter does, and stands for it afterwards. -/
theorem Meters.allow (h : Meters L M now) (hrate : 0 < L.rate) (hburst : 0 ≤ L.burst)
    (htidy : Harmless L.rate L.burst tidy) (hnow : now ≤ c.now) :
    (allowAfter tidy L c).1 = (meterStep L.rate L.burst M c).1 ∧
      Meters (allowAfter tidy L c).2 (meterStep L.rate L.burst M c).2 c.now := by
  have hnow' : (now.toInt : ℚ) ≤ c.now.toInt := Int.cast_le.mpr (Int64.le_iff_toInt_le.mp hnow)
  have hsane : ∀ i k b, (L.shards i).lookup k = some b → b.Sane c.now := fun i k b hk ↦
    ⟨Int64.le_trans (h.sane i k b hk).1 hnow, (h.sane i k b hk).2⟩
  have hlevel : ∀ k s, (c.now.toInt : ℚ) ≤ s →
      (tidy c.now (L.shards (shardIdx k))).level L.rate L.burst k s = M k s := fun k s hs ↦
    (htidy.level _ _ (hsane _) k s hs).trans (h.level k s (hnow'.trans hs))
  have hother : ∀ k, k ≠ ipKey c.ip → (meterStep L.rate L.burst M c).2 k = M k := fun k hk ↦
    Function.update_of_ne hk _ _
  rw [allowAfter, if_neg (not_le.mpr hrate)]
  dsimp only
  rw [draw_eq, hlevel _ _ le_rfl]
  refine ⟨rfl, h.lawful.step (div_nonneg hrate.le (by norm_num)) hburst hnow', ?_, ?_⟩
  · intro k s hs
    dsimp only
    by_cases hshard : shardIdx k = shardIdx (ipKey c.ip)
    · rw [hshard, Function.update_self, level_insert]
      split_ifs with hk
      · rw [hk, Meter.step_self]
      · rw [hother k hk, ← hlevel k s hs, hshard]
    · have hk : k ≠ ipKey c.ip := fun hk ↦ hshard (congrArg shardIdx hk)
      rw [Function.update_of_ne hshard, hother k hk]
      exact h.level k s (hnow'.trans hs)
  · intro i k b hk
    dsimp only at hk
    by_cases hi : i = shardIdx (ipKey c.ip)
    · rw [hi, Function.update_self] at hk
      by_cases hkey : k = ipKey c.ip
      · rw [hkey, AList.lookup_insert] at hk
        rw [← Option.some.inj hk]
        exact ⟨Int64.le_refl _, TokenBucket.spend_nonneg (h.lawful.nonneg _ _ hnow')⟩
      · rw [AList.lookup_insert_ne hkey] at hk
        exact hsane _ k b (htidy.keeps _ _ k b hk)
    · rw [Function.update_of_ne hi] at hk
      exact hsane i k b hk

theorem rate_allowAfter : (allowAfter tidy L c).2.rate = L.rate := by
  rw [allowAfter]
  split_ifs
  · rfl
  · rfl

theorem burst_allowAfter : (allowAfter tidy L c).2.burst = L.burst := by
  rw [allowAfter]
  split_ifs
  · rfl
  · rfl

/-- **The limiter answers as the meter does**, all along. -/
theorem Meters.outputs_eq (h : Meters L M now) (hrate : 0 < L.rate) (hburst : 0 ≤ L.burst)
    (htidy : Harmless L.rate L.burst tidy) {calls : List Call} (hnow : ∀ c ∈ calls, now ≤ c.now)
    (hmono : (calls.map Call.now).Pairwise (· ≤ ·)) :
    outputs (allowAfter tidy) L calls = outputs (meterStep L.rate L.burst) M calls := by
  induction calls generalizing L M now with
  | nil => rfl
  | cons c calls ih =>
    obtain ⟨hanswer, hnext⟩ := h.allow hrate hburst htidy (hnow c List.mem_cons_self)
    rw [List.map_cons, List.pairwise_cons] at hmono
    have hrest := @ih (allowAfter tidy L c).2 (meterStep L.rate L.burst M c).2 c.now hnext
    rw [rate_allowAfter, burst_allowAfter] at hrest
    rw [outputs, outputs, hanswer, hrest hrate hburst htidy
      (fun c' hc' ↦ hmono.1 _ (List.mem_map_of_mem hc')) hmono.2]

/-! ## The budget -/

/-- The costs of the calls of a client that were allowed within a window of time. -/
def spentWithin (answers : List Bool) (calls : List Call) (ip : Bytes) (t₁ t₂ : ℤ) : ℚ :=
  (((granted answers calls).filter fun c ↦
    c.ip = ip ∧ t₁ ≤ c.now.toInt ∧ c.now.toInt ≤ t₂).map Call.cost).sum

/-- The default configuration. -/
theorem load_default {r : ℚ} (hr : 1 ≤ r) : load (some r) none = { rate := r, burst := r } := by
  have hmax : max 0 r = r := max_eq_right (zero_le_one.trans hr)
  simp only [load, hmax, if_neg (not_lt.mpr hr)]

/-- **The budget is enforced** in the default configuration. -/
theorem budget_enforced {r : ℚ} (hr : 1 ≤ r) {calls : List Call} (hcost : ∀ c ∈ calls, 1 ≤ c.cost)
    (hmono : (calls.map Call.now).Pairwise (· ≤ ·)) (ip : Bytes) {t₁ t₂ : ℤ} (ht : t₁ ≤ t₂) :
    spentWithin (outputs allow (load (some r) none) calls) calls ip t₁ t₂ ≤
      r + r * (t₂ - t₁) / 1000 := by
  have hpos : 0 < r := zero_lt_one.trans_le hr
  have hfills : r ≤ 60001 / 1000 * r := by linarith
  -- The limiter answers as a meter that starts full, at a time before all calls.
  have hsame : outputs allow (load (some r) none) calls
      = outputs (meterStep r r) (fun _ _ ↦ r) calls := by
    rw [load_default hr]
    exact (meters_new hpos.le hpos.le Int64.minValue).outputs_eq hpos hpos.le
      (harmless_makeRoom hpos.le hfills) (fun c _ ↦ Int64.minValue_le c.now) hmono
  have hmono' : (calls.map fun c ↦ (c.now.toInt : ℚ)).Pairwise (· ≤ ·) := by
    rw [List.pairwise_map] at hmono ⊢
    exact hmono.imp fun hle ↦ Int.cast_le.mpr (Int64.le_iff_toInt_le.mp hle)
  have hearly : ∀ c ∈ calls, min (t₁ : ℚ) (Int64.minValue.toInt : ℤ) ≤ c.now.toInt := fun c _ ↦
    (min_le_right _ _).trans (Int.cast_le.mpr (Int64.le_iff_toInt_le.mp (Int64.minValue_le c.now)))
  have hmax : max (min (t₁ : ℚ) (Int64.minValue.toInt : ℤ)) t₁ = t₁ := max_eq_right (min_le_left _ _)
  have hcount : ∀ c : Call, decide (c.ip = ip ∧ t₁ ≤ c.now.toInt ∧ c.now.toInt ≤ t₂) = true →
      ipKey c.ip = ipKey ip ∧ (t₁ : ℚ) ≤ c.now.toInt ∧ (c.now.toInt : ℚ) ≤ t₂ := by
    intro c hc
    obtain ⟨hip, hfrom, hto⟩ := of_decide_eq_true hc
    exact ⟨congrArg ipKey hip, Int.cast_le.mpr hfrom, Int.cast_le.mpr hto⟩
  have hsum := @TokenBucket.sum_granted_le ℚ _ _ (r / 1000) r _ UInt64 Call _ (fun c ↦ ipKey c.ip)
    Call.cost (fun c ↦ c.now.toInt) (fun _ _ ↦ r) _ t₁ t₂ (ipKey ip) calls
    (div_nonneg hpos.le (by norm_num)) hpos.le (lawful_full hpos.le hpos.le _)
    (fun c hc ↦ zero_le_one.trans (hcost c hc)) hearly hmono' _ hcount
    (hmax.le.trans (Int.cast_le.mpr ht))
  rw [hmax] at hsum
  rw [spentWithin, hsame]
  refine hsum.trans (le_of_eq ?_)
  ring

/-- A client that asks three times at once. -/
def threeAtOnce : List Call := List.replicate 3 { ip := lit "10.0.0.1", cost := 1, now := 0 }

theorem budget_enforced_threeAtOnce :
    spentWithin (outputs allow (load (some 2) none) threeAtOnce) threeAtOnce (lit "10.0.0.1") 0 0 ≤
      2 := by
  have hcost : ∀ c ∈ threeAtOnce, 1 ≤ c.cost := fun c hc ↦ by
    rw [List.eq_of_mem_replicate hc]
  have hmono : (threeAtOnce.map Call.now).Pairwise (· ≤ ·) := by decide
  have hsum := budget_enforced (r := 2) (by norm_num) hcost hmono (lit "10.0.0.1") (le_refl (0 : ℤ))
  rwa [sub_self, mul_zero, zero_div, add_zero] at hsum

end Shrt.RateLimit
