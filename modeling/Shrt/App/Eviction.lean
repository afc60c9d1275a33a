import Shrt.App.Crowd
import Shrt.Lib.Lockstep

/-!
# Forgetting idle buckets

The limiter is compared with one that never drops a bucket. If the burst takes at most a minute and
a millisecond to fill, both stand for the same meter, and they answer alike. If it takes longer, a
client that has spent its burst is better off when its bucket is forgotten. It only has to wait for
a minute, and to share its map with a crowd.
-/

namespace Shrt.RateLimit

open Lockstep (outputs after after_nil after_cons outputs_concat)

variable {L : Limiter} {c : Call} {calls : List Call} {now : Int64} {rate burst : ℚ} {k : UInt64}

/-- `RateLimiter::allow` without the eviction. -/
def allowKeeping : Limiter → Call → Bool × Limiter := allowAfter fun _ m ↦ m

/-! ## A limiter that drops nothing -/

theorem shards_allowKeeping (hrate : 0 < L.rate) : (allowKeeping L c).2.shards =
    Function.update L.shards (shardIdx (ipKey c.ip)) ((L.shards (shardIdx (ipKey c.ip))).insert
      (ipKey c.ip) ⟨TokenBucket.spend ((L.shards (shardIdx (ipKey c.ip))).level L.rate L.burst
        (ipKey c.ip) c.now.toInt) c.cost, c.now⟩) := by
  rw [allowKeeping, allowAfter, if_neg (not_le.mpr hrate)]
  dsimp only
  rw [draw_eq]

theorem lookup_allowKeeping_self (hrate : 0 < L.rate) :
    ((allowKeeping L c).2.shards (shardIdx (ipKey c.ip))).lookup (ipKey c.ip) =
      some ⟨TokenBucket.spend ((L.shards (shardIdx (ipKey c.ip))).level L.rate L.burst (ipKey c.ip)
        c.now.toInt) c.cost, c.now⟩ := by
  rw [shards_allowKeeping hrate, Function.update_self, AList.lookup_insert]

theorem lookup_allowKeeping_of_ne (hrate : 0 < L.rate) (hk : k ≠ ipKey c.ip) (i : Fin SHARDS) :
    ((allowKeeping L c).2.shards i).lookup k = (L.shards i).lookup k := by
  rw [shards_allowKeeping hrate]
  by_cases hi : i = shardIdx (ipKey c.ip)
  · rw [hi, Function.update_self, AList.lookup_insert_ne hk]
  · rw [Function.update_of_ne hi]

theorem rate_allowKeeping : (allowKeeping L c).2.rate = L.rate := rate_allowAfter

theorem rate_after : (after allowKeeping L calls).rate = L.rate := by
  induction calls generalizing L with
  | nil => rfl
  | cons c calls ih => rw [after_cons, ih, rate_allowKeeping]

theorem burst_after : (after allowKeeping L calls).burst = L.burst := by
  induction calls generalizing L with
  | nil => rfl
  | cons c calls ih =>
    rw [after_cons, ih]
    exact burst_allowAfter

theorem lookup_after_of_forall_ne (hrate : 0 < L.rate) (hk : ∀ c ∈ calls, k ≠ ipKey c.ip)
    (i : Fin SHARDS) : ((after allowKeeping L calls).shards i).lookup k = (L.shards i).lookup k := by
  induction calls generalizing L with
  | nil => rfl
  | cons c calls ih =>
    have hrest := @ih (allowKeeping L c).2 (rate_allowKeeping.symm ▸ hrate)
      fun c' hc' ↦ hk c' (List.mem_cons_of_mem _ hc')
    rw [after_cons, hrest, lookup_allowKeeping_of_ne hrate (hk c List.mem_cons_self) i]

/-- Every client that has called has a bucket. -/
theorem mem_after (hrate : 0 < L.rate) (hk : (∃ c ∈ calls, k = ipKey c.ip) ∨
    k ∈ L.shards (shardIdx k)) : k ∈ (after allowKeeping L calls).shards (shardIdx k) := by
  induction calls generalizing L with
  | nil => exact hk.resolve_left fun ⟨_, hc, _⟩ ↦ nomatch hc
  | cons c calls ih =>
    rw [after_cons]
    refine ih (rate_allowKeeping.symm ▸ hrate) ?_
    by_cases hself : k = ipKey c.ip
    · right
      rw [hself, ← AList.lookup_isSome, lookup_allowKeeping_self hrate]
      rfl
    · rcases hk with ⟨c', hc', hk⟩ | hk
      · rcases List.mem_cons.mp hc' with rfl | hc'
        · exact absurd hk hself
        · exact Or.inl ⟨c', hc', hk⟩
      · right
        rwa [← AList.lookup_isSome, lookup_allowKeeping_of_ne hrate hself, AList.lookup_isSome]

/-! ## Nothing is idle at once -/

/-- Every bucket was used at this time. -/
def UsedAt (L : Limiter) (now : Int64) : Prop :=
  ∀ i k b, (L.shards i).lookup k = some b → b.lastMs = now

theorem makeRoom_eq_self {m : Shard} (h : ∀ k b, m.lookup k = some b → b.lastMs = now) :
    makeRoom now m = m := by
  rw [makeRoom]
  split_ifs
  · refine AList.ext (List.filter_eq_self.mpr fun e he ↦ ?_)
    have hlast := h e.1 e.2 (AList.mem_lookup_iff.mpr he)
    rw [hlast, Int64.sub_self]
    rfl
  · rfl

theorem UsedAt.allow_eq (h : UsedAt L c.now) : allow L c = allowKeeping L c := by
  rw [allow, allowKeeping, allowAfter, allowAfter]
  dsimp only
  rw [makeRoom_eq_self (h _)]

theorem UsedAt.next (h : UsedAt L c.now) (hrate : 0 < L.rate) :
    UsedAt (allowKeeping L c).2 c.now := by
  intro i k b hb
  by_cases hk : k = ipKey c.ip
  · by_cases hi : i = shardIdx (ipKey c.ip)
    · rw [hi, hk, lookup_allowKeeping_self hrate] at hb
      rw [← Option.some.inj hb]
    · rw [shards_allowKeeping hrate, Function.update_of_ne hi] at hb
      exact h i k b hb
  · rw [lookup_allowKeeping_of_ne hrate hk] at hb
    exact h i k b hb

/-- **Calls at one time evict nothing.** -/
theorem UsedAt.after_eq (h : UsedAt L now) (hrate : 0 < L.rate) (hnow : ∀ c ∈ calls, c.now = now) :
    after allow L calls = after allowKeeping L calls := by
  induction calls generalizing L with
  | nil => rw [after_nil, after_nil]
  | cons c calls ih =>
    obtain rfl : c.now = now := hnow c List.mem_cons_self
    have hrest := @ih (allowKeeping L c).2 (h.next hrate) (rate_allowKeeping.symm ▸ hrate)
      fun c' hc' ↦ hnow c' (List.mem_cons_of_mem _ hc')
    rw [after_cons, after_cons, h.allow_eq, hrest]

/-! ## A crowd -/

/-- A client spends its burst. -/
def spree (burst : ℚ) : Call := { ip := member 0, cost := burst, now := 0 }

/-- All others call. -/
def others : List Call :=
  (List.range 4095).map fun n ↦ { ip := member (n + 1), cost := 1, now := 0 }

/-- The first call of everyone. -/
def crowd (burst : ℚ) : List Call := spree burst :: others

/-- The client comes back as soon as its bucket is idle. -/
def comeback (burst : ℚ) : Call := { ip := member 0, cost := burst, now := 60001 }

theorem now_of_mem_crowd (hc : c ∈ crowd burst) : c.now = 0 := by
  rcases List.mem_cons.mp hc with rfl | hc
  · rfl
  · obtain ⟨n, _, rfl⟩ := List.mem_map.mp hc
    rfl

theorem exists_mem_crowd {n : ℕ} (hn : n < 4096) : ∃ c ∈ crowd burst, ipKey (member n) = ipKey c.ip := by
  cases n with
  | zero => exact ⟨_, List.mem_cons_self, rfl⟩
  | succ n =>
    exact ⟨_, List.mem_cons_of_mem _ (List.mem_map_of_mem (List.mem_range.mpr (by omega))), rfl⟩

/-- The map is crowded. -/
theorem crowded (hrate : 0 < rate) : MAX_KEYS ≤
    ((after allowKeeping { rate, burst } (crowd burst)).shards ⟨0, by decide⟩).keys.length := by
  have hnodup : ((List.range 4096).map fun n ↦ ipKey (member n)).Nodup :=
    List.nodup_range.map_on fun n hn n' hn' ↦
      ipKey_member_inj (List.mem_range.mp hn) (List.mem_range.mp hn')
  have hsubset : ((List.range 4096).map fun n ↦ ipKey (member n)) ⊆
      ((after allowKeeping { rate, burst } (crowd burst)).shards ⟨0, by decide⟩).keys := by
    intro k hk
    obtain ⟨n, hn, rfl⟩ := List.mem_map.mp hk
    have hmem := @mem_after { rate, burst } (crowd burst) (ipKey (member n)) hrate
      (Or.inl (exists_mem_crowd (List.mem_range.mp hn)))
    rw [shardIdx_member] at hmem
    exact AList.mem_keys.mp hmem
  have hlength := (List.subperm_of_subset hnodup hsubset).length_le
  rwa [List.length_map, List.length_range] at hlength

/-- The bucket of the client is empty. -/
theorem lookup_client (hrate : 0 < rate) :
    ((after allowKeeping { rate, burst } (crowd burst)).shards ⟨0, by decide⟩).lookup
      (ipKey (member 0)) = some ⟨0, 0⟩ := by
  have hother : ∀ c ∈ others, ipKey (member 0) ≠ ipKey c.ip := by
    intro c hc heq
    obtain ⟨n, hn, rfl⟩ := List.mem_map.mp hc
    have hlt := List.mem_range.mp hn
    have := ipKey_member_inj (by decide) (by omega) heq
    omega
  have hrate' : 0 < (allowKeeping { rate, burst } (spree burst)).2.rate := by
    rwa [rate_allowKeeping]
  have hrest := lookup_after_of_forall_ne hrate' hother ⟨0, by decide⟩
  have hfirst := @lookup_allowKeeping_self { rate, burst } (spree burst) hrate
  have hspent : TokenBucket.spend burst burst = 0 := by
    rw [TokenBucket.spend, if_pos le_rfl, sub_self]
  have hshard : shardIdx (ipKey (spree burst).ip) = ⟨0, by decide⟩ := shardIdx_member 0
  rw [hshard] at hfirst
  rw [crowd, after_cons, hrest, ← hspent]
  exact hfirst

/-- The client is refused if its bucket was kept. -/
theorem refused_if_kept (hrate : 0 < rate) (hslow : 60001 / 1000 * rate < burst) :
    (allowKeeping (after allowKeeping { rate, burst } (crowd burst)) (comeback burst)).1 = false := by
  rw [allowKeeping, allowAfter, ← allowKeeping, rate_after, burst_after, if_neg (not_le.mpr hrate)]
  dsimp only [comeback]
  rw [draw_eq, shardIdx_member, Shard.level, lookup_client hrate]
  refine decide_eq_false (not_le.mpr (min_lt_of_left_lt ?_))
  have hwait : (60001 : Int64).toInt = 60001 := rfl
  have hstart : (0 : Int64).toInt = 0 := rfl
  dsimp only
  rw [hwait, hstart]
  push_cast
  linarith

/-- The client is allowed if its bucket was dropped. -/
theorem allowed_if_dropped (hrate : 0 < rate) :
    (allow (after allowKeeping { rate, burst } (crowd burst)) (comeback burst)).1 = true := by
  rw [allow, allowAfter, rate_after, burst_after, if_neg (not_le.mpr hrate)]
  dsimp only [comeback]
  rw [draw_eq, shardIdx_member, makeRoom, if_pos (crowded hrate), Shard.level, lookup_evictIdle,
    lookup_client hrate]
  exact decide_eq_true le_rfl

/-- **A crowd gives the client a second burst.** -/
theorem outputs_crowd_ne (hrate : 0 < rate) (hslow : 60001 / 1000 * rate < burst) :
    outputs allow { rate, burst } (crowd burst ++ [comeback burst]) ≠
      outputs allowKeeping { rate, burst } (crowd burst ++ [comeback burst]) := by
  have hfresh : UsedAt { rate, burst } 0 := fun _ _ _ h ↦ nomatch h
  rw [outputs_concat, outputs_concat, hfresh.after_eq hrate fun c ↦ now_of_mem_crowd,
    allowed_if_dropped hrate, refused_if_kept hrate hslow]
  intro heq
  exact absurd (List.append_inj_right' heq rfl) (by decide)

theorem pairwise_crowd : ((crowd burst ++ [comeback burst]).map Call.now).Pairwise (· ≤ ·) := by
  rw [List.pairwise_map, List.pairwise_append]
  refine ⟨List.pairwise_of_forall_mem_list fun c hc c' hc' ↦ ?_, List.pairwise_singleton _ _, ?_⟩
  · rw [now_of_mem_crowd hc, now_of_mem_crowd hc']
    decide
  · intro c hc c' hc'
    rw [now_of_mem_crowd hc, List.mem_singleton.mp hc']
    exact (by decide : (0 : Int64) ≤ 60001)

/-- **Forgetting idle buckets changes no answer** exactly if they would have been full. -/
theorem eviction_unseen_iff (hrate : 0 < rate) (hburst : 1 ≤ burst) :
    (∀ calls : List Call, (calls.map Call.now).Pairwise (· ≤ ·) →
      outputs allow { rate, burst } calls = outputs allowKeeping { rate, burst } calls) ↔
    burst ≤ 60001 / 1000 * rate := by
  have hburst' : 0 ≤ burst := zero_le_one.trans hburst
  constructor
  · intro hsame
    by_contra hslow
    exact outputs_crowd_ne hrate (not_le.mp hslow) (hsame _ pairwise_crowd)
  · intro hfills calls hmono
    have hstart := meters_new hrate.le hburst' Int64.minValue
    have hearly : ∀ c ∈ calls, Int64.minValue ≤ c.now := fun c _ ↦ Int64.minValue_le c.now
    have hevicting := hstart.outputs_eq hrate hburst' (harmless_makeRoom hrate.le hfills) hearly hmono
    have hkeeping := hstart.outputs_eq hrate hburst' harmless_id hearly hmono
    exact hevicting.trans hkeeping.symm

/-- A burst that fills in a second. -/
theorem eviction_unseen_iff_oneSecond :
    outputs allow { rate := 10, burst := 10 } (crowd 10 ++ [comeback 10]) =
      outputs allowKeeping { rate := 10, burst := 10 } (crowd 10 ++ [comeback 10]) :=
  (eviction_unseen_iff (by norm_num) (by norm_num)).mpr (by norm_num) _ pairwise_crowd

/-- A burst that takes longer than a minute to fill is granted twice within a minute and a
millisecond. -/
theorem burst_granted_twice : ∃ calls : List Call, (calls.map Call.now).Pairwise (· ≤ ·) ∧
    outputs allow { rate := 1, burst := 100 } calls ≠
      outputs allowKeeping { rate := 1, burst := 100 } calls :=
  ⟨crowd 100 ++ [comeback 100], pairwise_crowd, outputs_crowd_ne (by norm_num) (by norm_num)⟩

end Shrt.RateLimit
