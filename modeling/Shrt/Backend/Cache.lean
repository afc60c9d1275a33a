import Shrt.Backend.Node
import Shrt.Lib.Transition

/-!
# The size of the cache

What a node that runs for a long time keeps in its cache. A shard of the cache is a map and a queue.
The map is within `cap_per_shard` after any calls (`cache_map_bounded`). The queue is not: a code
leaves the map when it is deleted or was cached too long ago, but its place in the queue is only
given up when the map is full. A code that is cached and deleted again and again takes one more
place each time (`order_refilled`). `cache_queue_bounded_iff` says in which runs that never happens.
-/

namespace Shrt.Backend

/-- The calls of the cache. Those that read the clock carry what they read. -/
inductive CacheCall where
  | get (code : Bytes) (now : Int64)
  | put (code u : Bytes) (e now : Int64)
  | del (code : Bytes)

/-- What a call does. -/
def CacheCall.apply (cfg : Config) (n : Node) : CacheCall → Node
  | .get code now => (n.cacheGet cfg code now).2
  | .put code u e now => n.cachePut cfg code u e now
  | .del code => n.cacheDel code

/-- The node after calls. -/
def cacheAfter (cfg : Config) (calls : List CacheCall) : Node := calls.foldl (CacheCall.apply cfg) {}

/-- All shards are within the capacity. -/
def CacheBounded (cfg : Config) (n : Node) : Prop := ∀ k, (n.cache k).Bounded cfg.capPerShard

variable {cfg : Config} {n : Node}

theorem capPerShard_pos (cfg : Config) : 0 < cfg.capPerShard := by
  rw [Config.capPerShard]
  omega

/-- A call changes one shard: nothing, or one of two operations of the cache. -/
theorem exists_onShard_apply (cfg : Config) (n : Node) (call : CacheCall) :
    call.apply cfg n = n ∨ (∃ code, call.apply cfg n = n.onShard code (·.erase code)) ∨
      ∃ code u e now, call = .put code u e now ∧
        call.apply cfg n = n.onShard code (·.put cfg.capPerShard code ⟨u, e, now⟩) := by
  cases call with
  | get code now =>
    rw [CacheCall.apply, Node.cacheGet]
    cases n.cached code with
    | none => exact .inl rfl
    | some it =>
      dsimp only
      split_ifs
      · exact .inr (.inl ⟨code, rfl⟩)
      · exact .inl rfl
      · exact .inl rfl
  | put code u e now => exact .inr (.inr ⟨code, u, e, now, rfl, rfl⟩)
  | del code => exact .inr (.inl ⟨code, rfl⟩)

theorem cache_onShard (n : Node) (code : Bytes) (f : KvShard → KvShard) (k : Fin NUM_SHARDS) :
    (n.onShard code f).cache k =
      if k = shardOf code then f (n.cache (shardOf code)) else n.cache k :=
  Function.update_apply ..

theorem cache_onShard_self (n : Node) (code : Bytes) (f : KvShard → KvShard) :
    (n.onShard code f).cache (shardOf code) = f (n.cache (shardOf code)) :=
  Function.update_self ..

/-- What holds of all shards, and of the changed one afterwards, holds of all shards afterwards. -/
theorem forall_onShard {P : KvShard → Prop} {code : Bytes} {f : KvShard → KvShard}
    (h : ∀ k, P (n.cache k)) (hf : P (f (n.cache (shardOf code)))) :
    ∀ k, P ((n.onShard code f).cache k) := by
  intro k
  rw [cache_onShard]
  split_ifs
  · exact hf
  · exact h k

theorem CacheBounded.apply (h : CacheBounded cfg n) (call : CacheCall) :
    CacheBounded cfg (call.apply cfg n) := by
  rcases exists_onShard_apply cfg n call with heq | ⟨code, heq⟩ | ⟨code, u, e, now, -, heq⟩
  · rwa [heq]
  · rw [heq]
    exact forall_onShard h (h _).erase
  · rw [heq]
    exact forall_onShard h ((h _).put (capPerShard_pos cfg))

theorem cacheBounded_cacheAfter (cfg : Config) (calls : List CacheCall) :
    CacheBounded cfg (cacheAfter cfg calls) := by
  refine List.foldlRecOn calls _ (fun _ ↦ Fifo.bounded_empty) fun n hn call _ ↦ hn.apply call

/-- **The map of the cache is bounded.** After any calls, every key of a shard's map is in its queue
and the map is within `cap_per_shard`. Making room for another key always succeeds, and the key that
is put is in the map afterwards. -/
theorem cache_map_bounded (cfg : Config) (calls : List CacheCall) (k : Fin NUM_SHARDS) :
    let s := (cacheAfter cfg calls).cache k
    (∀ code ∈ s.m, code ∈ s.order) ∧ s.m.keys.length ≤ cfg.capPerShard ∧
      (Fifo.evict cfg.capPerShard s.order s.m).m.keys.length < cfg.capPerShard ∧
      ∀ code u e now, (cacheAfter cfg (calls ++ [.put code u e now])).cached code
        = some ⟨u, e, now⟩ := by
  have h := cacheBounded_cacheAfter cfg calls k
  refine ⟨h.covered, h.size_le, ?_, fun code u e now ↦ ?_⟩
  · exact (Fifo.evict_covered_lt (capPerShard_pos cfg) h.covered).2
  · rw [cacheAfter, List.foldl_append]
    exact Node.cached_cachePut_self

/-! ## The queue -/

/-- All queues are within the capacity. -/
def QueuesBounded (cfg : Config) (n : Node) : Prop := ∀ k, (n.cache k).order.length ≤ cfg.capPerShard

/-- A new code is put into a shard whose map has room only while its queue has room as well. -/
def Frugal (cfg : Config) (n : Node) : CacheCall → Prop
  | .put code _ _ _ => n.cached code = none →
    (n.cache (shardOf code)).m.keys.length < cfg.capPerShard →
      (n.cache (shardOf code)).order.length < cfg.capPerShard
  | _ => True

/-- One step of a run. -/
def cacheStep (cfg : Config) (n : Node) (call : CacheCall) : Option Node := some (call.apply cfg n)

theorem run_cacheStep (cfg : Config) (calls : List CacheCall) (n : Node) :
    Transition.run (cacheStep cfg) n calls = some (calls.foldl (CacheCall.apply cfg) n) := by
  induction calls generalizing n with
  | nil => rfl
  | cons call calls ih => exact ih _

/-- A call that is not frugal is one after which a queue is too long. -/
theorem queuesBounded_apply_iff (h : CacheBounded cfg n) (hq : QueuesBounded cfg n)
    (call : CacheCall) : QueuesBounded cfg (call.apply cfg n) ↔ Frugal cfg n call := by
  have hlose : ∀ code, QueuesBounded cfg (n.onShard code (·.erase code)) := fun code ↦
    forall_onShard (P := fun s ↦ s.order.length ≤ cfg.capPerShard) hq (hq (shardOf code))
  have hput : ∀ code u e now, QueuesBounded cfg (n.cachePut cfg code u e now) ↔
      Frugal cfg n (.put code u e now) := by
    intro code u e now
    have hone := Fifo.length_order_put_le_iff (k := code) (v := (⟨u, e, now⟩ : KvEntry))
      (capPerShard_pos cfg) (h (shardOf code)) (hq (shardOf code))
    refine Iff.trans ⟨fun hall ↦ ?_, fun hle ↦ ?_⟩ hone
    · have hcode := hall (shardOf code)
      rwa [Node.cachePut, cache_onShard_self] at hcode
    · exact forall_onShard (P := fun s ↦ s.order.length ≤ cfg.capPerShard) hq hle
  cases call with
  | put code u e now => exact hput code u e now
  | get code now =>
    refine iff_of_true ?_ trivial
    rcases exists_onShard_apply cfg n (.get code now) with heq | ⟨c, heq⟩ | ⟨_, _, _, _, hbad, -⟩
    · rwa [heq]
    · exact heq ▸ hlose c
    · contradiction
  | del code => exact iff_of_true (hlose code) trivial

/-- **When the queue of the cache is bounded.** The queues are within `cap_per_shard` all along a
run exactly when no call puts a code that is not cached into a shard whose queue is full and whose
map is not. -/
theorem cache_queue_bounded_iff (cfg : Config) (calls : List CacheCall) :
    (∀ calls₁ k, calls₁ <+: calls →
        ((cacheAfter cfg calls₁).cache k).order.length ≤ cfg.capPerShard) ↔
      Transition.Meets (cacheStep cfg) (Frugal cfg) {} calls := by
  have hmeets : Transition.Meets (cacheStep cfg) (fun _ _ ↦ True) {} calls :=
    Transition.meets_of_forall (q := fun _ ↦ True) (fun _ _ ↦ trivial) _
  have hstep (n : Node) (call : CacheCall) (n' : Node) (hn : CacheBounded cfg n ∧ QueuesBounded cfg n)
      (_ : True) (hok : Frugal cfg n call) (hs : cacheStep cfg n call = some n') :
      CacheBounded cfg n' ∧ QueuesBounded cfg n' := by
    obtain rfl := Option.some.inj hs
    exact ⟨hn.1.apply call, (queuesBounded_apply_iff hn.1 hn.2 call).mpr hok⟩
  have hexact := Transition.forall_passed_iff_meets (Q := QueuesBounded cfg) hstep (fun n hn ↦ hn.2)
    ?_ ⟨fun _ ↦ Fifo.bounded_empty, fun _ ↦ Nat.zero_le _⟩ hmeets (run_cacheStep cfg calls {})
  · rw [← hexact]
    constructor
    · intro h calls₁ n hpre hrun k
      rw [run_cacheStep, Option.some.injEq] at hrun
      exact hrun ▸ h calls₁ k hpre
    · intro h calls₁ k hpre
      exact h calls₁ _ hpre (run_cacheStep cfg calls₁ {}) k
  · intro n call n' hn _ hs hgood
    obtain rfl := Option.some.inj hs
    exact (queuesBounded_apply_iff hn.1 hn.2 call).mp hgood

/-- Cache a code and delete it, a number of times. -/
def refill (code : Bytes) : ℕ → List CacheCall
  | 0 => []
  | times + 1 => refill code times ++ [.put code [] 0 0, .del code]

/-- **The queue grows without a bound.** -/
theorem order_refilled (cfg : Config) (code : Bytes) (times : ℕ) :
    (cacheAfter cfg (refill code times)).cache (shardOf code)
      = { m := ∅, order := List.replicate times code } := by
  induction times with
  | zero => rfl
  | succ times ih =>
    rw [cacheAfter, refill, List.foldl_append]
    change (((cacheAfter cfg (refill code times)).cachePut cfg code [] 0 0).cacheDel code).cache _ = _
    rw [Node.cacheDel, Node.cachePut, cache_onShard_self, cache_onShard_self, ih, Fifo.put,
      if_neg (by simp [Fifo.lookup]), Fifo.evict_of_lt (capPerShard_pos cfg), List.replicate_succ',
      Fifo.erase]
    congr 1
    exact AList.ext (List.kerase_cons_eq rfl)

/-- A shard of sixteen places after a code was cached and deleted seventeen times. -/
theorem cache_queue_refilled :
    ({} : Config).capPerShard = 16 ∧
      ((cacheAfter {} (refill (lit "a") 17)).cache (shardOf (lit "a"))).order.length = 17 := by
  refine ⟨rfl, ?_⟩
  rw [order_refilled]
  rfl

end Shrt.Backend
