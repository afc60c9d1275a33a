import Shrt.Backend.Row
import Shrt.Lib.Fifo
import Shrt.Lib.Interleave
import Shrt.Store.Ops

/-!
# A node of an external backend

The two external backends keep the links elsewhere and the same things in memory: a cache of
recently used links and the hits that were not written yet, both split over the shards of `shardOf`.
What a request does is a program of atomic actions: the sections that hold a lock of this node, and
the queries to the backend (`Act`). The backend itself is a parameter here.

The programs that the two backends have in common, word for word, are here as well: `bump`,
`resolve` and the first half of `flush_hits`.
-/

namespace Shrt.Backend

open Interleave (Prog)
open UnorderedMap (iterate)

/-- What a node returns. -/
inductive Out where
  | code (c : Option Bytes)
  | codes (cs : List Bytes)
  | url (u : Option Bytes)
  | result (r : Store.MutResult)
  | link (l : Option Store.Link)
  | done
  deriving DecidableEq

/-- One url of `shorten_many`, and the codes that are generated for it. -/
structure Item where
  url : Bytes
  /-- The code of the first attempt. -/
  code : Bytes
  /-- The candidates of the second attempt. -/
  gen : List Bytes

/-! ## The cache -/

/-- `KvEntry`. -/
structure KvEntry where
  u : Bytes
  e : Int64
  /-- When it was put into the cache. -/
  cachedAt : Int64
  deriving DecidableEq

/-- What is fixed when a node starts. -/
structure Config where
  /-- The number of links the cache is meant for. -/
  cacheEntries : ℕ := 0
  /-- `cache_ttl_ms`. -/
  cacheTtl : Int64 := 0
  /-- `track_hits`. -/
  track : Bool := true

/-- `cap_per_shard`. -/
def Config.capPerShard (cfg : Config) : ℕ := max 16 (cfg.cacheEntries / NUM_SHARDS)

/-- `KvShard`. -/
abbrev KvShard := Fifo Bytes KvEntry

/-- The hits of one shard that were not written yet. -/
abbrev DirtyShard (k : Fin NUM_SHARDS) :=
  { m : AList fun _ : Bytes ↦ Int64 // ∀ c ∈ m, shardOf c = k }

/-- What a node has in memory. -/
structure Node where
  cache : Fin NUM_SHARDS → KvShard := fun _ ↦ {}
  dirty : (k : Fin NUM_SHARDS) → DirtyShard k := fun k ↦ ⟨∅, placed_empty Int64 k⟩

namespace Node

variable (cfg : Config) (n : Node)

/-- The cached entry of a code. -/
def cached (code : Bytes) : Option KvEntry := (n.cache (shardOf code)).lookup code

/-- Change the shard of a code. -/
def onShard (code : Bytes) (f : KvShard → KvShard) : Node :=
  { n with cache := Function.update n.cache (shardOf code) (f (n.cache (shardOf code))) }

/-- `cache_get`: the url, unless the entry is missing, was cached too long ago, in which case it is
erased, or has expired. -/
def cacheGet (code : Bytes) (now : Int64) : Option Bytes × Node :=
  match n.cached code with
  | none => (none, n)
  | some it =>
    if 0 < cfg.cacheTtl ∧ cfg.cacheTtl < now - it.cachedAt then (none, n.onShard code (·.erase code))
    else if expired it.e now then (none, n)
    else (some it.u, n)

/-- `cache_put`. -/
def cachePut (code u : Bytes) (e now : Int64) : Node :=
  n.onShard code (·.put cfg.capPerShard code ⟨u, e, now⟩)

/-- `cache_del`. -/
def cacheDel (code : Bytes) : Node := n.onShard code (·.erase code)

/-- The hits of a code that were not written yet, if there is an entry for them. -/
def pendingAt (code : Bytes) : Option Int64 := (n.dirty (shardOf code)).1.lookup code

/-- Set the entry of a code. -/
def setPending (code : Bytes) (d : Int64) : Node where
  cache := n.cache
  dirty := Function.update n.dirty (shardOf code) ⟨(n.dirty (shardOf code)).1.insert code d, by
    intro c hc
    rcases (AList.mem_insert _).mp hc with rfl | hc
    · rfl
    · exact (n.dirty (shardOf code)).2 c hc⟩

/-- `dirty[i][code]++`. -/
def bump (code : Bytes) : Node := n.setPending code ((n.pendingAt code).getD 0 + 1)

/-- Forget the hits of one shard. -/
def drain (k : Fin NUM_SHARDS) : Node :=
  { n with dirty := Function.update n.dirty k ⟨∅, placed_empty Int64 k⟩ }

variable {cfg n} {code c u : Bytes} {e now : Int64} {it : KvEntry}

/-! ### What is cached afterwards -/

theorem cached_onShard (f : KvShard → KvShard) : (n.onShard code f).cached c =
    if shardOf c = shardOf code then (f (n.cache (shardOf code))).lookup c else n.cached c := by
  simp only [cached, onShard, Function.update_apply]
  split_ifs with h
  · rfl
  · rfl

/-- Deleting a code puts nothing into the cache. -/
theorem cached_of_cacheDel (h : (n.cacheDel code).cached c = some it) : n.cached c = some it := by
  rw [cacheDel, cached_onShard] at h
  split_ifs at h with hk
  · rw [cached, hk]
    exact Fifo.lookup_of_erase h
  · exact h

@[simp] theorem cached_cacheDel_self : (n.cacheDel code).cached code = none := by
  rw [cacheDel, cached_onShard, if_pos rfl, Fifo.lookup_erase_self]

@[simp] theorem cached_cachePut_self :
    (n.cachePut cfg code u e now).cached code = some ⟨u, e, now⟩ := by
  rw [cachePut, cached_onShard, if_pos rfl, Fifo.lookup_put_self]

/-- Putting a code puts nothing else into the cache. -/
theorem cached_of_cachePut (h : (n.cachePut cfg code u e now).cached c = some it) :
    c = code ∧ it = ⟨u, e, now⟩ ∨ n.cached c = some it := by
  rw [cachePut, cached_onShard] at h
  split_ifs at h with hk
  · rw [cached, hk]
    exact Fifo.lookup_of_put h
  · exact .inr h

/-- Asking for a code puts nothing into the cache. -/
theorem cached_of_cacheGet (h : (n.cacheGet cfg code now).2.cached c = some it) :
    n.cached c = some it := by
  rw [cacheGet] at h
  cases hcode : n.cached code with
  | none =>
    rw [hcode] at h
    exact h
  | some it' =>
    rw [hcode] at h
    dsimp only at h
    split_ifs at h with hold hexp
    · exact cached_of_cacheDel h
    · exact h
    · exact h

/-- What is found was cached, not too long ago, and has not expired. -/
theorem cached_of_cacheGet_eq_some (h : (n.cacheGet cfg code now).1 = some u) :
    ∃ it, n.cached code = some it ∧ it.u = u ∧ expired it.e now = false ∧
      ¬ (0 < cfg.cacheTtl ∧ cfg.cacheTtl < now - it.cachedAt) := by
  rw [cacheGet] at h
  cases hcode : n.cached code with
  | none =>
    rw [hcode] at h
    cases h
  | some it =>
    rw [hcode] at h
    dsimp only at h
    split_ifs at h with hold hexp
    exact ⟨it, rfl, Option.some.inj h, Bool.eq_false_iff.mpr hexp, hold⟩

/-! ### Which hits are pending afterwards -/

theorem dirty_update (d : (k : Fin NUM_SHARDS) → DirtyShard k) (k k' : Fin NUM_SHARDS)
    (m : DirtyShard k) :
    (Function.update d k m k').1 = if k' = k then m.1 else (d k').1 := by
  by_cases h : k' = k
  · subst h
    rw [Function.update_self, if_pos rfl]
  · rw [Function.update_of_ne h, if_neg h]

theorem pendingAt_setPending (d : Int64) :
    (n.setPending code d).pendingAt c = if c = code then some d else n.pendingAt c := by
  rw [pendingAt, setPending, dirty_update]
  by_cases h : c = code
  · rw [if_pos h, h, if_pos rfl, AList.lookup_insert]
  · rw [if_neg h]
    split_ifs with hk
    · rw [AList.lookup_insert_ne h, pendingAt, hk]
    · rfl

theorem pendingAt_drain (k : Fin NUM_SHARDS) :
    (n.drain k).pendingAt c = if shardOf c = k then none else n.pendingAt c := by
  rw [pendingAt, drain, dirty_update]
  split_ifs with hk
  · rfl
  · rfl

@[simp] theorem pendingAt_cacheDel : (n.cacheDel code).pendingAt c = n.pendingAt c := rfl

@[simp] theorem pendingAt_cachePut : (n.cachePut cfg code u e now).pendingAt c = n.pendingAt c := rfl

@[simp] theorem pendingAt_cacheGet : (n.cacheGet cfg code now).2.pendingAt c = n.pendingAt c := by
  rw [cacheGet]
  cases n.cached code with
  | none => rfl
  | some it =>
    dsimp only
    split_ifs
    · rfl
    · rfl
    · rfl

end Node

/-! ## Actions -/

/-- The atomic actions of a node: the sections under a lock of its own, and the queries. Those that
read the clock carry what they read. -/
inductive Act (Q : Type) where
  | cacheGet (code : Bytes) (now : Int64)
  | cachePut (code u : Bytes) (e now : Int64)
  | cacheDel (code : Bytes)
  /-- `dirty[i][code]++`. -/
  | bump (code : Bytes)
  /-- `dirty[i].find(code)`. -/
  | pending (code : Bytes)
  /-- `dirty[i][code]`, which makes an entry. -/
  | pendingEntry (code : Bytes)
  /-- List the hits of a shard and forget them. -/
  | drain (k : Fin NUM_SHARDS)
  | query (q : Q)

/-- What an action returns. -/
@[reducible] def Act.Reply {Q : Type} (R : Q → Type) : Act Q → Type
  | .cacheGet _ _ => Option Bytes
  | .cachePut _ _ _ _ => Unit
  | .cacheDel _ => Unit
  | .bump _ => Unit
  | .pending _ => Option Int64
  | .pendingEntry _ => Int64
  | .drain _ => List (Bytes × Int64)
  | .query q => R q

variable {Q δ β : Type} {R : Q → Type}

/-- What an action does to a node and the backend. The hash maps are walked in the order `ord`. -/
def act (cfg : Config) (ord : Order) (serve : (q : Q) → δ → R q × δ) :
    (a : Act Q) → Node × δ → a.Reply R × (Node × δ)
  | .cacheGet code now, s => ((s.1.cacheGet cfg code now).1, (s.1.cacheGet cfg code now).2, s.2)
  | .cachePut code u e now, s => ((), s.1.cachePut cfg code u e now, s.2)
  | .cacheDel code, s => ((), s.1.cacheDel code, s.2)
  | .bump code, s => ((), s.1.bump code, s.2)
  | .pending code, s => (s.1.pendingAt code, s)
  | .pendingEntry code, s =>
    ((s.1.pendingAt code).getD 0, s.1.setPending code ((s.1.pendingAt code).getD 0), s.2)
  | .drain k, s => (iterate ord (s.1.dirty k).1, s.1.drain k, s.2)
  | .query q, s => ((serve q s.2).1, s.1, (serve q s.2).2)

/-- The programs of a node. -/
abbrev NodeProg {Q : Type} (R : Q → Type) (β : Type) := Prog (Act Q) (Act.Reply R) β

/-- `cache_get`. -/
def cacheGet (code : Bytes) (now : Int64) : NodeProg R (Option Bytes) := .act (.cacheGet code now) .ret

/-- `cache_put`. -/
def cachePut (code u : Bytes) (e now : Int64) : NodeProg R Unit := .act (.cachePut code u e now) .ret

/-- `cache_del`. -/
def cacheDel (code : Bytes) : NodeProg R Unit := .act (.cacheDel code) .ret

/-- `dirty[i].find(code)`. -/
def pending (code : Bytes) : NodeProg R (Option Int64) := .act (.pending code) .ret

/-- `dirty[i][code]`. -/
def pendingEntry (code : Bytes) : NodeProg R Int64 := .act (.pendingEntry code) .ret

/-- A query to the backend. -/
def query (q : Q) : NodeProg R (R q) := .act (.query q) .ret

/-! ## What the two backends share -/

/-- `bump`. -/
def bump (cfg : Config) (code : Bytes) : NodeProg R Unit :=
  if cfg.track then .act (.bump code) .ret else return

/-- `resolve`, given how the backend is asked for a value. The clock is read at 0 in `cache_get`, at
1 for the expiry and at 2 in `cache_put`. -/
def resolve (cfg : Config) (get : Bytes → NodeProg R (Option Bytes)) (code : Bytes) (clk : Clock) :
    NodeProg R (Option Bytes) := do
  match ← cacheGet code (clk 0) with
  | some u =>
    bump cfg code
    return some u
  | none =>
    match (← get code).bind dec with
    | none => return none
    | some row =>
      if expired row.e (clk 1) then return none
      else
        cachePut code row.u row.e (clk 2)
        bump cfg code
        return some row.u

theorem only_bump {cfg : Config} {ok : Act Q → Prop} {code : Bytes} (h : ok (.bump code)) :
    (bump cfg code : NodeProg R Unit).Only ok := by
  rw [bump]
  split_ifs
  · exact ⟨h, fun _ ↦ trivial⟩
  · trivial

/-- All that `resolve` does besides asking the backend. -/
theorem only_resolve {cfg : Config} {ok : Act Q → Prop} {get : Bytes → NodeProg R (Option Bytes)}
    {code : Bytes} {clk : Clock} (hcache : ok (.cacheGet code (clk 0))) (hget : (get code).Only ok)
    (hput : ∀ u e, ok (.cachePut code u e (clk 2))) (hbump : ok (.bump code)) :
    (resolve cfg get code clk).Only ok := by
  refine ⟨hcache, fun found ↦ ?_⟩
  cases found with
  | some u => exact (only_bump hbump).bind fun _ ↦ trivial
  | none =>
    refine hget.bind fun v ↦ ?_
    cases v.bind dec with
    | none => trivial
    | some row =>
      dsimp only
      split_ifs
      · trivial
      · exact ⟨hput _ _, fun _ ↦ (only_bump hbump).bind fun _ ↦ trivial⟩

/-- What `bump` does to a node. -/
def Node.bumped (cfg : Config) (n : Node) (code : Bytes) : Node :=
  if cfg.track then n.bump code else n

@[simp] theorem Node.cached_bumped (cfg : Config) (n : Node) (code c : Bytes) :
    (n.bumped cfg code).cached c = n.cached c := by
  rw [bumped]
  split_ifs
  · rfl
  · rfl

theorem Node.pendingAt_bumped (cfg : Config) (n : Node) (code c : Bytes) :
    ((n.bumped cfg code).pendingAt c).getD 0 =
      (n.pendingAt c).getD 0 + if c = code ∧ cfg.track then 1 else 0 := by
  rw [bumped]
  by_cases ht : cfg.track = true
  · rw [if_pos ht, bump, pendingAt_setPending]
    by_cases hc : c = code
    · rw [if_pos hc, if_pos ⟨hc, ht⟩, hc]
      rfl
    · rw [if_neg hc, if_neg (fun h ↦ hc h.1), add_zero]
  · rw [if_neg ht, if_neg (fun h ↦ ht h.2), add_zero]

/-- What `resolve` returns and does to a node, when the backend has the value `v` for the code. -/
def Node.resolved (cfg : Config) (n : Node) (code : Bytes) (clk : Clock) (v : Option Bytes) :
    Option Bytes × Node :=
  match (n.cacheGet cfg code (clk 0)).1 with
  | some u => (some u, (n.cacheGet cfg code (clk 0)).2.bumped cfg code)
  | none => match v.bind dec with
    | none => (none, (n.cacheGet cfg code (clk 0)).2)
    | some row =>
      if expired row.e (clk 1) then (none, (n.cacheGet cfg code (clk 0)).2)
      else (some row.u, (((n.cacheGet cfg code (clk 0)).2.cachePut cfg code row.u row.e (clk 2))
        ).bumped cfg code)

theorem exec_bump (cfg : Config) (ord : Order) (serve : (q : Q) → δ → R q × δ) (code : Bytes)
    (s : Node × δ) :
    (bump cfg code).exec (act cfg ord serve) s = ((), s.1.bumped cfg code, s.2) := by
  rw [bump, Node.bumped]
  split_ifs
  · rfl
  · rfl

/-- `resolve` in one go. -/
theorem exec_resolve {cfg : Config} {ord : Order} {serve : (q : Q) → δ → R q × δ}
    {get : Bytes → NodeProg R (Option Bytes)} {code : Bytes} {d : δ} {v : Option Bytes}
    (hget : ∀ n, (get code).exec (act cfg ord serve) (n, d) = (v, n, d)) (clk : Clock) (n : Node) :
    (resolve cfg get code clk).exec (act cfg ord serve) (n, d) =
      ((n.resolved cfg code clk v).1, (n.resolved cfg code clk v).2, d) := by
  rw [resolve, Node.resolved, Prog.exec_bind]
  change Prog.exec _ (match (n.cacheGet cfg code (clk 0)).1 with
    | some u => _
    | none => _) ((n.cacheGet cfg code (clk 0)).2, d) = _
  cases (n.cacheGet cfg code (clk 0)).1 with
  | some u =>
    rw [Prog.exec_bind, exec_bump]
    rfl
  | none =>
    rw [Prog.exec_bind, hget]
    dsimp only
    cases v.bind dec with
    | none => rfl
    | some row =>
      dsimp only
      split_ifs
      · rfl
      · rw [Prog.exec_bind, Prog.exec_bind, exec_bump]
        rfl

/-- What is cached after a `resolve` was cached before, or is the row. -/
theorem Node.cached_of_resolved {cfg : Config} {n : Node} {code c : Bytes} {clk : Clock}
    {v : Option Bytes} {it : KvEntry} (h : (n.resolved cfg code clk v).2.cached c = some it) :
    n.cached c = some it ∨ ∃ row, v.bind dec = some row ∧ expired row.e (clk 1) = false ∧ c = code ∧
      it = ⟨row.u, row.e, clk 2⟩ := by
  rw [resolved] at h
  cases hget : (n.cacheGet cfg code (clk 0)).1 with
  | some u =>
    rw [hget, cached_bumped] at h
    exact .inl (cached_of_cacheGet h)
  | none =>
    rw [hget] at h
    dsimp only at h
    cases hv : v.bind dec with
    | none =>
      rw [hv] at h
      exact .inl (cached_of_cacheGet h)
    | some row =>
      rw [hv] at h
      dsimp only at h
      split_ifs at h with hexp
      · exact .inl (cached_of_cacheGet h)
      · rw [cached_bumped] at h
        rcases cached_of_cachePut h with ⟨rfl, rfl⟩ | h
        · exact .inr ⟨row, rfl, Bool.eq_false_iff.mpr hexp, rfl, rfl⟩
        · exact .inl (cached_of_cacheGet h)

/-- What `resolve` returns was cached, or is the row. -/
theorem Node.resolved_eq_some {cfg : Config} {n : Node} {code u : Bytes} {clk : Clock}
    {v : Option Bytes} (h : (n.resolved cfg code clk v).1 = some u) :
    (n.cacheGet cfg code (clk 0)).1 = some u ∨
      ∃ row, v.bind dec = some row ∧ expired row.e (clk 1) = false ∧ row.u = u := by
  rw [resolved] at h
  cases hget : (n.cacheGet cfg code (clk 0)).1 with
  | some u' =>
    rw [hget] at h
    exact .inl h
  | none =>
    rw [hget] at h
    dsimp only at h
    cases hv : v.bind dec with
    | none =>
      rw [hv] at h
      cases h
    | some row =>
      rw [hv] at h
      dsimp only at h
      split_ifs at h with hexp
      exact .inr ⟨row, rfl, Bool.eq_false_iff.mpr hexp, Option.some.inj h⟩

/-- A value that has expired is as good as none. -/
theorem Node.resolved_of_expired {cfg : Config} {n : Node} {code : Bytes} {clk : Clock}
    {v : Option Bytes} (hv : ∀ row, v.bind dec = some row → expired row.e (clk 1) = true) :
    n.resolved cfg code clk v = n.resolved cfg code clk none := by
  rw [resolved, resolved]
  cases (n.cacheGet cfg code (clk 0)).1 with
  | some u => rfl
  | none =>
    dsimp only
    cases h : v.bind dec with
    | none => rfl
    | some row => exact if_pos (hv row h)

/-- The shard loop of `flush_hits`, which collects the hits of all shards. -/
def drainFrom : List (Fin NUM_SHARDS) → List (Bytes × Int64) → NodeProg R (List (Bytes × Int64))
  | [], deltas => return deltas
  | k :: ks, deltas => .act (.drain k) fun ds ↦ drainFrom ks (deltas ++ ds)

/-- What the shard loop collects and does to a node. -/
def Node.drained (ord : Order) (n : Node) : List (Fin NUM_SHARDS) → List (Bytes × Int64) →
    List (Bytes × Int64) × Node
  | [], deltas => (deltas, n)
  | k :: ks, deltas => (n.drain k).drained ord ks (deltas ++ iterate ord (n.dirty k).1)

/-- What a list of deltas adds to one code. -/
def amount (c : Bytes) (deltas : List (Bytes × Int64)) : Int64 :=
  (deltas.filterMap fun p ↦ if p.1 = c then some p.2 else none).sum

theorem amount_append (c : Bytes) (ds ds' : List (Bytes × Int64)) :
    amount c (ds ++ ds') = amount c ds + amount c ds' := by
  rw [amount, List.filterMap_append, List.sum_append, amount, amount]

theorem amount_iterate (ord : Order) (n : Node) (c : Bytes) (k : Fin NUM_SHARDS) :
    amount c (iterate ord (n.dirty k).1) = if shardOf c = k then (n.pendingAt c).getD 0 else 0 := by
  have hpick := UnorderedMap.filterMap_iterate ord (n.dirty k).1 c (some : Int64 → Option Int64)
  rw [amount, hpick]
  split_ifs with hk
  · rw [Node.pendingAt, hk]
    cases (n.dirty k).1.lookup c with
    | none => rfl
    | some d => exact add_zero d
  · have hnone : (n.dirty k).1.lookup c = none :=
      AList.lookup_eq_none.mpr fun hmem ↦ hk ((n.dirty k).2 c hmem)
    rw [hnone]
    rfl

/-- The shard loop moves the pending hits of the shards to the list. -/
theorem amount_drained (ord : Order) (ks : List (Fin NUM_SHARDS)) (c : Bytes) :
    ∀ (n : Node) (deltas : List (Bytes × Int64)),
      amount c (n.drained ord ks deltas).1 + ((n.drained ord ks deltas).2.pendingAt c).getD 0 =
        amount c deltas + (n.pendingAt c).getD 0 := by
  induction ks with
  | nil => exact fun _ _ ↦ rfl
  | cons k ks ih =>
    intro n deltas
    rw [Node.drained, ih, amount_append, amount_iterate, Node.pendingAt_drain]
    split_ifs with hk
    · rw [Option.getD_none, add_zero]
    · rw [add_zero]

@[simp] theorem cached_drained (ord : Order) (ks : List (Fin NUM_SHARDS)) (c : Bytes) :
    ∀ (n : Node) (deltas : List (Bytes × Int64)),
      (n.drained ord ks deltas).2.cached c = n.cached c := by
  induction ks with
  | nil => exact fun _ _ ↦ rfl
  | cons k ks ih => exact fun n deltas ↦ ih (n.drain k) _

theorem exec_drainFrom (cfg : Config) (ord : Order) (serve : (q : Q) → δ → R q × δ)
    (ks : List (Fin NUM_SHARDS)) (deltas : List (Bytes × Int64)) (n : Node) (d : δ) :
    (drainFrom ks deltas).exec (act cfg ord serve) (n, d) =
      ((n.drained ord ks deltas).1, (n.drained ord ks deltas).2, d) := by
  induction ks generalizing deltas n with
  | nil => rfl
  | cons k ks ih => exact ih _ _

end Shrt.Backend
