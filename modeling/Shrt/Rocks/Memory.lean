import Shrt.Lib.Lockstep
import Shrt.Rocks.Node
import Shrt.Store.Links

/-!
# RocksDB and memory

The RocksDB backend and the `:memory:` store are given the same operations. The database row of a
code is the entry in memory, a cached link is the row, and what is stored and what is pending of its
hits add up to the entry's counter (`Tracks`). Removing a link deletes the stored hits only, so that
the pending ones must have been written before.

The two answer alike but for one call: the backend has no statistics of a link that has expired,
memory has (`answers_eq_iff`).
-/

namespace Shrt.Rocks

open Backend (Config Node Out Row KvEntry enc dec dec_enc expired amount exec_drainFrom)
open Interleave (Prog)
open Interleave.Prog (exec_bind)
open Store (Link MutResult allShards)

/-! ## Operations -/

/-- What is asked of a store. -/
inductive Op where
  | shorten (url code : Bytes) (ttl : Int64)
  | resolve (code : Bytes)
  | update (code url : Bytes) (ttl : Int64) (hasTtl : Bool)
  | remove (code : Bytes)
  | stats (code : Bytes)
  /-- The flusher. -/
  | flush

/-- When an operation comes, and how hash maps are walked then. -/
structure Moment where
  now : Int64
  ord : Order := fun _ ↦ 0

/-- What a node of the backend does. -/
def Op.prog (cfg : Config) (clk : Clock) : Op → RocksProg Out
  | .shorten url code ttl => do return .code (← Rocks.shorten url code ttl clk)
  | .resolve code => do return .url (← Rocks.resolve cfg code clk)
  | .update code url ttl hasTtl => do return .result (← Rocks.update code url ttl hasTtl clk)
  | .remove code => do return .result (← Rocks.remove code)
  | .stats code => do return .link (← Rocks.stats code clk)
  | .flush => do
    flushHits
    return .done

/-- A node, one operation after another; no write fails. -/
def serveOp (cfg : Config) (s : Node × RocksDB) (p : Moment × Op) : Out × (Node × RocksDB) :=
  (p.2.prog cfg fun _ ↦ p.1.now).exec (step cfg { ord := p.1.ord }) s

/-- The store in memory, one operation after another. -/
def memoryOp (track : Bool) (st : Store) (p : Moment × Op) : Out × Store := match p.2 with
  | .shorten url code ttl => match st.shorten url (some code) ttl (fun _ ↦ p.1.now) [] with
    | some (st', c) => (.code c, st')
    | none => (.code none, st)
  | .resolve code =>
    (.url (st.resolve code (fun _ ↦ p.1.now) track p.1.ord).2,
      (st.resolve code (fun _ ↦ p.1.now) track p.1.ord).1)
  | .update code url ttl hasTtl =>
    (.result (st.update code url ttl hasTtl fun _ ↦ p.1.now).2,
      (st.update code url ttl hasTtl fun _ ↦ p.1.now).1)
  | .remove code => (.result (st.remove code).2, (st.remove code).1)
  | .stats code => (.link (st.stats code), st)
  | .flush => (.done, st.flushLocked p.1.ord)

/-! ## The store in memory -/

section Memory

variable {st : Store} {code url : Bytes} {ttl now : Int64} {hasTtl track : Bool} {ord : Order}

theorem push_memory (h : st.inner.aof = none) (line : Bytes) : st.push line = st := by
  rw [Store.push, h]
  exact congrArg (Store.mk st.dir) (congrArg (Inner.mk st.inner.shards st.inner.tail · st.inner.inst)
    h.symm)

theorem push_mapInner (f : Inner → Inner) (h : (f st.inner).aof = none) (line : Bytes) :
    (st.mapInner f).push line = st.mapInner f :=
  push_memory h line

theorem flushIfFull_memory (h : st.inner.aof = none) : st.flushIfFull = st := by
  rw [Store.flushIfFull, h]

theorem memoryOp_shorten (h : st.inner.aof = none) (t : Moment) :
    memoryOp track st (t, .shorten url code ttl) =
      if (st.inner.find code).isSome then (.code none, st)
      else (.code (some code), st.bind code url t.now (expiry t.now ttl)) := by
  have hbind : (st.bind code url t.now (expiry t.now ttl)).inner.aof = none := h
  simp only [memoryOp, Store.shorten, Store.pickCode, Option.map_some]
  split_ifs with hthere
  · rfl
  · simp only [push_memory hbind, flushIfFull_memory hbind]

/-- A link that has not expired. -/
theorem live_iff {e : Entry} : Store.live e now = true ↔ expired e.e now = false := by
  simp only [Store.live, expired, Bool.or_eq_true, decide_eq_true_eq, Bool.and_eq_false_iff,
    decide_eq_false_iff_not, ne_eq, not_not, Int64.not_le]

/-- The entry after a hit that is counted or not. -/
def hit (track : Bool) (e : Entry) : Entry := if track then Store.bumped e else e

/-- The index after a hit. -/
def counted (track : Bool) (st : Store) (code : Bytes) (e : Entry) : Store :=
  if track then (st.mapInner (·.put code (Store.bumped e))).markDirty code else st

theorem resolve_memory (h : st.inner.aof = none) (clk : Clock) :
    st.resolve code clk track ord = match st.inner.find code with
      | none => (st, none)
      | some e =>
        if expired e.e (clk 0) then (st, none) else (counted track st code e, some e.u) := by
  rw [Store.resolve.eq_def, Store.lookup.eq_def]
  cases st.inner.find code with
  | none => simp only [h, Option.isNone_none, if_true]
  | some e =>
    by_cases he : expired e.e (clk 0) = true
    · have hdead : ¬ Store.live e (clk 0) = true := fun hl ↦
        Bool.false_ne_true ((live_iff.mp hl).symm.trans he)
      simp only [hdead, he]
      rfl
    · have hlive : Store.live e (clk 0) = true := live_iff.mpr (Bool.eq_false_iff.mpr he)
      simp only [hlive, he, counted]
      cases track with
      | false => rfl
      | true => rfl

theorem update_memory (h : st.inner.aof = none)
    (hown : ∀ c e, st.inner.find c = some e → e.i = instInt st.inner.inst) (clk : Clock) :
    st.update code url ttl hasTtl clk = match st.inner.find code with
      | none => (st, .missing)
      | some e => (st.mapInner (·.put code
          { e with u := url, e := if hasTtl then expiry (clk 0) ttl else e.e }), .ok) := by
  rw [Store.update.eq_def, Store.updateIndex.eq_def]
  cases hfind : st.inner.find code with
  | none => rfl
  | some e =>
    simp only [hown code e hfind, ne_eq, not_true_eq_false, if_false]
    refine congrArg (·, MutResult.ok) (push_mapInner _ ?_ _)
    exact h

theorem remove_memory (h : st.inner.aof = none)
    (hown : ∀ c e, st.inner.find c = some e → e.i = instInt st.inner.inst) :
    st.remove code = match st.inner.find code with
      | none => (st, .missing)
      | some _ => (st.mapInner (·.erase code), .ok) := by
  rw [Store.remove.eq_def, Store.removeIndex.eq_def]
  cases hfind : st.inner.find code with
  | none => rfl
  | some e =>
    simp only [hown code e hfind, ne_eq, not_true_eq_false, if_false]
    refine congrArg (·, MutResult.ok) (push_mapInner _ ?_ _)
    exact h

theorem find_counted {e : Entry} (hfind : st.inner.find code = some e) (c : Bytes) :
    (counted track st code e).inner.find c =
      if c = code then some (hit track e) else st.inner.find c := by
  rw [counted, hit]
  cases track with
  | false =>
    simp only [Bool.false_eq_true, if_false]
    split_ifs with hc
    · rw [hc, hfind]
    · rfl
  | true => exact (Shards.find_addDirty _ _ _).trans (Inner.find_put _ _ _ _)

end Memory

/-! ## The relation -/

/-- The hits of a code in the database. -/
def hitsOf (db : RocksDB) (c : Bytes) : UInt64 := u64Of ((db.hits.lookup c).getD [])

/-- A node of the backend and a store in memory that were given the same operations. -/
structure Tracks (s : Node × RocksDB) (st : Store) : Prop where
  memory : st.inner.aof = none
  own : ∀ c e, st.inner.find c = some e → e.i = instInt st.inner.inst
  rows : ∀ c, s.2.links.lookup c = (st.inner.find c).map fun e ↦ enc e.e e.a e.u
  cached : ∀ c it, s.1.cached c = some it → ∃ e, st.inner.find c = some e ∧ it.u = e.u ∧ it.e = e.e
  hits : ∀ c, (hitsOf s.2 c).toInt64 + (s.1.pendingAt c).getD 0 =
    ((st.inner.find c).map Entry.h).getD 0

variable {cfg : Config} {t : Moment} {s : Node × RocksDB} {st : Store} {code url : Bytes}
  {ttl : Int64} {hasTtl : Bool}

theorem tracks_empty : Tracks ({}, {}) openMemory where
  memory := rfl
  own c e h := by
    rw [Inner.find, openMemory, Shards.find_empty] at h
    cases h
  rows c := by
    rw [Inner.find, openMemory, Shards.find_empty]
    rfl
  cached c it h := by cases h
  hits c := by
    rw [Inner.find, openMemory, Shards.find_empty]
    rfl

/-- The entry of one code changes on both sides. -/
theorem Tracks.write (h : Tracks s st) (code : Bytes) (o : Option Entry) {n : Node} {db : RocksDB}
    {st' : Store} (hmemory : st'.inner.aof = none) (hinst : st'.inner.inst = st.inner.inst)
    (hfind : ∀ c, st'.inner.find c = if c = code then o else st.inner.find c)
    (hown : ∀ e ∈ o, e.i = instInt st.inner.inst)
    (hlinks : ∀ c, db.links.lookup c =
      if c = code then o.map fun e ↦ enc e.e e.a e.u else s.2.links.lookup c)
    (hcached : ∀ c it, n.cached c = some it →
      c = code ∧ (∃ e ∈ o, it.u = e.u ∧ it.e = e.e) ∨ c ≠ code ∧ s.1.cached c = some it)
    (hhits : (hitsOf db code).toInt64 + (n.pendingAt code).getD 0 = (o.map Entry.h).getD 0)
    (hothers : ∀ c, c ≠ code → hitsOf db c = hitsOf s.2 c ∧
      (n.pendingAt c).getD 0 = (s.1.pendingAt c).getD 0) : Tracks (n, db) st' where
  memory := hmemory
  own c e hc := by
    rw [hfind] at hc
    rw [hinst]
    split_ifs at hc with heq
    · exact hown e hc
    · exact h.own c e hc
  rows c := by
    rw [hlinks, hfind]
    split_ifs with heq
    · rfl
    · exact h.rows c
  cached c it hc := by
    rw [hfind]
    rcases hcached c it hc with ⟨heq, e, he, hsame⟩ | ⟨hne, hc⟩
    · rw [if_pos heq]
      exact ⟨e, he, hsame⟩
    · rw [if_neg hne]
      exact h.cached c it hc
  hits c := by
    rw [hfind]
    split_ifs with heq
    · rw [heq]
      exact hhits
    · obtain ⟨hdb, hnode⟩ := hothers c heq
      rw [hdb, hnode]
      exact h.hits c

theorem lookup_insert (m : AList fun _ : Bytes ↦ Bytes) (c code v : Bytes) :
    (m.insert code v).lookup c = if c = code then some v else m.lookup c := by
  split_ifs with h
  · rw [h, AList.lookup_insert]
  · exact AList.lookup_insert_ne h

theorem lookup_erase (m : AList fun _ : Bytes ↦ Bytes) (c code : Bytes) :
    (m.erase code).lookup c = if c = code then none else m.lookup c := by
  split_ifs with h
  · rw [h, AList.lookup_erase]
  · exact AList.lookup_erase_ne h

/-! ## One operation -/

theorem serveOp_shorten : serveOp cfg s (t, .shorten url code ttl) =
    if (s.2.links.lookup code).isSome then (.code none, s)
    else (.code (some code), s.1.cachePut cfg code url (expiry t.now ttl) t.now,
      ⟨s.2.links.insert code (enc (expiry t.now ttl) t.now url), s.2.hits⟩) := by
  rw [serveOp, Op.prog, exec_bind, Rocks.shorten, exec_bind]
  change Prog.exec _ (pure (Out.code (Prog.exec _ (if (s.2.links.lookup code).isSome then _
    else _) s).1)) (Prog.exec _ (if (s.2.links.lookup code).isSome then _ else _) s).2 = _
  split_ifs with hthere
  · rfl
  · rfl

theorem tracks_shorten (h : Tracks s st) :
    (serveOp cfg s (t, .shorten url code ttl)).1 =
      (memoryOp cfg.track st (t, .shorten url code ttl)).1 ∧
    Tracks (serveOp cfg s (t, .shorten url code ttl)).2
      (memoryOp cfg.track st (t, .shorten url code ttl)).2 := by
  rw [serveOp_shorten, memoryOp_shorten h.memory, h.rows code, Option.isSome_map]
  split_ifs with hthere
  · exact ⟨rfl, h⟩
  · have hnone : st.inner.find code = none := Option.not_isSome_iff_eq_none.mp hthere
    have hzero := h.hits code
    rw [hnone] at hzero
    refine ⟨rfl, h.write code (some (st.newEntry url t.now (expiry t.now ttl))) ?_ ?_ (fun c ↦ ?_)
      (fun e he ↦ ?_) (fun c ↦ ?_) (fun c it hc ↦ ?_) ?_ (fun c _ ↦ ?_)⟩
    · exact h.memory
    · rfl
    · exact Inner.find_put _ _ _ _
    · rw [← Option.some.inj he]
      rfl
    · exact lookup_insert _ _ _ _
    · rcases Node.cached_of_cachePut hc with ⟨heq, rfl⟩ | hbefore
      · exact .inl ⟨heq, _, rfl, rfl, rfl⟩
      · refine .inr ⟨?_, hbefore⟩
        rintro rfl
        obtain ⟨e, he, -⟩ := h.cached c it hbefore
        exact absurd (hnone.symm.trans he) (by simp)
    · exact hzero
    · exact ⟨rfl, rfl⟩

/-- A node that has lost cached links. -/
theorem Tracks.forget (h : Tracks s st) {n : Node}
    (hcached : ∀ c it, n.cached c = some it → s.1.cached c = some it)
    (hpending : ∀ c, (n.pendingAt c).getD 0 = (s.1.pendingAt c).getD 0) : Tracks (n, s.2) st where
  memory := h.memory
  own := h.own
  rows := h.rows
  cached c it hc := h.cached c it (hcached c it hc)
  hits c := by
    rw [hpending]
    exact h.hits c

/-- A hit that is counted on both sides. -/
theorem Tracks.count (h : Tracks s st) {e : Entry} (hfind : st.inner.find code = some e) {n : Node}
    (hcached : ∀ c it, n.cached c = some it →
      c = code ∧ it.u = e.u ∧ it.e = e.e ∨ s.1.cached c = some it)
    (hpending : ∀ c, n.pendingAt c = s.1.pendingAt c) :
    Tracks (n.bumped cfg code, s.2) (counted cfg.track st code e) := by
  have hhits := h.hits code
  rw [hfind, Option.map_some, Option.getD_some] at hhits
  obtain ⟨hi, he, ha, hu, hh⟩ : (hit cfg.track e).i = e.i ∧ (hit cfg.track e).e = e.e ∧
      (hit cfg.track e).a = e.a ∧ (hit cfg.track e).u = e.u ∧
      (hit cfg.track e).h = e.h + if cfg.track then 1 else 0 := by
    rw [hit]
    split_ifs
    · exact ⟨rfl, rfl, rfl, rfl, rfl⟩
    · exact ⟨rfl, rfl, rfl, rfl, (add_zero e.h).symm⟩
  obtain ⟨hinst, hmemory⟩ : (counted cfg.track st code e).inner.inst = st.inner.inst ∧
      (counted cfg.track st code e).inner.aof = none := by
    rw [counted]
    split_ifs
    · exact ⟨rfl, h.memory⟩
    · exact ⟨rfl, h.memory⟩
  refine h.write code (some (hit cfg.track e)) hmemory hinst (find_counted hfind) (fun e' he' ↦ ?_)
    (fun c ↦ ?_) (fun c it hc ↦ ?_) ?_ (fun c hne ↦ ?_)
  · rw [← Option.some.inj he', hi]
    exact h.own code e hfind
  · split_ifs with heq
    · rw [heq, h.rows, hfind, Option.map_some, Option.map_some, he, ha, hu]
    · rfl
  · rw [Node.cached_bumped] at hc
    rcases hcached c it hc with ⟨heq, hu', he'⟩ | hbefore
    · exact .inl ⟨heq, _, rfl, hu'.trans hu.symm, he'.trans he.symm⟩
    · by_cases heq : c = code
      · obtain ⟨e', hfind', hu', he'⟩ := h.cached c it hbefore
        obtain rfl := Option.some.inj (hfind.symm.trans (heq ▸ hfind'))
        exact .inl ⟨heq, _, rfl, hu'.trans hu.symm, he'.trans he.symm⟩
      · exact .inr ⟨heq, hbefore⟩
  · rw [Node.pendingAt_bumped, hpending, Option.map_some, Option.getD_some, hh, ← hhits, add_assoc]
    exact congrArg _ (congrArg _ (if_congr (and_iff_right rfl) rfl rfl))
  · rw [Node.pendingAt_bumped, hpending, if_neg (fun hc ↦ hne hc.1), add_zero]
    exact ⟨rfl, rfl⟩

theorem serveOp_resolve : serveOp cfg s (t, .resolve code) =
    (.url (s.1.resolved cfg code (fun _ ↦ t.now) (s.2.links.lookup code)).1,
      (s.1.resolved cfg code (fun _ ↦ t.now) (s.2.links.lookup code)).2, s.2) := by
  have hget (n : Node) : (dbGet code).exec (step cfg { ord := t.ord }) (n, s.2) =
      (s.2.links.lookup code, n, s.2) := rfl
  rw [serveOp, Op.prog, exec_bind, Rocks.resolve, Backend.exec_resolve hget]
  rfl

theorem tracks_resolve (h : Tracks s st) :
    (serveOp cfg s (t, .resolve code)).1 = (memoryOp cfg.track st (t, .resolve code)).1 ∧
    Tracks (serveOp cfg s (t, .resolve code)).2 (memoryOp cfg.track st (t, .resolve code)).2 := by
  have hmem : memoryOp cfg.track st (t, .resolve code) =
      (.url (st.resolve code (fun _ ↦ t.now) cfg.track t.ord).2,
        (st.resolve code (fun _ ↦ t.now) cfg.track t.ord).1) := rfl
  rw [serveOp_resolve, hmem, resolve_memory h.memory, h.rows, Node.resolved]
  have hforget : Tracks ((s.1.cacheGet cfg code t.now).2, s.2) st :=
    h.forget (fun _ _ ↦ Node.cached_of_cacheGet) (fun _ ↦ by rw [Node.pendingAt_cacheGet])
  cases hfind : st.inner.find code with
  | none =>
    -- What is cached is in the index.
    cases hget : (s.1.cacheGet cfg code t.now).1 with
    | some u =>
      obtain ⟨it, hit, -⟩ := Node.cached_of_cacheGet_eq_some hget
      obtain ⟨e, he, -⟩ := h.cached code it hit
      exact absurd (hfind.symm.trans he) (by simp)
    | none => exact ⟨rfl, hforget⟩
  | some e =>
    cases hget : (s.1.cacheGet cfg code t.now).1 with
    | some u =>
      obtain ⟨it, hit, rfl, hlive, -⟩ := Node.cached_of_cacheGet_eq_some hget
      obtain ⟨e', he', hu, he⟩ := h.cached code it hit
      obtain rfl := Option.some.inj (hfind.symm.trans he')
      rw [he] at hlive
      simp only [hlive, Bool.false_eq_true, if_false, hu, true_and]
      exact h.count hfind (fun c it hc ↦ .inr (Node.cached_of_cacheGet hc))
        (fun _ ↦ Node.pendingAt_cacheGet)
    | none =>
      simp only [Option.map_some, Option.bind_some, dec_enc]
      by_cases hexp : expired e.e t.now = true
      · simp only [hexp, if_true]
        exact ⟨trivial, hforget⟩
      · simp only [hexp]
        refine ⟨rfl, h.count hfind (fun c it hc ↦ ?_) (fun c ↦ ?_)⟩
        · rcases Node.cached_of_cachePut hc with ⟨heq, rfl⟩ | hbefore
          · exact .inl ⟨heq, rfl, rfl⟩
          · exact .inr (Node.cached_of_cacheGet hbefore)
        · rw [Node.pendingAt_cachePut, Node.pendingAt_cacheGet]

theorem serveOp_update : serveOp cfg s (t, .update code url ttl hasTtl) =
    match (s.2.links.lookup code).bind dec with
    | none => (.result .missing, s)
    | some row => (.result .ok, s.1.cacheDel code,
        ⟨s.2.links.insert code (enc (if hasTtl then expiry t.now ttl else row.e) row.c url),
          s.2.hits⟩) := by
  rw [serveOp, Op.prog, exec_bind, Rocks.update, exec_bind]
  have hget : (dbGet code).exec (step cfg { ord := t.ord }) s = (s.2.links.lookup code, s) := rfl
  rw [hget]
  dsimp only
  cases (s.2.links.lookup code).bind dec with
  | none => rfl
  | some row => rfl

theorem tracks_update (h : Tracks s st) :
    (serveOp cfg s (t, .update code url ttl hasTtl)).1 =
      (memoryOp cfg.track st (t, .update code url ttl hasTtl)).1 ∧
    Tracks (serveOp cfg s (t, .update code url ttl hasTtl)).2
      (memoryOp cfg.track st (t, .update code url ttl hasTtl)).2 := by
  have hmem : memoryOp cfg.track st (t, .update code url ttl hasTtl) =
      (.result (st.update code url ttl hasTtl fun _ ↦ t.now).2,
        (st.update code url ttl hasTtl fun _ ↦ t.now).1) := rfl
  rw [serveOp_update, hmem, update_memory h.memory h.own, h.rows]
  have hhits := h.hits code
  cases hfind : st.inner.find code with
  | none => exact ⟨rfl, h⟩
  | some e =>
    rw [hfind] at hhits
    simp only [Option.map_some, Option.bind_some, dec_enc]
    refine ⟨trivial, h.write code
      (some { e with u := url, e := if hasTtl then expiry t.now ttl else e.e }) ?_ ?_ (fun c ↦ ?_)
      (fun e' he' ↦ ?_) (fun c ↦ ?_) (fun c it hc ↦ ?_) ?_ (fun c _ ↦ ?_)⟩
    · exact h.memory
    · rfl
    · exact Inner.find_put _ _ _ _
    · rw [← Option.some.inj he']
      exact h.own code e hfind
    · exact lookup_insert _ _ _ _
    · refine .inr ⟨?_, Node.cached_of_cacheDel hc⟩
      rintro rfl
      rw [Node.cached_cacheDel_self] at hc
      cases hc
    · exact hhits
    · exact ⟨rfl, rfl⟩

theorem serveOp_remove : serveOp cfg s (t, .remove code) =
    if (s.2.links.lookup code).isNone then (.result .missing, s)
    else (.result .ok, s.1.cacheDel code,
      ⟨s.2.links.erase code, s.2.hits.erase code⟩) := by
  rw [serveOp, Op.prog, exec_bind, Rocks.remove, exec_bind]
  have hget : (dbGet code).exec (step cfg { ord := t.ord }) s = (s.2.links.lookup code, s) := rfl
  rw [hget]
  dsimp only
  by_cases hnone : (s.2.links.lookup code).isNone = true
  · simp only [hnone, if_true]
    rfl
  · simp only [hnone]
    rfl

/-- Removing a link forgets the hits that were not written yet; there must be none. -/
theorem tracks_remove (h : Tracks s st) (hflushed : (s.1.pendingAt code).getD 0 = 0) :
    (serveOp cfg s (t, .remove code)).1 = (memoryOp cfg.track st (t, .remove code)).1 ∧
    Tracks (serveOp cfg s (t, .remove code)).2 (memoryOp cfg.track st (t, .remove code)).2 := by
  have hmem : memoryOp cfg.track st (t, .remove code) =
      (.result (st.remove code).2, (st.remove code).1) := rfl
  rw [serveOp_remove, hmem, remove_memory h.memory h.own, h.rows]
  cases hfind : st.inner.find code with
  | none => exact ⟨rfl, h⟩
  | some e =>
    refine ⟨rfl, h.write code none ?_ ?_ (fun c ↦ ?_) (fun e' he' ↦ ?_) (fun c ↦ ?_)
      (fun c it hc ↦ ?_) ?_ (fun c hne ↦ ?_)⟩
    · exact h.memory
    · rfl
    · exact Inner.find_erase _ _ _
    · cases he'
    · exact lookup_erase _ _ _
    · refine .inr ⟨?_, Node.cached_of_cacheDel hc⟩
      rintro rfl
      rw [Node.cached_cacheDel_self] at hc
      cases hc
    · rw [hitsOf, AList.lookup_erase, Node.pendingAt_cacheDel, hflushed]
      rfl
    · rw [hitsOf, hitsOf, AList.lookup_erase_ne hne]
      exact ⟨rfl, rfl⟩

/-- The statistics of a row. -/
def linkOf (s : Node × RocksDB) (code : Bytes) (row : Row) : Link where
  code := code
  url := row.u
  hits := (hitsOf s.2 code).toInt64 + (s.1.pendingAt code).getD 0
  createdAt := row.c
  expiresAt := row.e

theorem serveOp_stats : serveOp cfg s (t, .stats code) =
    match (s.2.links.lookup code).bind dec with
    | none => (.link none, s)
    | some row =>
      if expired row.e t.now then (.link none, s)
      else (.link (some (linkOf s code row)),
        s.1.setPending code ((s.1.pendingAt code).getD 0), s.2) := by
  rw [serveOp, Op.prog, exec_bind, Rocks.stats, exec_bind]
  have hget : (dbGet code).exec (step cfg { ord := t.ord }) s = (s.2.links.lookup code, s) := rfl
  rw [hget]
  dsimp only
  cases (s.2.links.lookup code).bind dec with
  | none => rfl
  | some row =>
    dsimp only
    by_cases hexp : expired row.e t.now = true
    · simp only [hexp, if_true]
      rfl
    · simp only [hexp]
      rfl

theorem tracks_stats (h : Tracks s st) :
    ((serveOp cfg s (t, .stats code)).1 = (memoryOp cfg.track st (t, .stats code)).1 ↔
      ∀ e ∈ st.inner.find code, expired e.e t.now = false) ∧
    Tracks (serveOp cfg s (t, .stats code)).2 (memoryOp cfg.track st (t, .stats code)).2 := by
  have hmem : memoryOp cfg.track st (t, .stats code) = (.link (st.stats code), st) := rfl
  have hhits := h.hits code
  rw [serveOp_stats, hmem, Store.stats, h.rows]
  cases hfind : st.inner.find code with
  | none => exact ⟨by simp, h⟩
  | some e =>
    rw [hfind] at hhits
    simp only [Option.map_some, Option.bind_some, dec_enc]
    by_cases hexp : expired e.e t.now = true
    · simp only [hexp, if_true]
      exact ⟨by simp [hexp], h⟩
    · simp only [hexp]
      refine ⟨?_, h.forget (fun _ _ hc ↦ hc) fun c ↦ ?_⟩
      · simp [hexp, linkOf, hhits]
      · rw [Node.pendingAt_setPending]
        split_ifs with heq
        · rw [heq]
          rfl
        · rfl

/-! ## Flushes -/

theorem hitsOf_add (db : RocksDB) (c c' : Bytes) (d : Int64) :
    hitsOf (db.add (c', u64Bytes d.toUInt64)) c =
      hitsOf db c + if c' = c then d.toUInt64 else 0 := by
  rw [hitsOf, RocksDB.add, lookup_insert, hitsOf]
  by_cases heq : c = c'
  · rw [if_pos heq, if_pos heq.symm, Option.getD_some, u64Of_mergeU64, u64Of_u64Bytes, heq]
  · rw [if_neg heq, if_neg (Ne.symm heq)]
    exact (UInt64.add_zero _).symm

theorem hitsOf_merged (c : Bytes) (deltas : List (Bytes × Int64)) : ∀ db : RocksDB,
    hitsOf ((deltas.map fun p ↦ (p.1, u64Bytes p.2.toUInt64)).foldl RocksDB.add db) c =
      hitsOf db c + (amount c deltas).toUInt64 := by
  induction deltas with
  | nil => exact fun db ↦ (UInt64.add_zero _).symm
  | cons p deltas ih =>
    intro db
    rw [List.map_cons, List.foldl_cons, ih, hitsOf_add, amount, amount, List.filterMap_cons]
    split_ifs with heq
    · rw [List.sum_cons, Int64.toUInt64_add, UInt64.add_assoc]
    · rw [UInt64.add_zero]

theorem links_merged (deltas : List (Bytes × Bytes)) : ∀ db : RocksDB,
    (deltas.foldl RocksDB.add db).links = db.links := by
  induction deltas with
  | nil => exact fun _ ↦ rfl
  | cons p deltas ih => exact fun db ↦ ih (db.add p)

theorem exec_flushHits (e : Fate) : flushHits.exec (step cfg e) s =
    ((), (s.1.drained e.ord allShards []).2,
      if e.ok then ((s.1.drained e.ord allShards []).1.map fun p ↦
        (p.1, u64Bytes p.2.toUInt64)).foldl RocksDB.add s.2 else s.2) := by
  rw [flushHits, exec_bind, exec_drainFrom]
  generalize s.1.drained e.ord allShards [] = r
  obtain ⟨deltas, n⟩ := r
  cases deltas with
  | nil => exact congrArg (fun db ↦ ((), n, db)) (ite_self s.2).symm
  | cons p deltas => rfl

theorem serveOp_flush : serveOp cfg s (t, .flush) =
    (.done, (s.1.drained t.ord allShards []).2,
      ((s.1.drained t.ord allShards []).1.map fun p ↦ (p.1, u64Bytes p.2.toUInt64)).foldl
        RocksDB.add s.2) := by
  rw [serveOp, Op.prog, exec_bind, exec_flushHits]
  rfl

theorem tracks_flush (h : Tracks s st) :
    (serveOp cfg s (t, .flush)).1 = (memoryOp cfg.track st (t, .flush)).1 ∧
    Tracks (serveOp cfg s (t, .flush)).2 (memoryOp cfg.track st (t, .flush)).2 := by
  have hmem : memoryOp cfg.track st (t, .flush) = (.done, st.flushLocked t.ord) := rfl
  have hsame : st.flushLocked t.ord = st := by
    rw [Store.flushLocked, h.memory]
    rfl
  rw [serveOp_flush, hmem, hsame]
  have hamount (c : Bytes) := Backend.amount_drained t.ord allShards c s.1 []
  have hcached (c : Bytes) := Backend.cached_drained t.ord allShards c s.1 []
  generalize s.1.drained t.ord allShards [] = r at hamount hcached
  refine ⟨rfl, h.memory, h.own, fun c ↦ ?_, fun c it hc ↦ ?_, fun c ↦ ?_⟩
  · rw [links_merged]
    exact h.rows c
  · rw [hcached] at hc
    exact h.cached c it hc
  · have hc := hamount c
    change amount c r.1 + _ = 0 + _ at hc
    rw [zero_add] at hc
    have hback : (amount c r.1).toUInt64.toInt64 = amount c r.1 := rfl
    dsimp only
    rw [hitsOf_merged, UInt64.toInt64_add, hback, add_assoc, hc]
    exact h.hits c

/-! ## Runs -/

/-- The condition on an operation: statistics are not asked of a link that has expired. -/
def Fresh (s : (Node × RocksDB) × Store) (p : Moment × Op) : Prop := match p.2 with
  | .stats code => ∀ e ∈ s.2.inner.find code, expired e.e p.1.now = false
  | _ => True

/-- The hits of a link are flushed before it is removed. -/
def Flushed (s : (Node × RocksDB) × Store) (p : Moment × Op) : Prop := match p.2 with
  | .remove code => (s.1.1.pendingAt code).getD 0 = 0
  | _ => True

theorem tracks_serveOp {p : Moment × Op} (h : Tracks s st) (hflushed : Flushed (s, st) p) :
    ((serveOp cfg s p).1 = (memoryOp cfg.track st p).1 ↔ Fresh (s, st) p) ∧
    (Fresh (s, st) p → Tracks (serveOp cfg s p).2 (memoryOp cfg.track st p).2) := by
  have hfree (h : (serveOp cfg s p).1 = (memoryOp cfg.track st p).1 ∧
      Tracks (serveOp cfg s p).2 (memoryOp cfg.track st p).2) :
      ((serveOp cfg s p).1 = (memoryOp cfg.track st p).1 ↔ True) ∧
        (True → Tracks (serveOp cfg s p).2 (memoryOp cfg.track st p).2) :=
    ⟨iff_true_intro h.1, fun _ ↦ h.2⟩
  obtain ⟨t, op⟩ := p
  cases op with
  | shorten url code ttl => exact hfree (tracks_shorten h)
  | resolve code => exact hfree (tracks_resolve h)
  | update code url ttl hasTtl => exact hfree (tracks_update h)
  | remove code => exact hfree (tracks_remove h hflushed)
  | stats code => exact ⟨(tracks_stats h).1, fun _ ↦ (tracks_stats h).2⟩
  | flush => exact hfree (tracks_flush h)

/-- **RocksDB and memory.** Both are given the same operations from the start, with the flusher
anywhere, and the hits of a link are flushed before it is removed. They answer alike exactly when
the statistics of no expired link are asked for. -/
theorem answers_eq_iff (cfg : Config) {ops : List (Moment × Op)}
    (hflushed : Transition.Meets (Lockstep.both (serveOp cfg) (memoryOp cfg.track)) Flushed
      (({}, {}), openMemory) ops) :
    Lockstep.outputs (serveOp cfg) ({}, {}) ops =
        Lockstep.outputs (memoryOp cfg.track) openMemory ops ↔
      Transition.Meets (Lockstep.both (serveOp cfg) (memoryOp cfg.track)) Fresh
        (({}, {}), openMemory) ops :=
  Lockstep.outputs_eq_iff_meets_of_timeless (fun _ _ _ h hq ↦ tracks_serveOp h hq) tracks_empty
    hflushed

instance (s : (Node × RocksDB) × Store) : (p : Moment × Op) → Decidable (Fresh s p)
  | (t, .stats code) => decidable_of_iff ((s.2.inner.find code).all fun e ↦ !expired e.e t.now) (by
      simp [Fresh, Option.all_eq_true])
  | (_, .shorten _ _ _) | (_, .resolve _) | (_, .update _ _ _ _) | (_, .remove _) | (_, .flush) =>
    inferInstanceAs (Decidable True)

instance (s : (Node × RocksDB) × Store) : (p : Moment × Op) → Decidable (Flushed s p)
  | (_, .remove _) => inferInstanceAs (Decidable (_ = _))
  | (_, .shorten _ _ _) | (_, .resolve _) | (_, .update _ _ _ _) | (_, .stats _) | (_, .flush) =>
    inferInstanceAs (Decidable True)

/-- A link that is resolved, changed, removed and created again. -/
def lifeOfLink : List (Moment × Op) :=
  [(⟨1, fun _ ↦ 0⟩, .shorten (lit "http://x") (lit "abc") 10), (⟨2, fun _ ↦ 0⟩, .resolve (lit "abc")),
    (⟨3, fun _ ↦ 0⟩, .stats (lit "abc")), (⟨3, fun _ ↦ 0⟩, .flush),
    (⟨20, fun _ ↦ 0⟩, .resolve (lit "abc")),
    (⟨21, fun _ ↦ 0⟩, .update (lit "abc") (lit "http://y") 0 true),
    (⟨22, fun _ ↦ 0⟩, .stats (lit "abc")), (⟨23, fun _ ↦ 0⟩, .remove (lit "abc")),
    (⟨24, fun _ ↦ 0⟩, .shorten (lit "http://z") (lit "abc") 0)]

theorem answers_eq_iff_lifeOfLink :
    Lockstep.outputs (serveOp {}) ({}, {}) lifeOfLink =
      Lockstep.outputs (memoryOp true) openMemory lifeOfLink :=
  (answers_eq_iff {} (by decide +kernel)).mpr (by decide +kernel)

/-- The statistics of a link that has expired. -/
def statsTooLate : List (Moment × Op) :=
  [(⟨1, fun _ ↦ 0⟩, .shorten (lit "http://x") (lit "abc") 10), (⟨20, fun _ ↦ 0⟩, .stats (lit "abc"))]

theorem backends_differ :
    Lockstep.outputs (serveOp {}) ({}, {}) statsTooLate = [.code (some (lit "abc")), .link none] ∧
      Lockstep.outputs (memoryOp true) openMemory statsTooLate =
        [.code (some (lit "abc")), .link (some ⟨lit "abc", lit "http://x", 0, 1, 11⟩)] := by
  decide +kernel

end Shrt.Rocks
