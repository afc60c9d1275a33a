import Shrt.Machine.Restart

/-!
# Where the hits are

A resolve bumps the counters of the entry and, in a second section, the pending hits of the code.
Flushes drain the pending hits shard by shard into lines of their own, any number of them at once,
and push the lines to the log. Between the entry and the log file a hit can thus be in one of five
places, and no step of any call loses or doubles one: what the entry has counted since some moment
is what has entered those places since (`ownHits_sub_ownHits`).
-/

namespace Shrt

open CounterLog (Touch added added_append)
open Transition (run Meets)

/-- Hits the instance has counted on the entry of a code. -/
def Store.ownHits (st : Store) (c : Bytes) : Int64 := ((st.inner.find c).map Entry.oh).getD 0

/-- Hits on a code that a call carries: those in the lines of an unfinished flush, and the one of a
resolve between its two sections. -/
def Thread.carried (c : Bytes) : Thread → Int64
  | flushing _ _ lines => added (touches c lines)
  | counted code => if code = c then 1 else 0
  | _ => 0

namespace Machine

/-- Hits on a code in the log, in its buffer, in the hands of a call, and pending. -/
def places (m : Machine) (c : Bytes) : Int64 :=
  added (touches c m.store.log) + added (touches c m.store.buf)
    + (m.calls.map (Thread.carried c)).sum + m.store.inner.shards.dirtyOf c

/-- The lines of mutations count no hit. -/
theorem added_touches_linesOf {inst : InstanceId} {held : List Held}
    (h : ∀ x ∈ held, HeldOk inst x) (id : ℕ) (c : Bytes) :
    added (touches c (linesOf held id)) = 0 := by
  have hzero : ∀ t ∈ touches c (linesOf held id), t.added = 0 := by
    intro t ht
    obtain ⟨o, ho, hto⟩ := List.mem_filterMap.mp ht
    rw [replayOps_linesOf h, List.mem_flatMap] at ho
    obtain ⟨x, hx, ho⟩ := ho
    obtain ⟨op, -, -, hline, hhit⟩ := h x (List.mem_filter.mp hx).1
    rw [hline, replayOps_line, List.mem_singleton] at ho
    rw [ho] at hto
    cases op with
    | row c' u a e i n =>
      rw [touch_row] at hto
      split_ifs at hto
      rw [← Option.some.inj hto]
      rfl
    | hit c' d i => exact absurd rfl (hhit c' d i)
    | del c' =>
      rw [touch_del] at hto
      split_ifs at hto
      rw [← Option.some.inj hto]
      rfl
  exact List.sum_eq_zero fun x hx ↦ by
    obtain ⟨t, ht, rfl⟩ := List.mem_map.mp hx
    exact hzero t ht

/-! ## What a step does to the hits of one code -/

/-- The counter of a code, its lines in the log, and its pending hits. -/
structure Reads (c : Bytes) (st : Store) (own : Int64) (log : List (Touch Int64))
    (dirty : Int64) : Prop where
  own : st.ownHits c = own
  log : st.logTouches c = log
  dirty : st.inner.shards.dirtyOf c = dirty

theorem reads_self (c : Bytes) (st : Store) :
    Reads c st (st.ownHits c) (st.logTouches c) (st.inner.shards.dirtyOf c) := ⟨rfl, rfl, rfl⟩

/-- The ways in which a section moves the hits of a code: with the store it leads to, the call it
belongs to, and what that call goes on as. -/
inductive Flow (c : Bytes) (m : Machine) (st : Store) : Option Thread → List Thread → Prop
  /-- Nothing moves. -/
  | quiet {old ts}
      (h : Reads c st (m.store.ownHits c) (m.store.logTouches c) (m.store.inner.shards.dirtyOf c))
      (hold : ∀ t ∈ old, t.carried c = 0) (hts : ∀ t ∈ ts, t.carried c = 0) : Flow c m st old ts
  /-- A call keeps what it carries. -/
  | keep {t t'}
      (h : Reads c st (m.store.ownHits c) (m.store.logTouches c) (m.store.inner.shards.dirtyOf c))
      (ht : t'.carried c = t.carried c) (hhit : t'.hit = none) : Flow c m st (some t) [t']
  /-- A resolve counts. -/
  | count {old} (h : Reads c st (m.store.ownHits c + 1) (m.store.logTouches c)
        (m.store.inner.shards.dirtyOf c)) (hold : ∀ t ∈ old, t.carried c = 0) :
      Flow c m st old [.counted c]
  /-- A resolve adds to the pending hits. -/
  | mark (h : Reads c st (m.store.ownHits c) (m.store.logTouches c)
        (m.store.inner.shards.dirtyOf c + 1)) : Flow c m st (some (.counted c)) []
  /-- A flush drains the shard of the code. -/
  | drain {next ks lines lines'} (h : Reads c st (m.store.ownHits c) (m.store.logTouches c) 0)
      (hlines : touches c lines' = touches c lines ++ m.store.pending c) :
      Flow c m st (some (.flushing next (shardOf c :: ks) lines)) [.flushing next ks lines']
  /-- A flush pushes its lines. -/
  | write {next lines ts} (h : Reads c st (m.store.ownHits c)
        (m.store.logTouches c ++ touches c lines) (m.store.inner.shards.dirtyOf c))
      (hts : ∀ t ∈ ts, t.carried c = 0) : Flow c m st (some (.flushing next [] lines)) ts
  /-- A mutation pushes its lines. -/
  | push {id now exp full} (h : Reads c st (m.store.ownHits c)
        (m.store.logTouches c ++ touches c (linesOf m.held id))
        (m.store.inner.shards.dirtyOf c)) : Flow c m st (some (.logging id [] now exp full)) []
  /-- A compaction truncates the log. -/
  | truncate (h : Reads c st (m.store.ownHits c) [] (m.store.inner.shards.dirtyOf c)) :
      Flow c m st (some .truncating) []

section Fires

variable {m : Machine} {l : Label} {old : Option Thread} {others : List Thread} {st : Store}
  {held : List Held} {ts : List Thread} {c : Bytes}

/-- A change of the index alone. -/
theorem reads_mapInner {st : Store} {f : Inner → Inner} (haof : (f st.inner).aof = st.inner.aof)
    (hinst : (f st.inner).inst = st.inner.inst) {own dirty : Int64}
    (hown : (((f st.inner).find c).map Entry.oh).getD 0 = own)
    (hdirty : (f st.inner).shards.dirtyOf c = dirty) :
    Reads c (st.mapInner f) own (st.logTouches c) dirty := by
  refine ⟨hown, ?_, hdirty⟩
  rw [Store.logTouches, Store.log, Store.buf, Store.mapInner, haof, hinst]
  rfl

/-- Replacing or creating an entry. -/
theorem reads_put {st : Store} {code : Bytes} {e : Entry} (he : e.oh = st.ownHits code) :
    Reads c (st.mapInner (·.put code e)) (st.ownHits c) (st.logTouches c)
      (st.inner.shards.dirtyOf c) := by
  refine reads_mapInner rfl rfl ?_ (Shards.dirtyOf_put ..)
  rw [Inner.find_put]
  split_ifs with hc
  · rw [hc]
    exact he
  · rfl

/-- Following siblings that do not exist. -/
theorem reads_onlyTail {st : Store} {f : Inner → Inner} (h : OnlyTail st.inner (f st.inner)) :
    Reads c (st.mapInner f) (st.ownHits c) (st.logTouches c) (st.inner.shards.dirtyOf c) := by
  refine reads_mapInner h.aof h.inst ?_ (by rw [h.shards])
  rw [Inner.find, h.shards]
  rfl

/-- Pushing to the log, with or without a flush. -/
theorem reads_pushRaw {st : Store} (ht : Tidy st) (b : Bytes) :
    Reads c (st.pushRaw b) (st.ownHits c) (st.logTouches c ++ touches c b)
      (st.inner.shards.dirtyOf c) := ⟨rfl, ht.logTouches_pushRaw b c, rfl⟩

theorem reads_flushAof {st : Store} (ht : Tidy st) {own dirty : Int64} {log : List (Touch Int64)}
    (h : Reads c st own log dirty) : Reads c st.flushAof own log dirty := by
  obtain ⟨rfl, rfl, rfl⟩ := h
  have hshards : st.flushAof.inner.shards = st.inner.shards := Store.shards_flushAof st
  refine ⟨?_, ht.logTouches_flushAof c, by rw [hshards]⟩
  rw [Store.ownHits, Inner.find, hshards]
  rfl

theorem reads_flushIfFull {st : Store} (ht : Tidy st) {own dirty : Int64}
    {log : List (Touch Int64)} (h : Reads c st own log dirty) :
    Reads c st.flushIfFull own log dirty := by
  rcases ht.flushIfFull_cases with heq | heq
  · rw [heq]
    exact reads_flushAof ht h
  · rwa [heq]

theorem reads_truncateAof {st : Store} (ht : Tidy st) :
    Reads c st.truncateAof (st.ownHits c) [] (st.inner.shards.dirtyOf c) := by
  have hshards : st.truncateAof.inner.shards = st.inner.shards := Store.shards_truncateAof st
  refine ⟨?_, ht.logTouches_truncateAof c, by rw [hshards]⟩
  rw [Store.ownHits, Inner.find, hshards]
  rfl

theorem reads_writeTmp {st : Store} (b : Bytes) :
    Reads c (st.writeTmp b) (st.ownHits c) (st.logTouches c) (st.inner.shards.dirtyOf c) := by
  refine ⟨rfl, ?_, rfl⟩
  rw [Store.logTouches, Store.log_writeTmp]
  rfl

theorem reads_renameTmp {st : Store} :
    Reads c st.renameTmp (st.ownHits c) (st.logTouches c) (st.inner.shards.dirtyOf c) := by
  refine ⟨rfl, ?_, rfl⟩
  rw [Store.logTouches, Store.log_renameTmp]
  rfl

/-- A drain takes the pending hits of one shard. -/
theorem reads_drainShard (st : Store) (k : Fin NUM_SHARDS) :
    Reads c (st.drainShard k) (st.ownHits c) (st.logTouches c)
      (if shardOf c = k then 0 else st.inner.shards.dirtyOf c) := by
  refine reads_mapInner rfl rfl ?_ (Shards.dirtyOf_drain ..)
  rw [Inner.find, Shards.find_drain]
  rfl

theorem ownHits_of_find_eq_none {st : Store} {code : Bytes} (h : st.inner.find code = none) :
    st.ownHits code = 0 := by
  rw [Store.ownHits, h]
  rfl

theorem ownHits_of_find_eq_some {st : Store} {code : Bytes} {e : Entry}
    (h : st.inner.find code = some e) : st.ownHits code = e.oh := by
  rw [Store.ownHits, h]
  rfl

/-- **Every section moves the hits of a code in one of these ways**, unless it removes the code. -/
theorem flow_of_fires (hm : m.Ok) (hold : ∀ t ∈ old, t.Ok m.store.inner.inst)
    (hdel : l ≠ .remove c) (hf : m.Fires l old others (st, held, ts)) : Flow c m st old ts := by
  have ht := hm.solo.toTidy
  have hself := reads_self c m.store
  have hnone : ∀ t ∈ (none : Option Thread), t.carried c = 0 := by simp
  have hzero : ∀ {t : Thread}, t.carried c = 0 → ∀ t' ∈ some t, t'.carried c = 0 := by
    intro t h t' ht'
    rwa [← Option.some.inj (Option.mem_def.mp ht')]
  have hone : ∀ {t : Thread}, t.carried c = 0 → ∀ t' ∈ [t], t'.carried c = 0 := by
    intro t h t' ht'
    rwa [List.mem_singleton.mp ht']
  have hnil : ∀ t ∈ ([] : List Thread), t.carried c = 0 := by simp
  cases hf with
  | skip => exact .quiet hself hnone hnil
  | create url now exp _ hfree =>
    exact .quiet (reads_put (ownHits_of_find_eq_none hfree).symm) hnone (hone rfl)
  | createMany => exact .quiet hself hnone (hone rfl)
  | createNext hfree =>
    exact .quiet (reads_put (ownHits_of_find_eq_none hfree).symm) (hzero rfl) (hone rfl)
  | update _ hok =>
    obtain ⟨e, exp, hfind, -, rfl, -⟩ := Store.updateIndex_eq_ok hok
    exact .quiet (reads_put (ownHits_of_find_eq_some hfind).symm) hnone (hone rfl)
  | @remove _ code _ _ _ hok =>
    obtain ⟨e, hfind, -, rfl, -⟩ := Store.removeIndex_eq_ok hok
    have hne : c ≠ code := fun h ↦ hdel (by rw [h])
    refine .quiet (reads_mapInner rfl rfl ?_ (Shards.dirtyOf_erase ..)) hnone (hone rfl)
    rw [Inner.find_erase, if_neg hne]
    rfl
  | push id =>
    refine .push ?_
    split_ifs
    · exact reads_flushIfFull (ht.pushRaw (isLog_linesOf hm.held id)) (reads_pushRaw ht _)
    · exact reads_pushRaw ht _
  | @count _ _ _ code e hwho hfind =>
    have hcarry : ∀ t ∈ old, t.carried c = 0 := by
      rcases hwho with ⟨rfl, -⟩ | rfl
      · exact hnone
      · exact hzero rfl
    have hdirty : (m.store.inner.put code (Store.bumped e)).shards.dirtyOf c
        = m.store.inner.shards.dirtyOf c := Shards.dirtyOf_put ..
    by_cases hc : code = c
    · subst hc
      refine .count (reads_mapInner rfl rfl ?_ hdirty) hcarry
      rw [Inner.find_put, if_pos rfl, ownHits_of_find_eq_some hfind]
      rfl
    · refine .quiet (reads_mapInner rfl rfl ?_ hdirty) hcarry (hone (if_neg hc))
      rw [Inner.find_put, if_neg (Ne.symm hc)]
      rfl
  | miss => exact .quiet hself hnone (hone rfl)
  | readTails clk ord =>
    exact .quiet (reads_onlyTail (hm.solo.onlyTail_tailMissed ord _ clk)) (hzero rfl) (hone rfl)
  | giveUp => exact .quiet hself (hzero rfl) hnil
  | @markDirty _ _ code =>
    have hown : ((Inner.find { m.store.inner with
        shards := m.store.inner.shards.addDirty code } c).map Entry.oh).getD 0
          = m.store.ownHits c := by
      rw [Inner.find, Shards.find_addDirty]
      rfl
    by_cases hc : code = c
    · subst hc
      refine .mark (reads_mapInner rfl rfl hown ?_)
      rw [Shards.dirtyOf_addDirty, if_pos rfl]
    · refine .quiet (reads_mapInner rfl rfl hown ?_) (hzero (if_neg hc)) hnil
      rw [Shards.dirtyOf_addDirty, if_neg (Ne.symm hc)]
  | pollTails ord now =>
    refine .quiet ?_ hnone hnil
    rw [Store.pollTails]
    split_ifs
    · exact hself
    · exact reads_onlyTail (hm.solo.onlyTail_pollLocked ord now)
  | flush => exact .quiet hself hnone (hone rfl)
  | compact => exact .quiet hself hnone (hone rfl)
  | @drain _ next k ks lines _ ord =>
    have hlines : touches c (lines ++ m.store.shardHits ord k)
        = touches c lines ++ if shardOf c = k then m.store.pending c else [] := by
      rw [touches_append c (show IsLog m.store.inner.inst lines from hold _ rfl),
        ht.touches_shardHits]
    have hreads := reads_drainShard (c := c) m.store k
    by_cases hk : shardOf c = k
    · subst hk
      rw [if_pos rfl] at hlines hreads
      exact .drain hreads hlines
    · rw [if_neg hk] at hlines hreads
      refine .keep hreads ?_ rfl
      rw [Thread.carried, hlines, List.append_nil, Thread.carried]
  | write =>
    refine .write (reads_flushAof (ht.pushRaw (hold _ rfl)) (reads_pushRaw ht _)) ?_
    split_ifs
    · exact hone rfl
    · exact hnil
  | fopen => exact .quiet (reads_writeTmp _) (hzero rfl) (hone rfl)
  | fopenFailed => exact .quiet hself (hzero rfl) (hone rfl)
  | snapshot => exact .quiet (reads_writeTmp _) (hzero rfl) (hone rfl)
  | fclose => exact .quiet (reads_writeTmp _) (hzero rfl) (hone rfl)
  | rename => exact .quiet reads_renameTmp (hzero rfl) (hone rfl)
  | renameFailed => exact .quiet hself (hzero rfl) (hone rfl)
  | truncate => exact .truncate (reads_truncateAof ht)

/-- A step of a call that does not hold the gate alone. -/
theorem flow_step {m' : Machine} (hm : m.Ok) (hdel : l ≠ .remove c) (h : m.step l = some m') :
    ∃ l₁ l₂ ts, m.calls = l₁ ++ (m.acting l).toList ++ l₂ ∧ m'.calls = l₁ ++ ts ++ l₂ ∧
      m'.resolved = ts.filterMap Thread.hit ++ m.resolved ∧ Flow c m m'.store (m.acting l) ts := by
  obtain ⟨l₁, l₂, ts, hcalls, hcalls', hres, hf⟩ := step_eq_some h
  refine ⟨l₁, l₂, ts, hcalls, hcalls', hres, flow_of_fires hm (fun t ht ↦ ?_) hdel hf⟩
  exact hm.threads t ((hm.split hcalls).1 t ht)

end Fires

/-! ## Conservation -/

/-- The hits in the log and the buffer, and those pending. -/
theorem places_eq (m : Machine) (c : Bytes) : m.places c = added (m.store.logTouches c)
    + (m.calls.map (Thread.carried c)).sum + m.store.inner.shards.dirtyOf c := by
  rw [places, Store.logTouches, added_append]

/-- **One step loses no hit and doubles none.** -/
theorem places_step {m m' : Machine} {l : Label} {c : Bytes} (hm : m.Ok) (hfree : m.locked = false)
    (hdel : l ≠ .remove c) (h : m.step l = some m') :
    m'.store.ownHits c + m.places c = m.store.ownHits c + m'.places c := by
  obtain ⟨l₁, l₂, ts, hcalls, hcalls', -, hflow⟩ := flow_step hm hdel h
  have hexcl : ∀ t ∈ m.acting l, t.exclusive = false := by
    intro t ht
    simpa using List.any_eq_false.mp hfree t ((hm.split hcalls).1 t ht)
  rw [places_eq, places_eq, hcalls, hcalls']
  simp only [List.map_append, List.sum_append]
  generalize m.acting l = old at hexcl hflow
  have hzero : ∀ {ts : List Thread}, (∀ t ∈ ts, t.carried c = 0) →
      (ts.map (Thread.carried c)).sum = 0 := by
    intro ts hts
    refine List.sum_eq_zero fun x hx ↦ ?_
    obtain ⟨t, ht, rfl⟩ := List.mem_map.mp hx
    exact hts t ht
  have hzero' : ∀ {old : Option Thread}, (∀ t ∈ old, t.carried c = 0) →
      (old.toList.map (Thread.carried c)).sum = 0 :=
    fun hold ↦ hzero fun t ht ↦ hold t (Option.mem_toList.mp ht)
  cases hflow with
  | quiet h hold hts => rw [h.own, h.log, h.dirty, hzero' hold, hzero hts]
  | keep h ht _ => simp [h.own, h.log, h.dirty, ht]
  | count h hold =>
    rw [h.own, h.log, h.dirty, hzero' hold]
    simp only [List.map_cons, List.map_nil, List.sum_cons, List.sum_nil, Thread.carried, if_true]
    abel
  | mark h =>
    rw [h.own, h.log, h.dirty]
    simp only [Option.toList_some, List.map_cons, List.map_nil, List.sum_cons, List.sum_nil,
      Thread.carried, if_true]
    abel
  | drain h hlines =>
    rw [h.own, h.log, h.dirty]
    simp only [Option.toList_some, List.map_cons, List.map_nil, List.sum_cons, List.sum_nil,
      Thread.carried, hlines, added_append, Store.added_pending]
    abel
  | write h hts =>
    rw [h.own, h.log, h.dirty, hzero hts]
    simp only [Option.toList_some, List.map_cons, List.map_nil, List.sum_cons, List.sum_nil,
      Thread.carried, added_append]
    abel
  | push h =>
    rw [h.own, h.log, h.dirty, added_append, added_touches_linesOf hm.held]
    simp only [Option.toList_some, List.map_cons, List.map_nil, List.sum_cons, List.sum_nil,
      Thread.carried]
    abel
  | truncate => exact absurd (hexcl _ rfl) (by simp [Thread.exclusive])

/-- A call that does not hold the gate alone goes on without it. -/
theorem not_exclusive_of_fires {m : Machine} {l : Label} {old : Option Thread}
    {others : List Thread} {r : Outcome} (hold : ∀ t ∈ old, t.exclusive = false)
    (hl : l ≠ .compact) (hf : m.Fires l old others r) : ∀ t ∈ r.2.2, t.exclusive = false := by
  have hone : ∀ {t : Thread}, t.exclusive = false → ∀ t' ∈ [t], t'.exclusive = false := by
    intro t h t' ht'
    rwa [List.mem_singleton.mp ht']
  cases hf with
  | skip | push | giveUp | markDirty | pollTails | truncate => exact fun t ht ↦ nomatch ht
  | create | createMany | createNext | update | remove | count | miss | readTails | flush =>
    exact hone rfl
  | compact => exact absurd rfl hl
  | @drain _ next k ks lines =>
    have hnext : next = false := hold (.flushing next (k :: ks) lines) rfl
    exact hone hnext
  | @write _ next lines =>
    have hnext : next = false := hold (.flushing next [] lines) rfl
    rw [hnext]
    exact fun t ht ↦ nomatch ht
  | fopen | fopenFailed | snapshot | fclose | rename | renameFailed =>
    exact absurd (hold _ rfl) (by simp [Thread.exclusive])

/-- While no compaction is under way and none starts, none is. -/
theorem locked_step {m m' : Machine} {l : Label} (hfree : m.locked = false) (hl : l ≠ .compact)
    (h : m.step l = some m') : m'.locked = false := by
  obtain ⟨l₁, l₂, ts, hcalls, hcalls', -, hf⟩ := step_eq_some h
  have hmem : ∀ t ∈ (m.acting l).toList ++ (l₁ ++ l₂), t.exclusive = false := by
    intro t ht
    rw [← mem_splice, ← hcalls] at ht
    simpa using List.any_eq_false.mp hfree t ht
  refine List.any_eq_false.mpr fun t ht ↦ ?_
  rw [hcalls', mem_splice] at ht
  rw [Bool.not_eq_true]
  rcases List.mem_append.mp ht with ht | ht
  · refine not_exclusive_of_fires (fun t' ht' ↦ hmem t' ?_) hl hf t ht
    exact List.mem_append_left _ (Option.mem_toList.mpr ht')
  · exact hmem t (List.mem_append_right _ ht)

/-- A flush of a store with no call in flight leaves all hits in the log. -/
theorem added_log_flushLocked {m : Machine} (hm : m.Ok) (hdone : m.calls = []) (ord : Order)
    (c : Bytes) : added (touches c (m.store.flushLocked ord).log) = m.places c := by
  have hflushed := hm.solo.toTidy.flushed ord
  have htouches := hflushed.touches c
  rw [Store.logTouches, hflushed.buf, touches_nil, List.append_nil] at htouches
  rw [htouches, added_append, Store.added_pending, places_eq, hdone]
  simp

/-- **No hit is lost or doubled on the way to the log.** Take any state of a store with calls in
flight and no compaction under way, and let any number of calls interleave from there, among them no
compaction and no removal of the code. What the entry's own counter has grown by is what the places
between the entry and the log file have grown by: the hit lines in the log, those in its buffer,
those in the hands of unfinished flushes, the pending hits, and the resolves between their two
sections. So once all calls have returned, a flush leaves in the log what was on its way at the
start and exactly the increase of the counter. -/
theorem ownHits_sub_ownHits {inst : InstanceId} {calls : List Call} {st : Store} {n : ℕ}
    (hst : run Call.run (openEmpty inst) calls = some st) {ls₀ ls : List Label} {m₀ m : Machine}
    (h₀ : run step (idle st n) ls₀ = some m₀) (hfree : m₀.locked = false)
    (h : run step m₀ ls = some m) {c : Bytes} (hls : ∀ l ∈ ls, l ≠ .compact ∧ l ≠ .remove c) :
    m.store.ownHits c - m₀.store.ownHits c = m.places c - m₀.places c ∧
      (m.calls = [] → ∀ ord, added (touches c (m.store.flushLocked ord).log) - m₀.places c
        = m.store.ownHits c - m₀.store.ownHits c) := by
  have hm₀ : m₀.Ok := ok_run (ok_idle (solo_run hst) n) h₀
  have hinv : m.Ok ∧ m.locked = false ∧
      m.store.ownHits c + m₀.places c = m₀.store.ownHits c + m.places c := by
    refine Transition.run_invariant (P := fun m : Machine ↦ m.Ok ∧ m.locked = false ∧
      m.store.ownHits c + m₀.places c = m₀.store.ownHits c + m.places c) ?_ ⟨hm₀, hfree, rfl⟩
      (Transition.meets_of_forall hls m₀) h
    rintro m l m' ⟨hm, hfree, heq⟩ ⟨hcompact, hremove⟩ hstep
    refine ⟨ok_step hm hstep, locked_step hfree hcompact hstep, ?_⟩
    have hone := places_step hm hfree hremove hstep
    -- Both equations say how far counter and places have moved.
    have hsum : _ + _ = _ + _ := congrArg₂ (· + ·) heq hone
    have hcancel : m.store.ownHits c + m.places c + (m'.store.ownHits c + m₀.places c)
        = m.store.ownHits c + m.places c + (m₀.store.ownHits c + m'.places c) := by
      rw [← sub_eq_zero] at hsum ⊢
      rw [← hsum]
      abel
    exact add_left_cancel hcancel
  obtain ⟨hm, -, heq⟩ := hinv
  have hdiff : m.store.ownHits c - m₀.store.ownHits c = m.places c - m₀.places c := by
    rw [sub_eq_sub_iff_add_eq_add, heq, add_comm]
  refine ⟨hdiff, fun hdone ord ↦ ?_⟩
  rw [hdiff, added_log_flushLocked hm hdone]

/-- Two resolves of `a` whose sections interleave. -/
def twoHits : List Label :=
  [.resolve (lit "a") {}, .resolve (lit "a") {}, .advance 1 {}, .advance 0 {}]

theorem ownHits_sub_ownHits_twoHits : ∃ st, run Call.run (openEmpty 0) oneLink = some st ∧
    ∃ m, run step (idle st 0) twoHits = some m ∧ m.calls = [] ∧
      m.store.ownHits (lit "a") - st.ownHits (lit "a") = 2 ∧
      added (touches (lit "a") (m.store.flushLocked fun _ ↦ 0).log)
        - (idle st 0).places (lit "a") = 2 := by
  obtain ⟨st, hst, m, hm, hdone, htwo⟩ :
      ∃ st, run Call.run (openEmpty 0) oneLink = some st ∧
      ∃ m, run step (idle st 0) twoHits = some m ∧ m.calls.isEmpty = true ∧
        m.store.ownHits (lit "a") - st.ownHits (lit "a") = 2 := by
    decide +kernel
  have hcalls : m.calls = [] := List.isEmpty_iff.mp hdone
  have hls : ∀ l ∈ twoHits, l ≠ .compact ∧ l ≠ .remove (lit "a") := by simp [twoHits]
  obtain ⟨-, hlog⟩ := ownHits_sub_ownHits hst (Transition.run_nil (idle st 0)) rfl hm hls
  exact ⟨st, hst, m, hm, hcalls, htwo, (hlog hcalls _).trans htwo⟩

end Machine

end Shrt
