import Shrt.Lib.Transition
import Shrt.Store.Own

/-!
# Calls in flight

The calls of the store interleave. Each of them is a sequence of critical sections: a shard lock
around the index, another around the pending hits, the mutex around the log. `Machine` runs any
number of calls at once, one critical section a step, in any order the scheduler picks.

A call that has changed the index and not yet the log holds the lines it will push. The machine
keeps them in one list, in the order of the index changes, tagged with the call they belong to: the
order is what a replay would need, and nothing makes the calls push in it.

The gate is a guard on the labels. Mutations and flushes hold it shared from their first section to
their last and a compaction holds it alone; a resolve does not take it.
-/

namespace Shrt

open Store (CompactIo allShards)

/-- A line that a call will push to the log. -/
structure Held where
  /-- The call. -/
  id : ℕ
  /-- The code the line is about. -/
  code : Bytes
  /-- The line. -/
  line : Bytes
  deriving DecidableEq

/-- Where a call is between two of its critical sections. -/
inductive Thread where
  /-- A mutation with urls still to bind, none for all but `shorten_many`, and then its lines to
  push. `full` says whether it flushes a buffer that has grown too large. -/
  | logging (id : ℕ) (urls : List Bytes) (now exp : Int64) (full : Bool)
  /-- A resolve that found nothing and is about to read the tails. -/
  | missed (code : Bytes)
  /-- A resolve that has read the tails and is about to look again. -/
  | retrying (code : Bytes)
  /-- A resolve that has bumped the counters of the entry and not the pending hits. -/
  | counted (code : Bytes)
  /-- `flush_locked`, with the shards still to drain and the lines of the others; `next` says
  whether it was called by `compact`. -/
  | flushing (next : Bool) (todo : List (Fin NUM_SHARDS)) (lines : Bytes)
  /-- A compaction that is about to open the scratch file. -/
  | opening
  /-- A compaction with the shards still to walk and the text of the others. -/
  | snapshotting (todo : List (Fin NUM_SHARDS)) (text : Bytes)
  /-- A compaction that has closed the scratch file. -/
  | publishing
  /-- A compaction that is about to truncate the log. -/
  | truncating

namespace Thread

/-- The calls that hold the gate alone. -/
def exclusive : Thread → Bool
  | flushing next _ _ => next
  | opening | snapshotting _ _ | publishing | truncating => true
  | _ => false

/-- The calls that hold the gate, shared or alone. -/
def gated : Thread → Bool
  | logging .. | flushing .. | opening | snapshotting _ _ | publishing | truncating => true
  | _ => false

/-- The hit a call has just counted on the entry. -/
def hit : Thread → Option Bytes
  | counted code => some code
  | _ => none

end Thread

/-- A store with calls in flight. -/
structure Machine where
  /-- Files and memory. -/
  store : Store
  /-- The id of the next mutation. -/
  next : ℕ := 0
  /-- Lines not pushed yet, in the order of the index changes. -/
  held : List Held := []
  /-- The calls. -/
  calls : List Thread := []
  /-- The codes of the hits counted so far; no step reads this. -/
  resolved : List Bytes := []

/-- What a critical section reads from outside. -/
structure Env where
  /-- The clock. -/
  clk : Clock := fun _ ↦ 0
  /-- Whether hits are tracked. -/
  track : Bool := true
  /-- The order of hash map walks. -/
  ord : Order := fun _ ↦ 0
  /-- Words of the random generator. -/
  rng : List Draw := []
  /-- What becomes of a compaction's file operations. -/
  io : CompactIo := {}
  /-- How much of the scratch file's text has left the process so far. -/
  wrote : ℕ := 0

/-- A scheduling step: a call starts with its first critical section, or one goes on. -/
inductive Label where
  | shorten (url : Bytes) (al : Option Code) (ttl : Int64) (env : Env)
  | shortenMany (urls : List Bytes) (ttl : Int64) (env : Env)
  | resolve (code : Bytes) (env : Env)
  | update (code url : Bytes) (ttl : Int64) (hasTtl : Bool) (env : Env)
  | remove (code : Bytes)
  | flush
  | pollTails (env : Env)
  | compact
  | advance (n : ℕ) (env : Env)

namespace Machine

/-- A store with no call in flight. -/
def idle (st : Store) (next : ℕ) : Machine := { store := st, next }

/-- Whether a compaction holds the gate. -/
def locked (m : Machine) : Bool := m.calls.any Thread.exclusive

/-- The result of a section: the store, the held lines, and what the call goes on as. -/
abbrev Outcome := Store × List Held × List Thread

/-- The lines a call holds, as bytes. -/
def linesOf (held : List Held) (id : ℕ) : Bytes :=
  Framing.frame NL ((held.filter fun h ↦ h.id = id).map Held.line)

/-- Bind a code and hold its row. -/
def bindHeld (m : Machine) (id : ℕ) (code url : Bytes) (now exp : Int64) (urls : List Bytes)
    (full : Bool) : Outcome :=
  (m.store.bind code url now exp, m.held ++ [⟨id, code, m.store.rowFor code url now exp⟩],
    [.logging id urls now exp full])

/-- What a resolve goes on as after a lookup that found something to count. -/
def afterLookup (track : Bool) (code : Bytes) : List Thread :=
  if track then [.counted code] else []

/-- The first critical section of a call; `none` while the gate keeps it out. -/
def start (m : Machine) : Label → Option Outcome
  | .shorten url al ttl env =>
    if m.locked then none
    else (m.store.pickCode (al.map Subtype.val) env.rng).map fun
      | none => (m.store, m.held, [])
      | some code => m.bindHeld m.next code url (env.clk 0) (expiry (env.clk 0) ttl) [] true
  | .shortenMany urls ttl env =>
    if m.locked then none
    else some (m.store, m.held, [.logging m.next urls (env.clk 0) (expiry (env.clk 0) ttl) true])
  | .resolve code env =>
    match m.store.lookup code (env.clk 0) env.track with
    | (st, .url _) => some (st, m.held, afterLookup env.track code)
    | (st, .expired) => some (st, m.held, [])
    | (st, .absent) => some (st, m.held, if st.inner.aof.isNone then [] else [.missed code])
  | .update code url ttl hasTtl env =>
    if m.locked then none
    else match m.store.updateIndex code url ttl hasTtl (env.clk 0) with
      | .ok (st, line) => some (st, m.held ++ [⟨m.next, code, line⟩], [.logging m.next [] 0 0 false])
      | .error _ => some (m.store, m.held, [])
  | .remove code =>
    if m.locked then none
    else match m.store.removeIndex code with
      | .ok (st, line) => some (st, m.held ++ [⟨m.next, code, line⟩], [.logging m.next [] 0 0 false])
      | .error _ => some (m.store, m.held, [])
  | .flush =>
    if m.locked then none
    else some (m.store, m.held,
      if m.store.inner.aof.isNone then [] else [.flushing false allShards []])
  | .pollTails env => some (m.store.pollTails env.ord (env.clk 0), m.held, [])
  | .compact =>
    if m.calls.any Thread.gated then none
    else some (m.store, m.held,
      if m.store.inner.aof.isNone then [] else [.flushing true allShards []])
  | .advance .. => none

/-- The next critical section of a call. -/
def resume (m : Machine) (env : Env) : Thread → Option Outcome
  | .logging id [] _ _ full =>
    let st := m.store.pushRaw (linesOf m.held id)
    some (if full then st.flushIfFull else st, m.held.filter fun h ↦ h.id ≠ id, [])
  | .logging id (u :: us) now exp full =>
    (freshCode m.store.inner.shards m.store.inner.inst env.rng).map fun p ↦
      m.bindHeld id p.1 u now exp us full
  | .missed code => some (m.store.readTails code env.clk env.ord, m.held, [.retrying code])
  | .retrying code =>
    match m.store.lookup code (env.clk 3) env.track with
    | (st, .url _) => some (st, m.held, afterLookup env.track code)
    | (st, _) => some (st, m.held, [])
  | .counted code => some (m.store.markDirty code, m.held, [])
  | .flushing next [] lines =>
    some ((m.store.pushRaw lines).flushAof, m.held, if next then [.opening] else [])
  | .flushing next (k :: ks) lines =>
    some (m.store.drainShard k, m.held,
      [.flushing next ks (lines ++ m.store.shardHits env.ord k)])
  | .opening =>
    if env.io.fopen then some (m.store.writeTmp [], m.held, [.snapshotting allShards []])
    else some (m.store, m.held, [.truncating])
  | .snapshotting [] text => some (m.store.writeTmp (env.io.reached text), m.held, [.publishing])
  | .snapshotting (k :: ks) text =>
    let text := text ++ m.store.shardRowLines env.ord k
    some (m.store.writeTmp (text.take env.wrote), m.held, [.snapshotting ks text])
  | .publishing =>
    some (if env.io.renamed then m.store.renameTmp else m.store, m.held, [.truncating])
  | .truncating => some (m.store.truncateAof, m.held, [])

/-- One scheduling step. -/
def step (m : Machine) (l : Label) : Option Machine :=
  match l with
  | .advance n env => (m.calls[n]?).bind fun t ↦ (m.resume env t).map fun r ↦
      { store := r.1, next := m.next, held := r.2.1,
        calls := m.calls.take n ++ r.2.2 ++ m.calls.drop (n + 1),
        resolved := r.2.2.filterMap Thread.hit ++ m.resolved }
  | l => (m.start l).map fun r ↦
      { store := r.1, next := m.next + 1, held := r.2.1, calls := m.calls ++ r.2.2,
        resolved := r.2.2.filterMap Thread.hit ++ m.resolved }

/-! ## What a step can do -/

/-- The call that a step goes on with, if it is not a new one. -/
def acting (m : Machine) : Label → Option Thread
  | .advance n _ => m.calls[n]?
  | _ => none

/-- The sections a machine can go through, with the call they belong to, the other calls, and the
outcome. This is `start` and `resume` read as a relation, with the guards as hypotheses. -/
inductive Fires (m : Machine) : Label → Option Thread → List Thread → Outcome → Prop
  /-- A call that ends in its first section without an effect. -/
  | skip {l others} : Fires m l none others (m.store, m.held, [])
  /-- `shorten`. -/
  | create {l others code} (url : Bytes) (now exp : Int64)
      (hgate : others.any Thread.exclusive = false) (hfree : m.store.inner.find code = none)
      (hcode : codeOk code = true) :
      Fires m l none others (m.bindHeld m.next code url now exp [] true)
  /-- `shorten_many` begins. -/
  | createMany {l others} (urls : List Bytes) (now exp : Int64)
      (hgate : others.any Thread.exclusive = false) :
      Fires m l none others (m.store, m.held, [.logging m.next urls now exp true])
  /-- `shorten_many` binds one url. -/
  | createNext {l id url urls now exp full others code} (hfree : m.store.inner.find code = none)
      (hcode : codeOk code = true) :
      Fires m l (some (.logging id (url :: urls) now exp full)) others
        (m.bindHeld id code url now exp urls full)
  /-- `update`. -/
  | update {others code url ttl hasTtl env st line}
      (hgate : others.any Thread.exclusive = false)
      (hok : m.store.updateIndex code url ttl hasTtl (env.clk 0) = .ok (st, line)) :
      Fires m (.update code url ttl hasTtl env) none others
        (st, m.held ++ [⟨m.next, code, line⟩], [.logging m.next [] 0 0 false])
  /-- `remove`. -/
  | remove {others code st line} (hgate : others.any Thread.exclusive = false)
      (hok : m.store.removeIndex code = .ok (st, line)) :
      Fires m (.remove code) none others
        (st, m.held ++ [⟨m.next, code, line⟩], [.logging m.next [] 0 0 false])
  /-- A mutation pushes its lines. -/
  | push {l now exp full others} (id : ℕ) :
      Fires m l (some (.logging id [] now exp full)) others
        (if full then (m.store.pushRaw (linesOf m.held id)).flushIfFull
          else m.store.pushRaw (linesOf m.held id), m.held.filter fun h ↦ h.id ≠ id, [])
  /-- A resolve counts a hit on the entry, at the first look or at the second. -/
  | count {l old others code e} (hold : old = none ∧ (∃ env, l = .resolve code env) ∨
        old = some (.retrying code)) (hfind : m.store.inner.find code = some e) :
      Fires m l old others (m.store.mapInner (·.put code (Store.bumped e)), m.held,
        [.counted code])
  /-- A resolve misses. -/
  | miss {l others code} : Fires m l none others (m.store, m.held, [.missed code])
  /-- A resolve reads the tails. -/
  | readTails {l others code} (clk : Clock) (ord : Order) :
      Fires m l (some (.missed code)) others
        (m.store.readTails code clk ord, m.held, [.retrying code])
  /-- A resolve ends without counting. -/
  | giveUp {l others code} : Fires m l (some (.retrying code)) others (m.store, m.held, [])
  /-- A resolve adds to the pending hits. -/
  | markDirty {l others code} : Fires m l (some (.counted code)) others
      (m.store.markDirty code, m.held, [])
  /-- `poll_tails`. -/
  | pollTails {l others} (ord : Order) (now : Int64) : Fires m l none others
      (m.store.pollTails ord now, m.held, [])
  /-- `flush` begins. -/
  | flush {l others} (hgate : others.any Thread.exclusive = false) : Fires m l none others
      (m.store, m.held, [.flushing false allShards []])
  /-- `compact` begins. -/
  | compact {others} (hgate : others.any Thread.gated = false) : Fires m .compact none others
      (m.store, m.held, [.flushing true allShards []])
  /-- A flush drains one shard. -/
  | drain {l next k ks lines others} (ord : Order) :
      Fires m l (some (.flushing next (k :: ks) lines)) others
        (m.store.drainShard k, m.held, [.flushing next ks (lines ++ m.store.shardHits ord k)])
  /-- A flush pushes its lines and writes. -/
  | write {l next lines others} : Fires m l (some (.flushing next [] lines)) others
      ((m.store.pushRaw lines).flushAof, m.held, if next then [.opening] else [])
  /-- A compaction opens the scratch file. -/
  | fopen {l others} : Fires m l (some .opening) others
      (m.store.writeTmp [], m.held, [.snapshotting allShards []])
  /-- A compaction fails to open the scratch file. -/
  | fopenFailed {n env others} (hio : env.io.fopen = false) :
      Fires m (.advance n env) (some .opening) others (m.store, m.held, [.truncating])
  /-- A compaction walks one shard. -/
  | snapshot {l k ks text others} (ord : Order) (wrote : ℕ) :
      Fires m l (some (.snapshotting (k :: ks) text)) others
        (m.store.writeTmp ((text ++ m.store.shardRowLines ord k).take wrote), m.held,
          [.snapshotting ks (text ++ m.store.shardRowLines ord k)])
  /-- A compaction closes the scratch file. -/
  | fclose {n env text others} : Fires m (.advance n env) (some (.snapshotting [] text)) others
      (m.store.writeTmp (env.io.reached text), m.held, [.publishing])
  /-- A compaction renames the scratch file. -/
  | rename {l others} : Fires m l (some .publishing) others
      (m.store.renameTmp, m.held, [.truncating])
  /-- A compaction fails to rename the scratch file. -/
  | renameFailed {n env others} (hio : env.io.renamed = false) :
      Fires m (.advance n env) (some .publishing) others (m.store, m.held, [.truncating])
  /-- A compaction truncates the log. -/
  | truncate {l others} : Fires m l (some .truncating) others (m.store.truncateAof, m.held, [])

theorem fires_of_start {m : Machine} {l : Label} {r : Outcome} (h : m.start l = some r) :
    m.Fires l none m.calls r := by
  cases l with
  | shorten url al ttl env =>
    rw [start] at h
    split_ifs at h with hlock
    have hgate : m.calls.any Thread.exclusive = false := Bool.eq_false_iff.mpr hlock
    obtain ⟨pick, hpick, hr⟩ := Option.map_eq_some_iff.mp h
    cases pick with
    | none =>
      rw [← hr]
      exact .skip
    | some code =>
      obtain ⟨hfree, hcode⟩ := Store.pickCode_spec hpick
      rw [← hr]
      exact .create url _ _ hgate hfree hcode
  | shortenMany urls ttl env =>
    rw [start] at h
    split_ifs at h with hlock
    rw [← Option.some.inj h]
    exact .createMany urls _ _ (Bool.eq_false_iff.mpr hlock)
  | resolve code env =>
    rw [start] at h
    rcases m.store.lookup_cases code (env.clk 0) env.track with ⟨e, hf, ht, hl⟩ | ⟨f, hl, hu, -⟩
    · rw [hl] at h
      simp only [ht, afterLookup, if_true] at h
      rw [← Option.some.inj h]
      exact .count (.inl ⟨rfl, env, rfl⟩) hf
    · rw [hl] at h
      cases f with
      | url u =>
        cases ht : env.track with
        | true => exact absurd rfl (hu ht u)
        | false =>
          simp only [ht, afterLookup] at h
          rw [← Option.some.inj h]
          exact .skip
      | expired =>
        rw [← Option.some.inj h]
        exact .skip
      | absent =>
        simp only at h
        split_ifs at h
        · rw [← Option.some.inj h]
          exact .skip
        · rw [← Option.some.inj h]
          exact .miss
  | update code url ttl hasTtl env =>
    rw [start] at h
    split_ifs at h with hlock
    have hgate : m.calls.any Thread.exclusive = false := Bool.eq_false_iff.mpr hlock
    cases hok : m.store.updateIndex code url ttl hasTtl (env.clk 0) with
    | error e =>
      rw [hok] at h
      rw [← Option.some.inj h]
      exact .skip
    | ok p =>
      rw [hok] at h
      rw [← Option.some.inj h]
      exact .update hgate hok
  | remove code =>
    rw [start] at h
    split_ifs at h with hlock
    have hgate : m.calls.any Thread.exclusive = false := Bool.eq_false_iff.mpr hlock
    cases hok : m.store.removeIndex code with
    | error e =>
      rw [hok] at h
      rw [← Option.some.inj h]
      exact .skip
    | ok p =>
      rw [hok] at h
      rw [← Option.some.inj h]
      exact .remove hgate hok
  | flush =>
    rw [start] at h
    split_ifs at h with hlock haof
    · rw [← Option.some.inj h]
      exact .skip
    · rw [← Option.some.inj h]
      exact .flush (Bool.eq_false_iff.mpr hlock)
  | pollTails env =>
    rw [← Option.some.inj h]
    exact .pollTails _ _
  | compact =>
    rw [start] at h
    split_ifs at h with hlock haof
    · rw [← Option.some.inj h]
      exact .skip
    · rw [← Option.some.inj h]
      exact .compact (Bool.eq_false_iff.mpr hlock)
  | advance n env => exact absurd h (by simp [start])

theorem fires_of_resume {m : Machine} {n : ℕ} {env : Env} {t : Thread} {others : List Thread}
    {r : Outcome} (h : m.resume env t = some r) : m.Fires (.advance n env) (some t) others r := by
  cases t with
  | logging id urls now exp full =>
    cases urls with
    | nil =>
      rw [← Option.some.inj h]
      exact .push id
    | cons u us =>
      obtain ⟨⟨code, rng⟩, hfresh, rfl⟩ := Option.map_eq_some_iff.mp h
      obtain ⟨hfree, hcode⟩ := freshCode_spec hfresh
      exact .createNext hfree hcode
  | missed code =>
    rw [← Option.some.inj h]
    exact .readTails _ _
  | retrying code =>
    rw [resume] at h
    rcases m.store.lookup_cases code (env.clk 3) env.track with ⟨e, hf, ht, hl⟩ | ⟨f, hl, hu, -⟩
    · rw [hl] at h
      simp only [ht, afterLookup, if_true] at h
      rw [← Option.some.inj h]
      exact .count (.inr rfl) hf
    · rw [hl] at h
      cases f with
      | url u =>
        cases ht : env.track with
        | true => exact absurd rfl (hu ht u)
        | false =>
          simp only [ht, afterLookup] at h
          rw [← Option.some.inj h]
          exact .giveUp
      | expired =>
        rw [← Option.some.inj h]
        exact .giveUp
      | absent =>
        rw [← Option.some.inj h]
        exact .giveUp
  | counted code =>
    rw [← Option.some.inj h]
    exact .markDirty
  | flushing next todo lines =>
    cases todo with
    | nil =>
      rw [← Option.some.inj h]
      exact .write
    | cons k ks =>
      rw [← Option.some.inj h]
      exact .drain _
  | opening =>
    rw [resume] at h
    split_ifs at h with hio
    · rw [← Option.some.inj h]
      exact .fopen
    · rw [← Option.some.inj h]
      exact .fopenFailed (Bool.eq_false_iff.mpr hio)
  | snapshotting todo text =>
    cases todo with
    | nil =>
      rw [← Option.some.inj h]
      exact .fclose
    | cons k ks =>
      rw [← Option.some.inj h]
      exact .snapshot _ _
  | publishing =>
    rw [resume] at h
    split_ifs at h with hio
    · rw [← Option.some.inj h]
      exact .rename
    · rw [← Option.some.inj h]
      exact .renameFailed (Bool.eq_false_iff.mpr hio)
  | truncating =>
    rw [← Option.some.inj h]
    exact .truncate

/-- **What a step can do**: one call goes through one section and the others stay as they are. -/
theorem step_eq_some {m m' : Machine} {l : Label} (h : m.step l = some m') :
    ∃ l₁ l₂ ts, m.calls = l₁ ++ (m.acting l).toList ++ l₂ ∧ m'.calls = l₁ ++ ts ++ l₂ ∧
      m'.resolved = ts.filterMap Thread.hit ++ m.resolved ∧
      m.Fires l (m.acting l) (l₁ ++ l₂) (m'.store, m'.held, ts) := by
  unfold step at h
  split at h
  · rename_i n env
    obtain ⟨t, ht, h⟩ := Option.bind_eq_some_iff.mp h
    obtain ⟨r, hr, rfl⟩ := Option.map_eq_some_iff.mp h
    refine ⟨m.calls.take n, m.calls.drop (n + 1), r.2.2, ?_, rfl, rfl, ?_⟩
    · rw [acting, ht, Option.toList_some, List.append_assoc, List.singleton_append]
      obtain ⟨hn, rfl⟩ := List.getElem?_eq_some_iff.mp ht
      rw [← List.drop_eq_getElem_cons hn, List.take_append_drop]
    · rw [acting, ht]
      exact fires_of_resume hr
  · rename_i hadv
    obtain ⟨r, hr, rfl⟩ := Option.map_eq_some_iff.mp h
    have hact : m.acting l = none := by
      unfold acting
      split
      · exact absurd rfl (hadv _ _)
      · rfl
    refine ⟨m.calls, [], r.2.2, ?_, ?_, rfl, ?_⟩
    · rw [hact, Option.toList_none, List.append_nil, List.append_nil]
    · rw [List.append_nil]
    · rw [hact, List.append_nil]
      exact fires_of_start hr

end Machine

end Shrt
