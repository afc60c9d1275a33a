import Shrt.Store.Aof
import Shrt.Store.Index

/-!
# The in-process store

The operations of `Store` on the append-only backend, as functions of the shared directory and of
one instance's memory. What the source reads from outside is an argument here: the readings of the
clock during a call (`Clock`), the words of the random generator (`Draw`), the order of hash map
walks (`Order`), whether hits are tracked, and, in `compact`, what became of the file operations.

A retry loop that looks for a fresh code takes a finite list of draws and is undefined when they
run out, which is a call that has not returned.
-/

namespace Shrt

/-! ## State -/

/-- Hits seen for a code that has no entry yet. -/
structure StrayHit where
  /-- All of them. -/
  t : Int64 := 0
  /-- Those of this instance. -/
  o : Int64 := 0
  deriving DecidableEq

/-- What an instance keeps about its siblings. -/
structure Tail where
  /-- The sibling logs being followed, by file name. -/
  readers : AList fun _ : Bytes ↦ TailReader := ∅
  /-- Hits that arrived before their row. -/
  stray : AList fun _ : Bytes ↦ StrayHit := ∅
  /-- The time of the last poll. -/
  lastPoll : Int64 := 0

/-- The memory of one instance. The source's `prefix` and `own_name` are functions of the id. -/
structure Inner where
  /-- The index. -/
  shards : Shards := Shards.empty
  /-- Siblings. -/
  tail : Tail := {}
  /-- The own log; `none` for a store without persistence. -/
  aof : Option Aof := none
  /-- The instance id. -/
  inst : InstanceId := 0

/-- A store: the directory, and the memory of the instance it is seen from. -/
structure Store where
  /-- Files. -/
  dir : Dir
  /-- Memory. -/
  inner : Inner

/-- The successive readings of `now_ms` during one call. -/
abbrev Clock := ℕ → Int64

/-- The id as the `int` that entries carry. -/
def instInt (i : InstanceId) : Int32 := Int32.ofNat i

/-- The id as the `int64_t` that log lines carry. -/
def instLong (i : InstanceId) : Int64 := Int64.ofNat i

namespace Inner

/-- The entry of a code. -/
def find (s : Inner) (c : Bytes) : Option Entry := s.shards.find c

/-- Bind a code in the index. -/
def put (s : Inner) (c : Bytes) (e : Entry) : Inner := { s with shards := s.shards.put c e }

/-- Unbind a code. -/
def erase (s : Inner) (c : Bytes) : Inner := { s with shards := s.shards.erase c }

end Inner

/-! ## Folding log lines into the index -/

/-- The bound on parked hits. -/
def MAX_STRAY_HITS : ℕ := 10000

/-- Make room in the stray map: when it is full, the first binding goes. -/
def strayRoom (ord : Order) (m : AList fun _ : Bytes ↦ StrayHit) :
    AList fun _ : Bytes ↦ StrayHit :=
  if MAX_STRAY_HITS ≤ m.entries.length then
    match UnorderedMap.iterate ord m with
    | (c, _) :: _ => m.erase c
    | [] => m
  else m

/-- The tombstone branch of `apply`. -/
def applyDel (s : Inner) (c : Bytes) : Inner :=
  { s.erase c with tail := { s.tail with stray := s.tail.stray.erase c } }

/-- An entry with hits from a log line added; `own` says whether they are hits of this instance. -/
def Entry.addHits (e : Entry) (d : Int64) (own : Bool) : Entry :=
  { e with h := e.h + d, oh := if own then e.oh + d else e.oh }

/-- Parked hits with those of a log line added. -/
def StrayHit.addHits (st : StrayHit) (d : Int64) (own : Bool) : StrayHit :=
  { t := st.t + d, o := if own then st.o + d else st.o }

/-- The hit branch of `apply`: count on the entry, or park the hits until the row arrives. -/
def applyHit (ord : Order) (s : Inner) (c : Bytes) (d : Int64) (own : Bool) : Inner :=
  match s.find c with
  | some e => s.put c (e.addHits d own)
  | none =>
    let m := strayRoom ord s.tail.stray
    { s with tail := { s.tail with
      stray := m.insert c (((m.lookup c).getD {}).addHits d own) } }

/-- The entry a row makes, on top of the parked hits. -/
def Op.entry (o : Op) (st : StrayHit) : Entry :=
  { u := o.u, a := o.a, e := if o.hasE then o.e else 0, i := o.i.toInt32,
    h := o.n + st.t, oh := o.n + st.o }

/-- The row branch of `apply`: the row replaces the entry and takes the parked hits. -/
def applyRow (s : Inner) (o : Op) : Inner :=
  { s.put o.c (o.entry ((s.tail.stray.lookup o.c).getD {})) with
    tail := { s.tail with stray := s.tail.stray.erase o.c } }

/-- `apply`: fold one parsed log line into the index. -/
def apply (ord : Order) (s : Inner) (o : Op) : Inner :=
  if o.x ≠ [] then applyDel s o.x
  else if o.h ≠ [] then applyHit ord s o.h o.d (instInt s.inst = o.i.toInt32)
  else if o.c = [] then s
  else applyRow s o

/-- `apply_line`. -/
def applyLine (ord : Order) (s : Inner) (line : Bytes) : Inner :=
  match parseOp line with
  | some o => apply ord s o
  | none => s

/-- `replay_file` with `apply_line` as its callback. -/
def replayInto (ord : Order) (s : Inner) (content : Bytes) : Inner :=
  (replayFile content).foldl (applyLine ord) s

/-! ## Following siblings -/

/-- Let one reader catch up and fold in what it delivers. -/
def readTail (ord : Order) (d : Dir) (s : Inner) (name : Bytes) : Inner :=
  let t := (s.tail.readers.lookup name).getD {}
  let r := t.readNew (d.content name)
  r.1.foldl (applyLine ord)
    { s with tail := { s.tail with readers := s.tail.readers.insert name r.2 } }

/-- Start following the sibling logs that have no reader yet. -/
def addReaders (s : Inner) (names : List Bytes) : Inner :=
  names.foldl (fun s n ↦ if n ∈ s.tail.readers then s
    else { s with tail := { s.tail with readers := s.tail.readers.insert n {} } }) s

/-- `poll_locked`: discover sibling logs and pull in their new lines. -/
def pollLocked (ord : Order) (d : Dir) (s : Inner) (now : Int64) : Inner :=
  let s := addReaders s (shardFiles d (logName s.inst))
  let s := ((UnorderedMap.iterate ord s.tail.readers).map Prod.fst).foldl (readTail ord d) s
  { s with tail := { s.tail with lastPoll := now } }

/-- The code alphabet. -/
def ALPHABET : Bytes := lit "0123456789abcdefghijklmnopqrstuvwxyzABCDEFGHIJKLMNOPQRSTUVWXYZ"

/-- The position of a byte in the alphabet. -/
def alphaIdx (b : UInt8) : Option ℕ := ALPHABET.idxOf? b

/-- How long a miss waits before it polls all logs again. -/
def TAIL_MIN_INTERVAL : Int64 := 200

/-- `tail_missed`: follow the log that the code's first byte names, or poll them all when the last
poll is long enough ago. The clock is read at 1 for the test and at 2 for the new poll time. -/
def tailMissed (ord : Order) (d : Dir) (s : Inner) (code : Bytes) (clk : Clock) : Inner :=
  match code, s.aof with
  | b :: _, some _ =>
    match alphaIdx b with
    | some owner =>
      if h : owner ≠ s.inst.val ∧ owner < MAX_INSTANCES then
        let s := readTail ord d s (logName ⟨owner, h.2⟩)
        { s with tail := { s.tail with lastPoll := clk 2 } }
      else if TAIL_MIN_INTERVAL ≤ clk 1 - s.tail.lastPoll then pollLocked ord d s (clk 2)
      else s
    | none =>
      if TAIL_MIN_INTERVAL ≤ clk 1 - s.tail.lastPoll then pollLocked ord d s (clk 2) else s
  | _, _ => s

/-! ## Opening -/

/-- `Store::open` on a directory, with a given instance id: replay the own snapshot and log, then
the snapshots of all siblings, whose logs are followed from their start. -/
def openStore (ord : Order) (d : Dir) (inst : InstanceId) : Store :=
  let d := d.create (logName inst)
  let s : Inner := { aof := some { path := logName inst }, inst }
  let s := replayInto ord s (d.content (snapName inst))
  let s := replayInto ord s (d.content (logName inst))
  let s := (shardFiles d (logName inst)).foldl (fun s f ↦
    let s := replayInto ord s (d.content (snapOf f))
    { s with tail := { s.tail with
      readers := if f ∈ s.tail.readers then s.tail.readers else s.tail.readers.insert f {} } }) s
  { dir := d, inner := s }

/-- `Store::open` on an empty directory. -/
def openEmpty (inst : InstanceId) : Store := openStore (fun _ ↦ 0) ∅ inst

/-- `Store::open` on `:memory:`. -/
def openMemory : Store := { dir := ∅, inner := {} }

/-! ## Creating links -/

/-- The length of generated codes. -/
def CODE_LEN : ℕ := 8

/-- The words `rng_next` returns for one code. -/
abbrev Draw := Fin (CODE_LEN - 1) → UInt64

/-- `gen_code`. -/
def genCode (inst : InstanceId) (r : Draw) : Bytes :=
  ALPHABET.getD inst 0 ::
    List.ofFn fun k ↦ ALPHABET.getD (r k % UInt64.ofNat MAX_INSTANCES).toNat 0

/-- The retry loop: the first generated code that is not taken, and the draws after it. -/
def freshCode (sh : Shards) (inst : InstanceId) : List Draw → Option (Bytes × List Draw)
  | [] => none
  | r :: rs =>
    if (sh.find (genCode inst r)).isSome then freshCode sh inst rs else some (genCode inst r, rs)

/-- The buffer size that triggers a flush. -/
def FLUSH_BYTES : ℕ := 262144

/-- The expiry of a link created or updated at `now`. -/
def expiry (now ttl : Int64) : Int64 := if 0 < ttl then now + ttl else 0

namespace Store

/-- Push bytes to the own log, if there is one. -/
def pushRaw (st : Store) (bytes : Bytes) : Store :=
  { st with inner := { st.inner with aof := st.inner.aof.map (Aof.pushRaw · bytes) } }

/-- Push a line to the own log, if there is one. -/
def push (st : Store) (line : Bytes) : Store :=
  { st with inner := { st.inner with aof := st.inner.aof.map (Aof.push · line) } }

/-- Write the own log's buffer out. -/
def flushAof (st : Store) : Store := match st.inner.aof with
  | some a => { dir := (a.flush st.dir).1, inner := { st.inner with aof := (a.flush st.dir).2 } }
  | none => st

/-- Flush when more than `FLUSH_BYTES` are pending. -/
def flushIfFull (st : Store) : Store := match st.inner.aof with
  | some a => if FLUSH_BYTES < a.buf.length then st.flushAof else st
  | none => st

/-- Change the index only. -/
def mapInner (st : Store) (f : Inner → Inner) : Store := { st with inner := f st.inner }

/-- A fresh entry of this instance. -/
def newEntry (st : Store) (url : Bytes) (now exp : Int64) : Entry :=
  { u := url, a := now, e := exp, i := instInt st.inner.inst }

/-- The row this instance logs for a link, with a hit count of zero. -/
def rowFor (st : Store) (code url : Bytes) (a exp : Int64) : Bytes :=
  rowLine code url a exp (instLong st.inner.inst) 0

/-- The index section of a creation: bind a free code. -/
def bind (st : Store) (code url : Bytes) (now exp : Int64) : Store :=
  st.mapInner (·.put code (st.newEntry url now exp))

/-- The code a creation gets: the alias, unless it is taken, or a fresh one. Undefined while the
loop that looks for a fresh code has not ended. -/
def pickCode (st : Store) (al : Option Bytes) (rng : List Draw) : Option (Option Bytes) :=
  match al with
  | some code => some (if (st.inner.find code).isSome then none else some code)
  | none => (freshCode st.inner.shards st.inner.inst rng).map fun p ↦ some p.1

/-- `Store::shorten`: the new state and the code, or no code when the alias is taken. -/
def shorten (st : Store) (url : Bytes) (al : Option Bytes) (ttl : Int64) (clk : Clock)
    (rng : List Draw) : Option (Store × Option Bytes) :=
  let now := clk 0
  let exp := expiry now ttl
  (st.pickCode al rng).map fun
    | none => (st, none)
    | some code =>
      (((st.bind code url now exp).push (st.rowFor code url now exp)).flushIfFull, some code)

/-- The loop of `shorten_many`: bind each url to a fresh code, collecting lines and codes. -/
def shortenLoop (st : Store) (now exp : Int64) :
    List Bytes → List Draw → Bytes → List Bytes → Option (Store × Bytes × List Bytes)
  | [], _, lines, codes => some (st, lines, codes)
  | u :: us, rng, lines, codes =>
    match freshCode st.inner.shards st.inner.inst rng with
    | none => none
    | some (c, rng) =>
      (st.bind c u now exp).shortenLoop now exp us rng
        (lines ++ st.rowFor c u now exp ++ [NL]) (codes ++ [c])

/-- `Store::shorten_many`. -/
def shortenMany (st : Store) (urls : List Bytes) (ttl : Int64) (clk : Clock) (rng : List Draw) :
    Option (Store × List Bytes) :=
  (st.shortenLoop (clk 0) (expiry (clk 0) ttl) urls rng [] []).map fun r ↦
    ((r.1.pushRaw r.2.1).flushIfFull, r.2.2)

/-! ## Reading links -/

/-- Whether a link with this expiry still resolves. -/
def live (e : Entry) (now : Int64) : Bool := e.e = 0 || now < e.e

/-- The two counters of an entry, bumped. -/
def bumped (e : Entry) : Entry := { e with h := e.h + 1, oh := e.oh + 1 }

/-- What the index section of `resolve` finds. -/
inductive Found where
  | url (u : Bytes)
  | expired
  | absent
  deriving DecidableEq

/-- The index section of `resolve`: look the code up and bump the counters of a live link. -/
def lookup (st : Store) (code : Bytes) (now : Int64) (track : Bool) : Store × Found :=
  match st.inner.find code with
  | some e =>
    if live e now then
      (if track then st.mapInner (·.put code (bumped e)) else st, .url e.u)
    else (st, .expired)
  | none => (st, .absent)

/-- The second section of `resolve`: one more hit for the next flush. -/
def markDirty (st : Store) (code : Bytes) : Store :=
  st.mapInner fun s ↦ { s with shards := s.shards.addDirty code }

/-- Follow the siblings after a miss. -/
def readTails (st : Store) (code : Bytes) (clk : Clock) (ord : Order) : Store :=
  st.mapInner fun s ↦ tailMissed ord st.dir s code clk

/-- `Store::resolve`. The clock is read at 0 for a link found at once and at 3 for one found after
the tails were read. -/
def resolve (st : Store) (code : Bytes) (clk : Clock) (track : Bool) (ord : Order) :
    Store × Option Bytes :=
  match st.lookup code (clk 0) track with
  | (st, .url u) => (if track then st.markDirty code else st, some u)
  | (st, .expired) => (st, none)
  | (st, .absent) =>
    if st.inner.aof.isNone then (st, none)
    else match (st.readTails code clk ord).lookup code (clk 3) track with
      | (st, .url u) => (if track then st.markDirty code else st, some u)
      | (st, _) => (st, none)

/-- What `stats` reports. -/
structure Link where
  code : Bytes
  url : Bytes
  hits : Int64
  createdAt : Int64
  expiresAt : Int64
  deriving DecidableEq

/-- `Store::stats`. -/
def stats (st : Store) (code : Bytes) : Option Link :=
  (st.inner.find code).map fun e ↦
    { code, url := e.u, hits := e.h, createdAt := e.a, expiresAt := e.e }

/-! ## Changing links -/

/-- Outcome of `update` and `remove`. -/
inductive MutResult where
  | ok
  | missing
  | remote
  deriving DecidableEq

/-- The index section of `update`: the new state and the line to log. -/
def updateIndex (st : Store) (code url : Bytes) (ttl : Int64) (hasTtl : Bool) (now : Int64) :
    Except MutResult (Store × Bytes) :=
  match st.inner.find code with
  | none => .error .missing
  | some e =>
    if e.i ≠ instInt st.inner.inst then .error .remote
    else
      let exp := if hasTtl then expiry now ttl else e.e
      .ok (st.mapInner (·.put code { e with u := url, e := exp }), st.rowFor code url e.a exp)

/-- `Store::update`. -/
def update (st : Store) (code url : Bytes) (ttl : Int64) (hasTtl : Bool) (clk : Clock) :
    Store × MutResult :=
  match st.updateIndex code url ttl hasTtl (clk 0) with
  | .ok (st, line) => (st.push line, .ok)
  | .error r => (st, r)

/-- The index section of `remove`. -/
def removeIndex (st : Store) (code : Bytes) : Except MutResult (Store × Bytes) :=
  match st.inner.find code with
  | none => .error .missing
  | some e =>
    if e.i ≠ instInt st.inner.inst then .error .remote
    else .ok (st.mapInner (·.erase code), delLine code)

/-- `Store::remove`. -/
def remove (st : Store) (code : Bytes) : Store × MutResult :=
  match st.removeIndex code with
  | .ok (st, line) => (st.push line, .ok)
  | .error r => (st, r)

/-! ## Writing out -/

/-- The hit lines of pending deltas. -/
def hitLines (inst : InstanceId) (ds : List (Bytes × Int64)) : Bytes :=
  Framing.frame NL (ds.map fun p ↦ hitLine p.1 p.2 (instLong inst))

/-- The pending deltas of one shard, as lines. -/
def shardHits (st : Store) (ord : Order) (k : Fin NUM_SHARDS) : Bytes :=
  hitLines st.inner.inst (st.inner.shards.shardDirty ord k)

/-- Forget the pending deltas of one shard. -/
def drainShard (st : Store) (k : Fin NUM_SHARDS) : Store :=
  st.mapInner fun s ↦ { s with shards := s.shards.drain k }

/-- The shard loop of `flush_locked`. -/
def drainLoop (ord : Order) : List (Fin NUM_SHARDS) → Store → Bytes → Store × Bytes
  | [], st, lines => (st, lines)
  | k :: ks, st, lines => drainLoop ord ks (st.drainShard k) (lines ++ st.shardHits ord k)

/-- The shards in the order of the array. -/
def allShards : List (Fin NUM_SHARDS) := List.finRange NUM_SHARDS

/-- `Inner::flush_locked`: drain every shard, then push the lines and write. -/
def flushLocked (st : Store) (ord : Order) : Store :=
  if st.inner.aof.isNone then st
  else
    let r := drainLoop ord allShards st []
    (r.1.pushRaw r.2).flushAof

/-- `Store::poll_tails`. -/
def pollTails (st : Store) (ord : Order) (now : Int64) : Store :=
  if st.inner.aof.isNone then st else st.mapInner fun s ↦ pollLocked ord st.dir s now

/-- The rows of one shard that a snapshot takes: those of this instance, with their own hits. -/
def shardRowLines (st : Store) (ord : Order) (k : Fin NUM_SHARDS) : Bytes :=
  Framing.frame NL (((st.inner.shards.shardRows ord k).filter fun p ↦
    p.2.i = instInt st.inner.inst).map fun p ↦
      rowLine p.1 p.2.u p.2.a p.2.e p.2.i.toInt64 p.2.oh)

/-- What became of the file operations of one compaction. -/
structure CompactIo where
  /-- Whether `fopen` of the scratch file succeeded. -/
  fopen : Bool := true
  /-- How many bytes of the snapshot reached the scratch file, when not all did. -/
  short : Option ℕ := none
  /-- Whether `rename` succeeded. -/
  renamed : Bool := true
  deriving DecidableEq

/-- The bytes that reached the scratch file. -/
def CompactIo.reached (io : CompactIo) (bytes : Bytes) : Bytes := match io.short with
  | none => bytes
  | some k => bytes.take k

/-- The scratch file, holding some bytes. -/
def writeTmp (st : Store) (bytes : Bytes) : Store :=
  { st with dir := st.dir.write (tmpName st.inner.inst) bytes }

/-- `rename` of the scratch file over the snapshot. -/
def renameTmp (st : Store) : Store :=
  { st with dir := st.dir.rename (tmpName st.inner.inst) (snapName st.inner.inst) }

/-- `truncate` of the own log. -/
def truncateAof (st : Store) : Store := match st.inner.aof with
  | some a =>
    { dir := (a.truncate st.dir).1, inner := { st.inner with aof := (a.truncate st.dir).2 } }
  | none => st

/-- The snapshot text: the shard loop of `compact`. -/
def snapText (st : Store) (ord : Order) : Bytes := allShards.flatMap (st.shardRowLines ord)

/-- `Store::compact`: flush, write the own rows to a scratch file, rename it over the snapshot, and
truncate the log whatever happened before. -/
def compact (st : Store) (ord : Order) (io : CompactIo) : Store :=
  if st.inner.aof.isNone then st
  else
    let st := st.flushLocked ord
    let st :=
      if io.fopen then
        let st := st.writeTmp (io.reached (st.snapText ord))
        if io.renamed then st.renameTmp else st
      else st
    st.truncateAof

/-- `Store::close`. -/
def close (st : Store) (ord : Order) : Store :=
  let st := st.flushLocked ord
  match st.inner.aof with
  | some a => { dir := (a.close st.dir).1, inner := { st.inner with aof := (a.close st.dir).2 } }
  | none => st

/-- Close, then open again under the same instance id. -/
def reopen (st : Store) (ord : Order) : Store :=
  openStore ord (st.close ord).dir st.inner.inst

end Store

end Shrt
