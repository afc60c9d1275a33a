import Shrt.Lib.CounterLog
import Shrt.Store.Tidy

/-!
# The hits of one code

The lines of a file that are about one code are a log of its hit counter: a hit line adds, a row
sets, a tombstone deletes. `touches` picks them out, and everything the program does with hits can
be followed there, one code at a time.

`apply` folds lines into an index that also parks hits of codes it has no entry for. Seen from one
code this is `CounterLog.Cell.touch` (`cell_apply`), as long as the parked hits of the code are not
dropped to make room for others.
-/

namespace Shrt

open CounterLog (Touch Cell)

/-! ## Lines about a code -/

/-- What a parsed line does to the counter of a code, by the precedence of `apply`. -/
def Op.touch (c : Bytes) (o : Op) : Option (Touch Int64) :=
  if o.x ≠ [] then if o.x = c then some .del else none
  else if o.h ≠ [] then if o.h = c then some (.add o.d) else none
  else if o.c ≠ [] ∧ o.c = c then some (.set o.n) else none

theorem filterMap_cons_toList {α β : Type*} (f : α → Option β) (a : α) (as : List α) :
    (a :: as).filterMap f = (f a).toList ++ as.filterMap f := by
  rw [List.filterMap_cons]
  cases f a <;> rfl

/-- The lines of a file about a code. -/
def touches (c : Bytes) (content : Bytes) : List (Touch Int64) :=
  (replayOps content).filterMap (Op.touch c)

@[simp] theorem touches_nil (c : Bytes) : touches c [] = [] := rfl

section Lines

variable (c : Bytes)

theorem touch_row (c' : Code) (u : Bytes) (a e i n : Int64) :
    (LogOp.row c' u a e i n).toOp.touch c = if c'.1 = c then some (.set n) else none := by
  simp [Op.touch, LogOp.toOp, c'.ne_nil]

theorem touch_hit (c' : Code) (d i : Int64) :
    (LogOp.hit c' d i).toOp.touch c = if c'.1 = c then some (.add d) else none := by
  rw [Op.touch, if_neg (by simp [LogOp.toOp]), if_pos (by simp [LogOp.toOp, c'.ne_nil])]
  rfl

theorem touch_del (c' : Code) :
    (LogOp.del c').toOp.touch c = if c'.1 = c then some .del else none := by
  rw [Op.touch, if_pos (by simp [LogOp.toOp, c'.ne_nil])]
  rfl

theorem touch_eq_none {op : LogOp} (h : op.code.1 ≠ c) : op.toOp.touch c = none := by
  cases op with
  | row c' u a e i n => exact (touch_row ..).trans (if_neg h)
  | hit c' d i => exact (touch_hit ..).trans (if_neg h)
  | del c' => exact (touch_del ..).trans (if_neg h)

/-- Bytes after whole lines are read as if they stood alone. -/
theorem touches_append {inst : InstanceId} {b : Bytes} (h : IsLog inst b) (t : Bytes) :
    touches c (b ++ t) = touches c b ++ touches c t := by
  rw [touches, replayOps_append h, List.filterMap_append, touches, touches]

/-- One line. -/
theorem touches_line (op : LogOp) :
    touches c (op.line ++ [NL]) = (op.toOp.touch c).toList := by
  rw [touches, replayOps_line]
  cases h : op.toOp.touch c with
  | none => simp [h]
  | some t => simp [h]

/-- The row of a link that this instance has changed. -/
theorem touches_rowFor (st : Store) {code : Bytes} (hcode : codeOk code = true) (url : Bytes)
    (a exp : Int64) : touches c (st.rowFor code url a exp ++ [NL])
      = if code = c then [.set 0] else [] := by
  refine (touches_line c (.row ⟨code, hcode⟩ url a exp (instLong st.inner.inst) 0)).trans ?_
  rw [touch_row]
  split_ifs <;> rfl

/-- The hit lines of pending deltas. -/
theorem touches_hitLines (inst : InstanceId) {ds : List (Bytes × Int64)}
    (h : ∀ p ∈ ds, codeOk p.1 = true) : touches c (Store.hitLines inst ds)
      = ds.filterMap fun p ↦ if p.1 = c then some (.add p.2) else none := by
  rw [touches, replayOps_hitLines inst h, List.filterMap_map]
  refine List.filterMap_congr fun p hp ↦ ?_
  exact touch_hit c ⟨p.1, h p hp⟩ p.2 (instLong inst)

/-- The rows of a snapshot. -/
theorem touches_rowLines {rows : List (Bytes × Entry)} (h : ∀ p ∈ rows, codeOk p.1 = true) :
    touches c (rowLines rows)
      = rows.filterMap fun p ↦ if p.1 = c then some (.set p.2.oh) else none := by
  rw [touches, replayOps_rowLines h, List.filterMap_map]
  refine List.filterMap_congr fun p hp ↦ ?_
  exact touch_row c ⟨p.1, h p hp⟩ p.2.u p.2.a p.2.e p.2.i.toInt64 p.2.oh

end Lines

/-! ## The own log -/

namespace Store

/-- The lines about a code in the own log and in the buffer behind it. -/
def logTouches (st : Store) (c : Bytes) : List (Touch Int64) := touches c st.log ++ touches c st.buf

/-- The pending hits of a code, as the line the next flush will write. -/
def pending (st : Store) (c : Bytes) : List (Touch Int64) :=
  ((st.inner.shards.dirtyAt c).map Touch.add).toList

theorem added_pending (st : Store) (c : Bytes) :
    CounterLog.added (st.pending c) = st.inner.shards.dirtyOf c := by
  rw [pending, Shards.dirtyOf]
  cases st.inner.shards.dirtyAt c with
  | none => rfl
  | some d => exact add_zero d

theorem isAdd_of_mem_pending {st : Store} {c : Bytes} : ∀ t ∈ st.pending c, t.isAdd = true := by
  intro t ht
  obtain ⟨d, -, rfl⟩ := Option.map_eq_some_iff.mp (Option.mem_toList.mp ht)
  rfl

end Store

namespace Tidy

variable {st : Store} (ht : Tidy st)
include ht

theorem logTouches_pushRaw (b c : Bytes) :
    (st.pushRaw b).logTouches c = st.logTouches c ++ touches c b := by
  have hlog : (st.pushRaw b).log = st.log := rfl
  rw [Store.logTouches, ht.buf_pushRaw, hlog, touches_append c ht.isLog_buf, ← List.append_assoc]
  rfl

theorem logTouches_flushAof (c : Bytes) : st.flushAof.logTouches c = st.logTouches c := by
  rw [Store.logTouches, ht.log_flushAof, ht.buf_flushAof, touches_append c ht.isLog_log,
    touches_nil, List.append_nil, Store.logTouches]

theorem logTouches_flushIfFull (c : Bytes) : st.flushIfFull.logTouches c = st.logTouches c := by
  rcases ht.flushIfFull_cases with h | h
  · rw [h, ht.logTouches_flushAof]
  · rw [h]

theorem logTouches_truncateAof (c : Bytes) : st.truncateAof.logTouches c = [] := by
  rw [Store.logTouches, ht.log_truncateAof, ht.buf_truncateAof]
  rfl

/-- The lines of a drained shard. -/
theorem touches_shardHits (ord : Order) (k : Fin NUM_SHARDS) (c : Bytes) :
    touches c (st.shardHits ord k) = if shardOf c = k then st.pending c else [] := by
  rw [Store.shardHits, touches_hitLines c _ ht.codeOk_of_mem_shardDirty, Shards.shardDirty,
    UnorderedMap.filterMap_iterate ord _ c fun d ↦ some (Touch.add d)]
  split_ifs with hk
  · rw [Store.pending, Shards.dirtyAt, hk, Option.map_eq_bind]
    rfl
  · have hnone : (st.inner.shards k).dirty.lookup c = none :=
      AList.lookup_eq_none.mpr fun h ↦ hk ((st.inner.shards k).dirty_placed c h)
    rw [hnone]
    rfl

end Tidy

/-! ## Flushing -/

/-- What the shard loop of a flush has done: the pending hits of the shards it went through have
become lines, and nothing else has changed. -/
structure Drained (st : Store) (todo : List (Fin NUM_SHARDS)) (lines : Bytes)
    (r : Store × Bytes) : Prop where
  tidy : Tidy r.1
  inst : r.1.inner.inst = st.inner.inst
  tail : r.1.inner.tail = st.inner.tail
  dir : r.1.dir = st.dir
  buf : r.1.buf = st.buf
  find : ∀ c, r.1.inner.find c = st.inner.find c
  isLog : IsLog st.inner.inst r.2
  writes : writesOf r.2 = writesOf lines
  touches : ∀ c, touches c r.2
    = touches c lines ++ if shardOf c ∈ todo then st.pending c else []
  dirty : ∀ c, r.1.inner.shards.dirtyAt c
    = if shardOf c ∈ todo then none else st.inner.shards.dirtyAt c

theorem pending_drainShard (st : Store) (k : Fin NUM_SHARDS) (c : Bytes) :
    (st.drainShard k).pending c = if shardOf c = k then [] else st.pending c := by
  rw [Store.pending, Store.drainShard, Store.mapInner, Shards.dirtyAt_drain]
  split_ifs <;> rfl

theorem drained_drainLoop (ord : Order) (todo : List (Fin NUM_SHARDS)) :
    ∀ {st : Store} {lines : Bytes}, Tidy st → IsLog st.inner.inst lines →
      Drained st todo lines (Store.drainLoop ord todo st lines) := by
  induction todo with
  | nil =>
    intro st lines ht hl
    exact ⟨ht, rfl, rfl, rfl, rfl, fun _ ↦ rfl, hl, rfl, fun _ ↦ (List.append_nil _).symm,
      fun _ ↦ rfl⟩
  | cons k ks ih =>
    intro st lines ht hl
    have h := ih (ht.drainShard k) (hl.append (ht.isLog_shardHits ord k))
    refine ⟨h.tidy, h.inst, h.tail, h.dir, h.buf, fun c ↦ (h.find c).trans ?_, h.isLog,
      h.writes.trans ?_, fun c ↦ (h.touches c).trans ?_, fun c ↦ (h.dirty c).trans ?_⟩
    · exact Shards.find_drain ..
    · rw [writesOf_append hl, Store.shardHits, writesOf_hitLines _ ht.codeOk_of_mem_shardDirty,
        List.append_nil]
    · rw [touches_append c hl, ht.touches_shardHits, pending_drainShard, List.append_assoc]
      by_cases hk : shardOf c = k
      · simp [hk]
      · simp [hk]
    · have hd : (st.drainShard k).inner.shards.dirtyAt c
          = if shardOf c = k then none else st.inner.shards.dirtyAt c := Shards.dirtyAt_drain ..
      rw [hd]
      by_cases hk : shardOf c = k
      · simp [hk]
      · simp [hk]

/-- What a flush has done: the pending hits and the buffer stand at the end of the log. -/
structure Flushed (st st' : Store) : Prop where
  tidy : Tidy st'
  inst : st'.inner.inst = st.inner.inst
  tail : st'.inner.tail = st.inner.tail
  find : ∀ c, st'.inner.find c = st.inner.find c
  dirty : ∀ c, st'.inner.shards.dirtyAt c = none
  buf : st'.buf = []
  content : ∀ n, n ≠ logName st.inner.inst → st'.dir.content n = st.dir.content n
  writes : st'.logWrites = st.logWrites
  touches : ∀ c, st'.logTouches c = st.logTouches c ++ st.pending c

theorem Flushed.snap {st st' : Store} (h : Flushed st st') : st'.snap = st.snap := by
  rw [Store.snap, h.inst, h.content _ (snapName_ne_logName _ _), Store.snap]

theorem Tidy.flushed {st : Store} (ht : Tidy st) (ord : Order) :
    Flushed st (st.flushLocked ord) := by
  have haof := ht.aof_isNone
  have h := drained_drainLoop ord Store.allShards ht isLog_nil
  rw [Store.flushLocked, haof, if_neg Bool.false_ne_true]
  generalize Store.drainLoop ord Store.allShards st [] = r at h ⊢
  have hall : ∀ c, shardOf c ∈ Store.allShards := fun c ↦ List.mem_finRange _
  have hlog : IsLog r.1.inner.inst r.2 := by
    rw [h.inst]
    exact h.isLog
  have hpush := h.tidy.pushRaw hlog
  obtain ⟨d, heq, -, hcontent⟩ := hpush.flushAof_eq
  have hlogr : r.1.log = st.log := by rw [Store.log, h.dir, h.inst, Store.log]
  refine ⟨hpush.flushAof, ?_, ?_, fun c ↦ ?_, fun c ↦ ?_, hpush.buf_flushAof, fun n hn ↦ ?_, ?_,
    fun c ↦ ?_⟩
  · exact (Store.inst_flushAof _).trans h.inst
  · rw [heq]
    exact h.tail
  · rw [Inner.find, Store.shards_flushAof]
    exact h.find c
  · rw [Store.shards_flushAof]
    exact (h.dirty c).trans (if_pos (hall c))
  · rw [heq]
    refine (hcontent n).trans ((if_neg fun heq ↦ hn ?_).trans ?_)
    · rw [← h.inst]
      exact heq
    · exact congrArg (Dir.content · n) h.dir
  · rw [hpush.logWrites_flushAof, h.tidy.logWrites_pushRaw, h.writes, writesOf_nil,
      List.append_nil, Store.logWrites, hlogr, h.buf, Store.logWrites]
  · rw [hpush.logTouches_flushAof, h.tidy.logTouches_pushRaw, h.touches, touches_nil,
      List.nil_append, if_pos (hall c), Store.logTouches, hlogr, h.buf, Store.logTouches]

/-! ## Compacting -/

/-- The row a snapshot takes for a code: that of an own entry, with the hits it has counted. -/
def Store.snapRow (st : Store) (c : Bytes) : List (Touch Int64) :=
  ((st.inner.find c).bind fun e ↦
    if e.i = instInt st.inner.inst then some (Touch.set e.oh) else none).toList

/-- Own entries have codes that can be logged. -/
def OwnCodesOk (s : Inner) : Prop :=
  ∀ {c e}, s.find c = some e → e.i = instInt s.inst → codeOk c = true

namespace Store

variable {st : Store} (hown : OwnCodesOk st.inner)
include hown

theorem codeOk_of_mem_ownRows {ord : Order} {k : Fin NUM_SHARDS} :
    ∀ p ∈ (st.inner.shards.shardRows ord k).filter (fun p ↦ p.2.i = instInt st.inner.inst),
      codeOk p.1 = true := by
  intro p hp
  obtain ⟨hp, hi⟩ := List.mem_filter.mp hp
  exact hown (find_of_mem_shardRows hp) (of_decide_eq_true hi)

theorem isLog_shardRowLines (ord : Order) (k : Fin NUM_SHARDS) :
    IsLog st.inner.inst (st.shardRowLines ord k) :=
  isLog_rowLines (codeOk_of_mem_ownRows hown) fun _ hp ↦
    of_decide_eq_true (List.mem_filter.mp hp).2

/-- The rows of one shard in a snapshot. -/
theorem touches_shardRowLines (ord : Order) (k : Fin NUM_SHARDS) (c : Bytes) :
    touches c (st.shardRowLines ord k) = if shardOf c = k then st.snapRow c else [] := by
  have hrows : st.shardRowLines ord k = rowLines ((st.inner.shards.shardRows ord k).filter
    fun p ↦ p.2.i = instInt st.inner.inst) := rfl
  rw [hrows, touches_rowLines c (codeOk_of_mem_ownRows hown), List.filterMap_filter]
  have hfun : (fun p : Bytes × Entry ↦ if decide (p.2.i = instInt st.inner.inst) = true then
        (if p.1 = c then some (Touch.set p.2.oh) else none) else none)
      = fun p ↦ if p.1 = c then
        (if p.2.i = instInt st.inner.inst then some (Touch.set p.2.oh) else none) else none := by
    funext p
    split_ifs <;> simp_all
  rw [hfun, Shards.shardRows, UnorderedMap.filterMap_iterate ord _ c fun e : Entry ↦
    if e.i = instInt st.inner.inst then some (Touch.set e.oh) else none]
  split_ifs with hk
  · rw [snapRow, Inner.find, Shards.find, hk]
  · have hnone : (st.inner.shards k).data.lookup c = none :=
      AList.lookup_eq_none.mpr fun h ↦ hk ((st.inner.shards k).data_placed c h)
    rw [hnone]
    rfl

/-- The text of the shards walked so far. -/
theorem touches_flatMap_shardRowLines (ord : Order) {ks : List (Fin NUM_SHARDS)} (hks : ks.Nodup)
    (c : Bytes) : IsLog st.inner.inst (ks.flatMap (st.shardRowLines ord)) ∧
      touches c (ks.flatMap (st.shardRowLines ord))
        = if shardOf c ∈ ks then st.snapRow c else [] := by
  induction ks with
  | nil => exact ⟨isLog_nil, rfl⟩
  | cons k ks ih =>
    rw [List.nodup_cons] at hks
    obtain ⟨hlog, htouches⟩ := ih hks.2
    have hk := isLog_shardRowLines hown ord k
    rw [List.flatMap_cons]
    refine ⟨hk.append hlog, ?_⟩
    rw [touches_append c hk, htouches, touches_shardRowLines hown]
    by_cases hc : shardOf c = k
    · rw [if_pos hc, if_neg (by rw [hc]; exact hks.1), if_pos (by rw [hc]; exact List.mem_cons_self),
        List.append_nil]
    · simp [hc]

theorem touches_snapText (ord : Order) (c : Bytes) :
    touches c (st.snapText ord) = st.snapRow c := by
  rw [snapText, allShards,
    (touches_flatMap_shardRowLines hown ord (List.nodup_finRange _) c).2,
    if_pos (List.mem_finRange _)]

theorem isLog_snapText (ord : Order) : IsLog st.inner.inst (st.snapText ord) :=
  (touches_flatMap_shardRowLines hown ord (List.nodup_finRange _) []).1

end Store

/-- What a compaction has done: the own rows are in the snapshot, and the log is empty. -/
structure Compacted (st st' : Store) : Prop where
  tidy : Tidy st'
  inst : st'.inner.inst = st.inner.inst
  tail : st'.inner.tail = st.inner.tail
  find : ∀ c, st'.inner.find c = st.inner.find c
  dirty : ∀ c, st'.inner.shards.dirtyAt c = none
  content : ∀ n, n ≠ logName st.inner.inst → n ≠ snapName st.inner.inst →
    n ≠ tmpName st.inner.inst → st'.dir.content n = st.dir.content n
  snap : ∀ c, touches c st'.snap = st.snapRow c
  isLog_snap : IsLog st.inner.inst st'.snap
  log : st'.log = []
  buf : st'.buf = []

theorem Tidy.compacted {st : Store} (ht : Tidy st) (hown : OwnCodesOk st.inner) (ord : Order) :
    Compacted st (st.compact ord {}) := by
  have haof := Bool.eq_false_iff.mp ht.aof_isNone
  have hf := ht.flushed ord
  rw [Store.compact, if_neg haof]
  generalize st.flushLocked ord = st₁ at hf ⊢
  have hown₁ : OwnCodesOk st₁.inner := by
    intro c e hc hi
    rw [hf.find] at hc
    rw [hf.inst] at hi
    exact hown hc hi
  have hrow : ∀ c, st₁.snapRow c = st.snapRow c := fun c ↦ by
    rw [Store.snapRow, hf.find, hf.inst, Store.snapRow]
  simp only [if_true, Store.CompactIo.reached]
  obtain ⟨text, htext⟩ : ∃ text, text = st₁.snapText ord := ⟨_, rfl⟩
  rw [← htext]
  have hmem := @Store.tmpName_mem_writeTmp st₁ text
  have h₂ := (hf.tidy.writeTmp text).renameTmp
  have hsnap : (st₁.writeTmp text).renameTmp.snap = text := by
    rw [Store.snap_renameTmp hmem, Store.tmp_writeTmp]
  obtain ⟨d, heq, -, hcontent⟩ := h₂.truncateAof_eq
  refine ⟨h₂.truncateAof, ?_, ?_, fun c ↦ ?_, fun c ↦ ?_, fun n hlog hsn htmp ↦ ?_, fun c ↦ ?_, ?_,
    h₂.log_truncateAof, h₂.buf_truncateAof⟩
  · exact (Store.inst_truncateAof _).trans hf.inst
  · rw [heq]
    exact hf.tail
  · rw [Inner.find, Store.shards_truncateAof]
    exact hf.find c
  · rw [Store.shards_truncateAof]
    exact hf.dirty c
  · rw [← hf.inst] at hlog hsn htmp
    rw [heq]
    refine (hcontent n).trans ((if_neg hlog).trans ?_)
    rw [Store.renameTmp_eq hmem]
    refine (Dir.content_insert ..).trans ((if_neg hsn).trans ?_)
    have htmp' : n ≠ tmpName (st₁.writeTmp text).inner.inst := htmp
    rw [Dir.content, AList.lookup_erase_ne htmp']
    refine (Dir.content_write ..).trans ((if_neg htmp).trans (hf.content n ?_))
    rwa [← hf.inst]
  · rw [h₂.snap_truncateAof, hsnap, htext, Store.touches_snapText hown₁, hrow]
  · rw [h₂.snap_truncateAof, hsnap, htext, ← hf.inst]
    exact Store.isLog_snapText hown₁ ord

end Shrt
