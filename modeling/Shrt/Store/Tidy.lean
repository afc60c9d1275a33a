import Shrt.Store.Own

/-!
# What an instance writes

An instance owns three files, the log, the snapshot and the scratch file, and a buffer that has not
reached the log yet. `Tidy` says that the log and the buffer are whole lines of this instance, which
is all that is needed to follow them through pushes, flushes and truncations. It holds whether or
not other instances use the directory: they write to files of their own.
-/

namespace Shrt

open LastWrite (Write)

namespace Store

/-- The bytes pushed to the own log but not written. -/
def buf (st : Store) : Bytes := (st.inner.aof.map Aof.buf).getD []

/-- The own log file. -/
def log (st : Store) : Bytes := st.dir.content (logName st.inner.inst)

/-- The own snapshot file. -/
def snap (st : Store) : Bytes := st.dir.content (snapName st.inner.inst)

/-- The own scratch file. -/
def tmp (st : Store) : Bytes := st.dir.content (tmpName st.inner.inst)

/-- What the own log and the buffer behind it do to the links. -/
def logWrites (st : Store) : List (Write Bytes LinkRow) := writesOf st.log ++ writesOf st.buf

variable {st : Store}

theorem isLog_rowFor {code : Bytes} (hc : codeOk code = true) (url : Bytes) (a exp : Int64) :
    IsLog st.inner.inst (st.rowFor code url a exp ++ [NL]) := by
  have hown : (LogOp.row ⟨code, hc⟩ url a exp (instLong st.inner.inst) 0).Own st.inner.inst := rfl
  exact isLog_line hown

theorem find_of_mem_shardRows {ord : Order} {k : Fin NUM_SHARDS} {p : Bytes × Entry}
    (hp : p ∈ st.inner.shards.shardRows ord k) : st.inner.find p.1 = some p.2 :=
  ((Shards.mem_shardRows ord _ k).mp hp).2

/-! ## The scratch file -/

@[simp] theorem log_writeTmp (b : Bytes) : (st.writeTmp b).log = st.log := by
  rw [log, writeTmp, Dir.content_write, if_neg (tmpName_ne_logName _ _).symm, log]

@[simp] theorem snap_writeTmp (b : Bytes) : (st.writeTmp b).snap = st.snap := by
  rw [snap, writeTmp, Dir.content_write, if_neg (tmpName_ne_snapName _ _).symm, snap]

@[simp] theorem tmp_writeTmp (b : Bytes) : (st.writeTmp b).tmp = b := by
  rw [tmp, writeTmp, Dir.content_write, if_pos rfl]

theorem tmpName_mem_writeTmp (b : Bytes) : tmpName st.inner.inst ∈ (st.writeTmp b).dir :=
  (AList.mem_insert _).mpr (.inl rfl)

/-- The rename of a scratch file that is there. -/
theorem renameTmp_eq (h : tmpName st.inner.inst ∈ st.dir) :
    st.renameTmp = { st with
      dir := (st.dir.erase (tmpName st.inner.inst)).insert (snapName st.inner.inst) st.tmp } := by
  obtain ⟨data, hd⟩ := Option.isSome_iff_exists.mp (AList.lookup_isSome.mpr h)
  have htmp : st.tmp = data := by rw [tmp, Dir.content, hd, Option.getD_some]
  rw [renameTmp, Dir.rename, hd, htmp]

theorem snap_renameTmp (h : tmpName st.inner.inst ∈ st.dir) : st.renameTmp.snap = st.tmp := by
  rw [renameTmp_eq h]
  exact (Dir.content_insert ..).trans (if_pos rfl)

@[simp] theorem log_renameTmp : st.renameTmp.log = st.log := by
  have hsnap : logName st.inner.inst ≠ snapName st.inner.inst := (snapName_ne_logName _ _).symm
  have htmp : logName st.inner.inst ≠ tmpName st.inner.inst := (tmpName_ne_logName _ _).symm
  rw [log, renameTmp, Dir.rename]
  cases st.dir.lookup (tmpName st.inner.inst) with
  | none => rfl
  | some data =>
    refine (Dir.content_insert ..).trans ?_
    rw [if_neg hsnap, Dir.content, AList.lookup_erase_ne htmp]
    rfl

end Store

/-- An open store whose log and buffer are whole lines of its own. -/
structure Tidy (st : Store) : Prop where
  dirty : ∀ {k c}, c ∈ (st.inner.shards k).dirty → codeOk c = true
  aof : st.inner.aof = some { buf := st.buf, path := logName st.inner.inst }
  isLog_buf : IsLog st.inner.inst st.buf
  isLog_log : IsLog st.inner.inst st.log

namespace Tidy

variable {st : Store} (ht : Tidy st)
include ht

/-- A log is open. -/
theorem aof_isNone : st.inner.aof.isNone = false := by
  rw [ht.aof]
  rfl

/-! ## Changes of memory -/

/-- A change of memory that leaves the log alone. -/
theorem mapInner {f : Inner → Inner}
    (hdirty : ∀ {k c}, c ∈ ((f st.inner).shards k).dirty → codeOk c = true)
    (haof : (f st.inner).aof = st.inner.aof) (hinst : (f st.inner).inst = st.inner.inst) :
    Tidy (st.mapInner f) := by
  have hbuf : (st.mapInner f).buf = st.buf := congrArg (fun a ↦ (a.map Aof.buf).getD []) haof
  constructor
  · exact hdirty
  · rw [hbuf, Store.mapInner, hinst, haof]
    exact ht.aof
  · rw [hbuf, Store.mapInner, hinst]
    exact ht.isLog_buf
  · rw [Store.log, Store.mapInner, hinst]
    exact ht.isLog_log

theorem put (code : Bytes) (e : Entry) : Tidy (st.mapInner (·.put code e)) := by
  refine ht.mapInner (fun {k c} h ↦ ?_) rfl rfl
  rw [Inner.put, Shards.dirty_put] at h
  exact ht.dirty h

theorem erase (code : Bytes) : Tidy (st.mapInner (·.erase code)) := by
  refine ht.mapInner (fun {k c} h ↦ ?_) rfl rfl
  rw [Inner.erase, Shards.dirty_erase] at h
  exact ht.dirty h

theorem markDirty {code : Bytes} (hc : codeOk code = true) : Tidy (st.markDirty code) := by
  refine ht.mapInner (fun {k c} h ↦ ?_) rfl rfl
  rcases Shards.mem_dirty_addDirty h with rfl | h
  · exact hc
  · exact ht.dirty h

theorem drainShard (k : Fin NUM_SHARDS) : Tidy (st.drainShard k) :=
  ht.mapInner (fun h ↦ ht.dirty (Shards.mem_dirty_drain h)) rfl rfl

/-! ## Changes of the files -/

/-- A change of the files and of the buffer alone. -/
theorem withFiles {d : Dir} {b : Bytes} (hd : IsLog st.inner.inst (d.content (logName st.inner.inst)))
    (hb : IsLog st.inner.inst b) :
    Tidy { dir := d, inner := { st.inner with
      aof := some { buf := b, path := logName st.inner.inst } } } where
  dirty := ht.dirty
  aof := rfl
  isLog_buf := hb
  isLog_log := hd

theorem withDir {d : Dir} (hd : IsLog st.inner.inst (d.content (logName st.inner.inst))) :
    Tidy { st with dir := d } := by
  have h := ht.withFiles hd ht.isLog_buf
  rwa [← ht.aof] at h

theorem pushRaw_eq (b : Bytes) : st.pushRaw b = { dir := st.dir, inner := { st.inner with
    aof := some { buf := st.buf ++ b, path := logName st.inner.inst } } } := by
  rw [Store.pushRaw, ht.aof]
  rfl

theorem pushRaw {b : Bytes} (hb : IsLog st.inner.inst b) : Tidy (st.pushRaw b) := by
  rw [ht.pushRaw_eq]
  exact ht.withFiles ht.isLog_log (ht.isLog_buf.append hb)

theorem buf_pushRaw (b : Bytes) : (st.pushRaw b).buf = st.buf ++ b := by
  rw [ht.pushRaw_eq]
  rfl

/-- A flush moves the buffer to the end of the log and touches no other file. -/
theorem flushAof_eq : ∃ d : Dir, st.flushAof = { dir := d, inner := { st.inner with
    aof := some { path := logName st.inner.inst } } } ∧
      (∀ n, n ∈ d → n = logName st.inner.inst ∨ n ∈ st.dir) ∧
      ∀ n, d.content n = if n = logName st.inner.inst then st.log ++ st.buf
        else st.dir.content n := by
  rw [Store.flushAof, ht.aof]
  by_cases hb : st.buf = []
  · refine ⟨st.dir, ?_, fun n hn ↦ .inr hn, fun n ↦ ?_⟩
    · simp [Aof.flush, hb]
    · split_ifs with hn
      · rw [hn, hb, List.append_nil, Store.log]
      · rfl
  · refine ⟨st.dir.append (logName st.inner.inst) st.buf, ?_, fun n hn ↦ ?_, fun n ↦ ?_⟩
    · simp [Aof.flush, hb]
    · exact (AList.mem_insert _).mp hn
    · exact Dir.content_append ..

theorem flushAof : Tidy st.flushAof := by
  obtain ⟨d, heq, -, hcontent⟩ := ht.flushAof_eq
  rw [heq]
  refine ht.withFiles ?_ isLog_nil
  rw [hcontent, if_pos rfl]
  exact ht.isLog_log.append ht.isLog_buf

theorem inner_flushAof : st.flushAof.inner =
    { st.inner with aof := some { path := logName st.inner.inst } } := by
  obtain ⟨d, heq, -, -⟩ := ht.flushAof_eq
  rw [heq]

theorem buf_flushAof : st.flushAof.buf = [] := by
  rw [Store.buf, ht.inner_flushAof]
  rfl

theorem log_flushAof : st.flushAof.log = st.log ++ st.buf := by
  obtain ⟨d, heq, -, hcontent⟩ := ht.flushAof_eq
  rw [heq]
  exact (hcontent _).trans (if_pos rfl)

theorem snap_flushAof : st.flushAof.snap = st.snap := by
  obtain ⟨d, heq, -, hcontent⟩ := ht.flushAof_eq
  rw [heq]
  exact (hcontent _).trans (if_neg (snapName_ne_logName _ _))

theorem flushIfFull_cases : st.flushIfFull = st.flushAof ∨ st.flushIfFull = st := by
  rw [Store.flushIfFull, ht.aof]
  simp only
  split_ifs
  · exact .inl rfl
  · exact .inr rfl

theorem flushIfFull : Tidy st.flushIfFull := by
  rcases ht.flushIfFull_cases with h | h
  · rw [h]
    exact ht.flushAof
  · rw [h]
    exact ht

theorem writeTmp (b : Bytes) : Tidy (st.writeTmp b) := by
  refine ht.withDir ?_
  have hlog := @Store.log_writeTmp st b
  rw [Store.log, Store.writeTmp] at hlog
  rw [hlog]
  exact ht.isLog_log

theorem renameTmp : Tidy st.renameTmp := by
  refine ht.withDir ?_
  have hlog := @Store.log_renameTmp st
  rw [Store.log, Store.renameTmp] at hlog
  rw [hlog]
  exact ht.isLog_log

/-- Truncation empties the log and the buffer. -/
theorem truncateAof_eq : ∃ d : Dir, st.truncateAof = { dir := d, inner := { st.inner with
      aof := some { path := logName st.inner.inst } } } ∧
    (∀ n, n ∈ d → n = logName st.inner.inst ∨ n ∈ st.dir) ∧
    ∀ n, d.content n = if n = logName st.inner.inst then [] else st.dir.content n := by
  obtain ⟨d, heq, hmem, hcontent⟩ := ht.flushAof_eq
  have hflush : Aof.flush { buf := st.buf, path := logName st.inner.inst } st.dir
      = (d, { path := logName st.inner.inst }) := by
    rw [Store.flushAof, ht.aof] at heq
    simp only at heq
    injection heq with hdir hinner
    have haof := congrArg Inner.aof hinner
    exact Prod.ext hdir (Option.some.inj haof)
  refine ⟨d.write (logName st.inner.inst) [], ?_, fun n hn ↦ ?_, fun n ↦ ?_⟩
  · rw [Store.truncateAof, ht.aof]
    simp only [Aof.truncate, hflush]
  · rcases (AList.mem_insert _).mp hn with rfl | hn
    · exact .inl rfl
    · exact hmem n hn
  · rw [Dir.content_write, hcontent]
    split_ifs <;> rfl

theorem truncateAof : Tidy st.truncateAof := by
  obtain ⟨d, heq, -, hcontent⟩ := ht.truncateAof_eq
  rw [heq]
  refine ht.withFiles ?_ isLog_nil
  rw [hcontent, if_pos rfl]
  exact isLog_nil

theorem log_truncateAof : st.truncateAof.log = [] := by
  obtain ⟨d, heq, -, hcontent⟩ := ht.truncateAof_eq
  rw [heq]
  exact (hcontent _).trans (if_pos rfl)

theorem snap_truncateAof : st.truncateAof.snap = st.snap := by
  obtain ⟨d, heq, -, hcontent⟩ := ht.truncateAof_eq
  rw [heq]
  exact (hcontent _).trans (if_neg (snapName_ne_logName _ _))

theorem buf_truncateAof : st.truncateAof.buf = [] := by
  obtain ⟨d, heq, -, -⟩ := ht.truncateAof_eq
  rw [heq]
  rfl

/-! ## The links in the log -/

theorem logWrites_pushRaw {b : Bytes} :
    (st.pushRaw b).logWrites = st.logWrites ++ writesOf b := by
  rw [Store.logWrites, ht.buf_pushRaw, writesOf_append ht.isLog_buf, Store.logWrites,
    List.append_assoc]
  rfl

theorem logWrites_flushAof : st.flushAof.logWrites = st.logWrites := by
  rw [Store.logWrites, ht.buf_flushAof, ht.log_flushAof, writesOf_append ht.isLog_log,
    writesOf_nil, List.append_nil]
  rfl

theorem logWrites_flushIfFull : st.flushIfFull.logWrites = st.logWrites := by
  rcases ht.flushIfFull_cases with h | h
  · rw [h, ht.logWrites_flushAof]
  · rw [h]

theorem snap_flushIfFull : st.flushIfFull.snap = st.snap := by
  rcases ht.flushIfFull_cases with h | h
  · rw [h, ht.snap_flushAof]
  · rw [h]

/-! ## Pending hits -/

theorem codeOk_of_mem_shardDirty {ord : Order} {k : Fin NUM_SHARDS} :
    ∀ p ∈ st.inner.shards.shardDirty ord k, codeOk p.1 = true := by
  rintro ⟨c, d⟩ hp
  obtain ⟨-, hl⟩ := (Shards.mem_shardDirty ord _ k).mp hp
  rw [Shards.dirtyAt] at hl
  exact ht.dirty (AList.lookup_isSome.mp (by rw [hl]; rfl))

theorem isLog_shardHits (ord : Order) (k : Fin NUM_SHARDS) :
    IsLog st.inner.inst (st.shardHits ord k) := isLog_hitLines _ ht.codeOk_of_mem_shardDirty

end Tidy

end Shrt
