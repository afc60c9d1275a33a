import Shrt.Store.Touches

/-!
# What calls write

An instance changes its links in one way: the index changes as a few lines say (`Recorded`), the
lines are pushed to the buffer (`Pushes`), and at some point the buffer is written to the log
(`Flushes`). Pending hits join the buffer on the way, which is of no concern to the links. A
compaction writes the own links to the snapshot (`links_snapText`).

Nothing here depends on the instance being alone in its directory.
-/

namespace Shrt

open LastWrite (Write replay)

variable {st st₁ st' : Store}

/-- The index has changed as some lines say, which have not been pushed yet. The lines carry the id
of the instance, and they are about codes that had no link or one of this instance. -/
structure Recorded (st st₁ : Store) (b : Bytes) : Prop where
  tidy : Tidy st₁
  inst : st₁.inner.inst = st.inner.inst
  tail : st₁.inner.tail = st.inner.tail
  dir : st₁.dir = st.dir
  buf : st₁.buf = st.buf
  isLog : IsLog st.inner.inst b
  links : st₁.inner.links = replay st.inner.links (writesOf b)
  free : ∀ w ∈ writesOf b, st.inner.links w.key = none ∨
    ∃ v, st.inner.links w.key = some v ∧ v.i = instInt st.inner.inst

/-- The index has changed and the entries are in the buffer. -/
structure Pushes (st st' : Store) (ws : List (Write Bytes LinkRow)) : Prop where
  tidy : Tidy st'
  inst : st'.inner.inst = st.inner.inst
  tail : st'.inner.tail = st.inner.tail
  dir : st'.dir = st.dir
  buf : writesOf st'.buf = writesOf st.buf ++ ws
  links : st'.inner.links = replay st.inner.links ws
  codes : ∀ w ∈ ws, codeOk w.key = true
  signed : ∀ c v, Write.put c v ∈ ws → v.i = instInt st.inner.inst
  free : ∀ w ∈ ws, st.inner.links w.key = none ∨
    ∃ v, st.inner.links w.key = some v ∧ v.i = instInt st.inner.inst

/-- The buffer is in the log. -/
structure Flushes (st st' : Store) : Prop where
  tidy : Tidy st'
  inst : st'.inner.inst = st.inner.inst
  tail : st'.inner.tail = st.inner.tail
  links : st'.inner.links = st.inner.links
  buf : st'.buf = []
  log : ∃ b, IsLog st.inner.inst b ∧ st'.log = st.log ++ b ∧ writesOf b = writesOf st.buf
  content : ∀ n, n ≠ logName st.inner.inst → st'.dir.content n = st.dir.content n
  mem : ∀ n, n ∈ st'.dir → n = logName st.inner.inst ∨ n ∈ st.dir
  kept : ∀ n ∈ st.dir, n ∈ st'.dir

/-! ## Entries of whole lines -/

section Lines

variable {inst : InstanceId} {b : Bytes}

/-- The entries of an instance's lines are about admitted codes. -/
theorem IsLog.codeOk_of_mem (h : IsLog inst b) {w : Write Bytes LinkRow} (hw : w ∈ writesOf b) :
    codeOk w.key = true := by
  obtain ⟨ops, -, rfl⟩ := h
  rw [writesOf_logText] at hw
  obtain ⟨op, -, hw⟩ := List.mem_flatMap.mp hw
  rw [key_of_mem_writes hw]
  exact op.code.2

/-- The rows of an instance carry its id. -/
theorem IsLog.owner_of_mem (h : IsLog inst b) {c : Bytes} {v : LinkRow}
    (hw : Write.put c v ∈ writesOf b) : v.i = instInt inst := by
  obtain ⟨ops, hops, rfl⟩ := h
  rw [writesOf_logText] at hw
  obtain ⟨op, hop, hw⟩ := List.mem_flatMap.mp hw
  have hown := hops op hop
  cases op with
  | row c' u a e i n =>
    rw [writes_row, List.mem_singleton] at hw
    obtain ⟨-, rfl⟩ := Write.put.inj hw
    have hi : i = instLong inst := hown
    rw [hi, toInt32_instLong]
  | hit c' d i =>
    rw [writes_hit] at hw
    exact absurd hw List.not_mem_nil
  | del c' =>
    rw [writes_del, List.mem_singleton] at hw
    exact nomatch hw

theorem writesOf_rowFor {code : Bytes} (hc : codeOk code = true) (url : Bytes) (a exp : Int64) :
    writesOf (st.rowFor code url a exp ++ [NL])
      = [.put code { u := url, a, e := exp, i := instInt st.inner.inst }] := by
  have h := writesOf_line (.row ⟨code, hc⟩ url a exp (instLong st.inner.inst) 0)
  rw [writes_row, toInt32_instLong] at h
  exact h

theorem writesOf_delLine {code : Bytes} (hc : codeOk code = true) :
    writesOf (delLine code ++ [NL]) = [.del code] := by
  have h := writesOf_line (.del ⟨code, hc⟩)
  rwa [writes_del] at h

end Lines

/-! ## Pushing -/

theorem Recorded.pushes {b : Bytes} (h : Recorded st st₁ b) :
    Pushes st (st₁.pushRaw b) (writesOf b) where
  tidy := by
    have hlog := h.isLog
    rw [← h.inst] at hlog
    exact h.tidy.pushRaw hlog
  inst := h.inst
  tail := h.tail
  dir := h.dir
  buf := by rw [h.tidy.buf_pushRaw, writesOf_append h.tidy.isLog_buf, h.buf]
  links := h.links
  codes := fun _ hw ↦ h.isLog.codeOk_of_mem hw
  signed := fun _ _ hw ↦ h.isLog.owner_of_mem hw
  free := h.free

theorem Tidy.recorded_nil (ht : Tidy st) : Recorded st st [] :=
  ⟨ht, rfl, rfl, rfl, rfl, isLog_nil, rfl, fun _ hw ↦ absurd hw List.not_mem_nil⟩

/-- A new link, after what the same call has recorded before. -/
theorem Recorded.bind {b code : Bytes} (h : Recorded st st₁ b) (hfree : st₁.inner.find code = none)
    (hcode : codeOk code = true) (url : Bytes) (now exp : Int64) :
    Recorded st (st₁.bind code url now exp) (b ++ st₁.rowFor code url now exp ++ [NL]) := by
  have hrow : IsLog st₁.inner.inst (st₁.rowFor code url now exp ++ [NL]) :=
    Store.isLog_rowFor hcode url now exp
  rw [h.inst] at hrow
  have hwrites : writesOf (b ++ st₁.rowFor code url now exp ++ [NL])
      = writesOf b ++ [.put code { u := url, a := now, e := exp, i := instInt st₁.inner.inst }] := by
    rw [List.append_assoc, writesOf_append h.isLog, writesOf_rowFor hcode]
  have hnone : st₁.inner.links code = none := by
    rw [Inner.links, hfree]
    rfl
  refine ⟨h.tidy.put code _, h.inst, h.tail, h.dir, h.buf, ?_, ?_, fun w hw ↦ ?_⟩
  · rw [List.append_assoc]
    exact h.isLog.append hrow
  · rw [hwrites, LastWrite.replay_append, ← h.links]
    exact Inner.links_put ..
  · rw [hwrites] at hw
    rcases List.mem_append.mp hw with hw | hw
    · exact h.free w hw
    · rw [List.mem_singleton] at hw
      subst hw
      -- The code had no link before the call, unless the call itself has written it.
      by_cases hsilent : LastWrite.Silent code (writesOf b)
      · rw [h.links, hsilent.replay] at hnone
        exact .inl hnone
      · obtain ⟨w, hmem, hkey⟩ := LastWrite.not_silent.mp hsilent
        have hw' := h.free w hmem
        rwa [hkey] at hw'

theorem Tidy.recorded_put (ht : Tidy st) {code : Bytes} {e : Entry} (hfind : st.inner.find code = some e)
    (howner : e.i = instInt st.inner.inst) (hcode : codeOk code = true) (url : Bytes) (exp : Int64) :
    Recorded st (st.mapInner (·.put code { e with u := url, e := exp }))
      (st.rowFor code url e.a exp ++ [NL]) := by
  refine ⟨ht.put code _, rfl, rfl, rfl, rfl, Store.isLog_rowFor hcode .., ?_, fun w hw ↦ ?_⟩
  · rw [writesOf_rowFor hcode, ← howner]
    exact Inner.links_put ..
  · rw [writesOf_rowFor hcode, List.mem_singleton] at hw
    subst hw
    refine .inr ⟨e.link, ?_, howner⟩
    rw [Inner.links, Write.key, hfind]
    rfl

theorem Tidy.recorded_erase (ht : Tidy st) {code : Bytes} {e : Entry}
    (hfind : st.inner.find code = some e) (howner : e.i = instInt st.inner.inst)
    (hcode : codeOk code = true) :
    Recorded st (st.mapInner (·.erase code)) (delLine code ++ [NL]) := by
  have hown : (LogOp.del ⟨code, hcode⟩).Own st.inner.inst := trivial
  refine ⟨ht.erase code, rfl, rfl, rfl, rfl, isLog_line hown, ?_, fun w hw ↦ ?_⟩
  · rw [writesOf_delLine hcode]
    exact Inner.links_erase ..
  · rw [writesOf_delLine hcode, List.mem_singleton] at hw
    subst hw
    refine .inr ⟨e.link, ?_, howner⟩
    rw [Inner.links, Write.key, hfind]
    rfl

/-- The loop of `shorten_many`: the rows recorded are those of the codes it returns. -/
theorem Recorded.shortenLoop {now exp : Int64} {urls : List Bytes} :
    ∀ {st₁ : Store} {rng : List Draw} {lines : Bytes} {codes : List Bytes}
      {r : Store × Bytes × List Bytes}, Recorded st st₁ lines →
      (∀ w ∈ writesOf lines, w.key ∈ codes) →
      st₁.shortenLoop now exp urls rng lines codes = some r →
      Recorded st r.1 r.2.1 ∧ ∀ w ∈ writesOf r.2.1, w.key ∈ r.2.2 := by
  induction urls with
  | nil =>
    intro st₁ rng lines codes r hrec hcodes h
    rw [← Option.some.inj h]
    exact ⟨hrec, hcodes⟩
  | cons u us ih =>
    intro st₁ rng lines codes r hrec hcodes h
    rw [Store.shortenLoop] at h
    cases hf : freshCode st₁.inner.shards st₁.inner.inst rng with
    | none =>
      rw [hf] at h
      exact nomatch h
    | some p =>
      rw [hf] at h
      obtain ⟨hfree, hcode⟩ := freshCode_spec hf
      refine ih (hrec.bind hfree hcode u now exp) (fun w hw ↦ ?_) h
      rw [List.append_assoc, writesOf_append hrec.isLog, writesOf_rowFor hcode] at hw
      rcases List.mem_append.mp hw with hw | hw
      · exact List.mem_append_left _ (hcodes w hw)
      · rw [List.mem_singleton.mp hw]
        exact List.mem_append_right _ (List.mem_singleton.mpr rfl)

/-! ## Flushing -/

/-- Writing removes no file. -/
theorem Aof.mem_flush (a : Aof) {d : Dir} {n : Bytes} (hn : n ∈ d) : n ∈ (a.flush d).1 := by
  rw [Aof.flush]
  split_ifs
  · exact hn
  · exact (AList.mem_insert _).mpr (.inr hn)

theorem Store.mem_flushAof {n : Bytes} (hn : n ∈ st.dir) : n ∈ st.flushAof.dir := by
  rw [flushAof]
  split
  · exact Aof.mem_flush _ hn
  · exact hn

theorem Store.mem_truncateAof {n : Bytes} (hn : n ∈ st.dir) : n ∈ st.truncateAof.dir := by
  rw [truncateAof]
  split
  · exact (AList.mem_insert _).mpr (.inr (Aof.mem_flush _ hn))
  · exact hn

namespace Tidy

variable (ht : Tidy st)
include ht

theorem flushes_flushAof : Flushes st st.flushAof := by
  obtain ⟨d, heq, hmem, hcontent⟩ := ht.flushAof_eq
  refine ⟨ht.flushAof, Store.inst_flushAof st, ?_, ?_, ht.buf_flushAof,
    ⟨st.buf, ht.isLog_buf, ht.log_flushAof, rfl⟩, fun n hn ↦ ?_, fun n hn ↦ ?_,
    fun n hn ↦ Store.mem_flushAof hn⟩
  · rw [heq]
  · rw [heq]
    rfl
  · rw [heq]
    exact (hcontent n).trans (if_neg hn)
  · rw [heq] at hn
    exact hmem n hn

theorem flushes_flushLocked (ord : Order) : Flushes st (st.flushLocked ord) := by
  have haof := ht.aof_isNone
  have h := drained_drainLoop ord Store.allShards ht isLog_nil
  rw [Store.flushLocked, haof, if_neg Bool.false_ne_true]
  generalize Store.drainLoop ord Store.allShards st [] = r at h ⊢
  have hlog : IsLog r.1.inner.inst r.2 := by
    rw [h.inst]
    exact h.isLog
  have hf := (h.tidy.pushRaw hlog).flushes_flushAof
  have hinst : (r.1.pushRaw r.2).inner.inst = st.inner.inst := h.inst
  have hlinks : r.1.inner.links = st.inner.links := Inner.links_eq_of_shards h.find
  obtain ⟨b, hb, hblog, hbwrites⟩ := hf.log
  refine ⟨hf.tidy, hf.inst.trans hinst, hf.tail.trans h.tail, hf.links.trans hlinks, hf.buf,
    ⟨b, hinst ▸ hb, hblog.trans ?_, hbwrites.trans ?_⟩, fun n hn ↦ ?_, fun n hn ↦ ?_,
    fun n hn ↦ Store.mem_flushAof ?_⟩
  · have hlogr : (r.1.pushRaw r.2).log = st.log := by
      rw [Store.log, Store.log, hinst]
      exact congrArg (Dir.content · _) h.dir
    rw [hlogr]
  · -- The lines of the drained shards are about hits only.
    rw [h.tidy.buf_pushRaw, writesOf_append h.tidy.isLog_buf, h.writes, h.buf, writesOf_nil,
      List.append_nil]
  · refine (hf.content n (hinst ▸ hn)).trans ?_
    exact congrArg (Dir.content · n) h.dir
  · rcases hf.mem n hn with hn | hn
    · exact .inl (hinst ▸ hn)
    · have hdir : (r.1.pushRaw r.2).dir = st.dir := h.dir
      rw [hdir] at hn
      exact .inr hn
  · have hdir : (r.1.pushRaw r.2).dir = st.dir := h.dir
    rw [hdir]
    exact hn

theorem flushIfFull_writes : Flushes st st.flushIfFull ∨ st.flushIfFull = st := by
  rcases ht.flushIfFull_cases with h | h
  · rw [h]
    exact .inl ht.flushes_flushAof
  · exact .inr h

end Tidy

/-! ## Compacting -/

/-- The link of a code, if this instance owns it. -/
def Store.ownLink (st : Store) (c : Bytes) : Option LinkRow :=
  (st.inner.links c).filter fun v ↦ v.i = instInt st.inner.inst

/-- The snapshot is made of the own rows. -/
theorem Store.snapText_eq (st : Store) (ord : Order) : st.snapText ord
    = rowLines ((st.inner.shards.rows ord).filter fun p ↦ p.2.i = instInt st.inner.inst) := by
  rw [snapText, rowLines, Framing.frame, Shards.rows, List.filter_flatMap, List.map_flatMap,
    List.flatMap_assoc]
  rfl

/-- **A snapshot** lays the own links over what was there. -/
theorem Store.links_snapText (hown : OwnCodesOk st.inner) (ord : Order) (m : Bytes → Option LinkRow)
    (c : Bytes) : replay m (writesOf (st.snapText ord)) c = (st.ownLink c).or (m c) := by
  have hmem : ∀ p, p ∈ ((st.inner.shards.rows ord).filter fun p ↦ p.2.i = instInt st.inner.inst) ↔
      st.inner.find p.1 = some p.2 ∧ p.2.i = instInt st.inner.inst := by
    intro p
    rw [List.mem_filter, decide_eq_true_iff]
    exact and_congr_left' (Shards.mem_rows ord _)
  have hcodes : ∀ p ∈ ((st.inner.shards.rows ord).filter fun p ↦ p.2.i = instInt st.inner.inst),
      codeOk p.1 = true := by
    intro p hp
    obtain ⟨hfind, hi⟩ := (hmem p).mp hp
    exact hown hfind hi
  rw [snapText_eq, writesOf_rowLines hcodes, LastWrite.replay_puts (f := st.ownLink)]
  intro c' v
  rw [List.mem_map, ownLink, Option.filter_eq_some_iff, Inner.links, Option.map_eq_some_iff,
    decide_eq_true_iff]
  constructor
  · rintro ⟨p, hp, heq⟩
    obtain ⟨hfind, hi⟩ := (hmem p).mp hp
    obtain ⟨rfl, rfl⟩ := Prod.mk.inj heq
    exact ⟨⟨p.2, hfind, rfl⟩, hi⟩
  · rintro ⟨⟨e, hfind, rfl⟩, hi⟩
    exact ⟨(c', e), (hmem (c', e)).mpr ⟨hfind, hi⟩, rfl⟩

/-- The entries of a snapshot are the own links. -/
theorem Store.mem_writesOf_snapText (hown : OwnCodesOk st.inner) (ord : Order) {w : Write Bytes LinkRow}
    (hw : w ∈ writesOf (st.snapText ord)) : ∃ c v, w = .put c v ∧ st.ownLink c = some v := by
  have hmem : ∀ p ∈ ((st.inner.shards.rows ord).filter fun p ↦ p.2.i = instInt st.inner.inst),
      st.inner.find p.1 = some p.2 ∧ p.2.i = instInt st.inner.inst := by
    intro p hp
    rw [List.mem_filter, decide_eq_true_iff] at hp
    exact ⟨(Shards.mem_rows ord _).mp hp.1, hp.2⟩
  rw [snapText_eq, writesOf_rowLines fun p hp ↦ hown (hmem p hp).1 (hmem p hp).2, LastWrite.puts,
    List.map_map] at hw
  obtain ⟨p, hp, rfl⟩ := List.mem_map.mp hw
  obtain ⟨hfind, hi⟩ := hmem p hp
  refine ⟨p.1, p.2.link, rfl, ?_⟩
  rw [ownLink, Inner.links, hfind]
  exact Option.filter_some_pos (decide_eq_true hi)

/-- The own links are in the snapshot, and the log is empty. -/
structure Compacts (st st' : Store) : Prop where
  tidy : Tidy st'
  inst : st'.inner.inst = st.inner.inst
  tail : st'.inner.tail = st.inner.tail
  links : st'.inner.links = st.inner.links
  buf : st'.buf = []
  log : st'.log = []
  isLog_snap : IsLog st.inner.inst st'.snap
  rows : ∀ w ∈ writesOf st'.snap, ∃ c v, w = .put c v ∧ st.ownLink c = some v
  snap : ∀ m c, replay m (writesOf st'.snap) c = (st.ownLink c).or (m c)
  content : ∀ n, n ≠ logName st.inner.inst → n ≠ snapName st.inner.inst →
    n ≠ tmpName st.inner.inst → st'.dir.content n = st.dir.content n
  mem : ∀ n, n ∈ st'.dir → isShardLog n = true → n = logName st.inner.inst ∨ n ∈ st.dir
  kept : ∀ i, logName i ∈ st.dir → logName i ∈ st'.dir

/-- **A compaction** whose files are written. -/
theorem Tidy.compacts (ht : Tidy st) (hown : OwnCodesOk st.inner) (ord : Order) :
    Compacts st (st.compact ord {}) := by
  have haof := Bool.eq_false_iff.mp ht.aof_isNone
  have hc := ht.compacted hown ord
  have hf := ht.flushes_flushLocked ord
  obtain ⟨st₁, hst₁⟩ : ∃ st₁, st₁ = st.flushLocked ord := ⟨_, rfl⟩
  rw [← hst₁] at hf
  have hlink : st₁.ownLink = st.ownLink := by
    funext c
    rw [Store.ownLink, hf.links, hf.inst, Store.ownLink]
  have hown₁ : OwnCodesOk st₁.inner := by
    intro c e hfind hi
    have hsome : (st₁.inner.links c).isSome = true := by
      rw [Inner.links, hfind]
      rfl
    rw [hf.links, Inner.links, Option.isSome_map] at hsome
    obtain ⟨e', he'⟩ := Option.isSome_iff_exists.mp hsome
    have heq : st₁.inner.links c = st.inner.links c := congrFun hf.links c
    rw [Inner.links, Inner.links, hfind, he'] at heq
    have hlink : e'.link = e.link := Option.some.inj heq.symm
    have hi' : e'.i = e.i := congrArg LinkRow.i hlink
    exact hown he' (by rw [hi', hi, hf.inst])
  have hdir : (st.compact ord {}) = (st₁.writeTmp (st₁.snapText ord)).renameTmp.truncateAof := by
    rw [Store.compact, if_neg haof, hst₁]
    rfl
  have htmp := @Store.tmpName_mem_writeTmp st₁ (st₁.snapText ord)
  have h₂ := (hf.tidy.writeTmp (st₁.snapText ord)).renameTmp
  have hsnap : (st.compact ord {}).snap = st₁.snapText ord := by
    rw [hdir, h₂.snap_truncateAof, Store.snap_renameTmp htmp, Store.tmp_writeTmp]
  refine ⟨hc.tidy, hc.inst, hc.tail, Inner.links_eq_of_shards hc.find, hc.buf, hc.log, hc.isLog_snap,
    fun w hw ↦ ?_, fun m c ↦ ?_, hc.content, fun n hn hlog ↦ ?_, fun i hi ↦ ?_⟩
  · rw [hsnap] at hw
    rw [← hlink]
    exact Store.mem_writesOf_snapText hown₁ ord hw
  · rw [hsnap, Store.links_snapText hown₁, hlink]
  · -- The names that come up on the way are no logs.
    obtain ⟨d, heq, hmem, -⟩ := h₂.truncateAof_eq
    rw [hdir, heq] at hn
    rcases hmem n hn with hn | hn
    · exact .inl (hn.trans (congrArg logName hf.inst))
    · rw [Store.renameTmp_eq htmp] at hn
      rcases (AList.mem_insert _).mp hn with rfl | hn
      · rw [not_isShardLog_snapName] at hlog
        contradiction
      · rcases (AList.mem_insert _).mp (AList.mem_erase.mp hn).2 with rfl | hn
        · rw [not_isShardLog_tmpName] at hlog
          contradiction
        · exact hf.mem n hn
  · rw [hdir]
    refine Store.mem_truncateAof ?_
    rw [Store.renameTmp_eq htmp]
    refine (AList.mem_insert _).mpr (.inr (AList.mem_erase.mpr ⟨?_, ?_⟩))
    · exact (tmpName_ne_logName _ _).symm
    · exact (AList.mem_insert _).mpr (.inr (hf.kept _ hi))

end Shrt
