import Shrt.Store.Tidy

/-!
# One instance, alone in its directory

`Solo` is the shape of a store whose directory no other instance writes to: every file and every
buffer holds lines of this instance, every entry is its own, and the readers it may have started
follow logs that do not exist. Each operation of the store keeps the shape, and says what it does to
the four byte strings a restart depends on: the snapshot, the scratch file, the log and the buffer
that has not reached the log yet.

Nothing is said here about whether those bytes are worth the index. That is a matter of the order
in which they are written, and of no file operation failing.
-/

namespace Shrt

open LastWrite (replay)

/-! ## Following logs that do not exist -/

/-- The name of a log that is not the instance's own. -/
def SiblingName (inst : InstanceId) (n : Bytes) : Prop := isShardLog n = true ∧ n ≠ logName inst

/-- Nothing but the readers and the time of the last poll has changed. -/
structure OnlyTail (s s' : Inner) : Prop where
  shards : s'.shards = s.shards
  stray : s'.tail.stray = s.tail.stray
  aof : s'.aof = s.aof
  inst : s'.inst = s.inst
  readers : ∀ n ∈ s'.tail.readers, n ∈ s.tail.readers ∨ SiblingName s.inst n

namespace OnlyTail

theorem refl (s : Inner) : OnlyTail s s := ⟨rfl, rfl, rfl, rfl, fun _ h ↦ .inl h⟩

theorem trans {s s' s'' : Inner} (h : OnlyTail s s') (h' : OnlyTail s' s'') : OnlyTail s s'' where
  shards := h'.shards.trans h.shards
  stray := h'.stray.trans h.stray
  aof := h'.aof.trans h.aof
  inst := h'.inst.trans h.inst
  readers := by
    intro n hn
    rcases h'.readers n hn with hn | hn
    · exact h.readers n hn
    · rw [h.inst] at hn
      exact .inr hn

theorem withReader (s : Inner) {n : Bytes} (hn : n ∈ s.tail.readers ∨ SiblingName s.inst n)
    (r : TailReader) :
    OnlyTail s { s with tail := { s.tail with readers := s.tail.readers.insert n r } } where
  shards := rfl
  stray := rfl
  aof := rfl
  inst := rfl
  readers := by
    intro n' hn'
    rcases (AList.mem_insert _).mp hn' with rfl | hn'
    · exact hn
    · exact .inl hn'

theorem withLastPoll (s : Inner) (now : Int64) :
    OnlyTail s { s with tail := { s.tail with lastPoll := now } } :=
  ⟨rfl, rfl, rfl, rfl, fun _ h ↦ .inl h⟩

theorem links {s s' : Inner} (h : OnlyTail s s') : s'.links = s.links :=
  Inner.links_eq_of_shards fun c ↦ by rw [Inner.find, h.shards, Inner.find]

end OnlyTail

theorem readNew_nil (t : TailReader) : (t.readNew []).1 = [] := by
  simp [TailReader.readNew, TailReader.readUpTo]

theorem onlyTail_readTail {ord : Order} {d : Dir} {s : Inner} {n : Bytes}
    (hn : n ∈ s.tail.readers ∨ SiblingName s.inst n) (hd : d.content n = []) :
    OnlyTail s (readTail ord d s n) := by
  rw [readTail, hd, readNew_nil]
  exact OnlyTail.withReader s hn _

theorem onlyTail_addReaders {names : List Bytes} : ∀ {s : Inner},
    (∀ n ∈ names, SiblingName s.inst n) → OnlyTail s (addReaders s names) := by
  induction names with
  | nil => intro s _; exact OnlyTail.refl s
  | cons n names ih =>
    intro s h
    have hstep : OnlyTail s (if n ∈ s.tail.readers then s
        else { s with tail := { s.tail with readers := s.tail.readers.insert n {} } }) := by
      split_ifs
      · exact OnlyTail.refl s
      · exact OnlyTail.withReader s (.inr (h n List.mem_cons_self)) _
    refine hstep.trans (ih fun n' hn' ↦ ?_)
    rw [hstep.inst]
    exact h n' (List.mem_cons_of_mem _ hn')

theorem onlyTail_foldl_readTail {ord : Order} {d : Dir} {names : List Bytes} : ∀ {s : Inner},
    (∀ n ∈ names, SiblingName s.inst n ∧ d.content n = []) →
      OnlyTail s (names.foldl (readTail ord d) s) := by
  induction names with
  | nil => intro s _; exact OnlyTail.refl s
  | cons n names ih =>
    intro s h
    obtain ⟨hn, hd⟩ := h n List.mem_cons_self
    have hstep : OnlyTail s (readTail ord d s n) := onlyTail_readTail (.inr hn) hd
    refine hstep.trans (ih fun n' hn' ↦ ?_)
    rw [hstep.inst]
    exact h n' (List.mem_cons_of_mem _ hn')

/-! ## The shape -/

/-- The shape of a directory that one instance has to itself. -/
structure SoloDir (inst : InstanceId) (d : Dir) : Prop where
  logs : ∀ n ∈ d, ¬ SiblingName inst n
  isLog_log : IsLog inst (d.content (logName inst))
  replaysOwn_snap : ReplaysOwn inst (d.content (snapName inst))
  replaysOwn_tmp : ReplaysOwn inst (d.content (tmpName inst))

/-- The shape of a store that is alone in its directory. -/
structure Solo (st : Store) : Prop extends Tidy st where
  index : st.inner.OwnIndex
  readers : ∀ n ∈ st.inner.tail.readers, SiblingName st.inner.inst n
  files : SoloDir st.inner.inst st.dir

namespace SoloDir

variable {inst : InstanceId} {d : Dir} (hd : SoloDir inst d)
include hd

theorem content_sibling {n : Bytes} (hn : SiblingName inst n) : d.content n = [] := by
  have hnot : n ∉ d := fun h ↦ hd.logs n h hn
  rw [Dir.content, AList.lookup_eq_none.mpr hnot, Option.getD_none]

theorem shardFiles_eq : shardFiles d (logName inst) = [] := by
  refine List.eq_nil_iff_forall_not_mem.mpr fun n hn ↦ ?_
  obtain ⟨hmem, hlog, hne⟩ := mem_shardFiles.mp hn
  exact hd.logs n hmem ⟨hlog, hne⟩

/-- A directory with the same own files and no new log. -/
theorem congr {d' : Dir} (hmem : ∀ n ∈ d', ¬ SiblingName inst n)
    (hlog : IsLog inst (d'.content (logName inst)))
    (hsnap : d'.content (snapName inst) = d.content (snapName inst))
    (htmp : d'.content (tmpName inst) = d.content (tmpName inst)) : SoloDir inst d' where
  logs := hmem
  isLog_log := hlog
  replaysOwn_snap := by
    rw [hsnap]
    exact hd.replaysOwn_snap
  replaysOwn_tmp := by
    rw [htmp]
    exact hd.replaysOwn_tmp

theorem create : SoloDir inst (d.create (logName inst)) := by
  refine hd.congr (fun n hn ↦ ?_) ?_ (Dir.content_create ..) (Dir.content_create ..)
  · rcases (AList.mem_insert _).mp hn with rfl | hn
    · exact fun h ↦ h.2 rfl
    · exact hd.logs n hn
  · rw [Dir.content_create]
    exact hd.isLog_log

theorem write {name : Bytes} (hname : ¬ SiblingName inst name) {data : Bytes}
    (hlog : name = logName inst → IsLog inst data) (hother : ReplaysOwn inst data) :
    SoloDir inst (d.write name data) where
  logs := by
    intro n hn
    rcases (AList.mem_insert _).mp hn with rfl | hn
    · exact hname
    · exact hd.logs n hn
  isLog_log := by
    rw [Dir.content_write]
    split_ifs with h
    · exact hlog h.symm
    · exact hd.isLog_log
  replaysOwn_snap := by
    rw [Dir.content_write]
    split_ifs
    · exact hother
    · exact hd.replaysOwn_snap
  replaysOwn_tmp := by
    rw [Dir.content_write]
    split_ifs
    · exact hother
    · exact hd.replaysOwn_tmp

/-- What becomes of the own files when the scratch file replaces the snapshot. -/
theorem rename : SoloDir inst (d.rename (tmpName inst) (snapName inst)) := by
  rw [Dir.rename]
  cases ht : d.lookup (tmpName inst) with
  | none => exact hd
  | some data =>
    have hdata : d.content (tmpName inst) = data := by rw [Dir.content, ht, Option.getD_some]
    have herase : ∀ {n}, n ≠ tmpName inst →
        Dir.content (d.erase (tmpName inst)) n = d.content n := by
      intro n hn
      rw [Dir.content, AList.lookup_erase_ne hn, Dir.content]
    have hne : snapName inst ≠ tmpName inst := (tmpName_ne_snapName inst inst).symm
    constructor
    · intro n hn
      rcases (AList.mem_insert _).mp hn with rfl | hn
      · exact fun h ↦ absurd h.1 (by rw [not_isShardLog_snapName]; decide)
      · exact hd.logs n (AList.mem_erase.mp hn).2
    · rw [Dir.content_insert, if_neg (snapName_ne_logName inst inst).symm,
        herase (tmpName_ne_logName inst inst).symm]
      exact hd.isLog_log
    · rw [Dir.content_insert, if_pos rfl, ← hdata]
      exact hd.replaysOwn_tmp
    · rw [Dir.content_insert, if_neg hne.symm, Dir.content, AList.lookup_erase]
      exact replaysOwn_nil

/-- Opening a directory without siblings replays the own snapshot and the own log. -/
theorem openStore_eq (ord : Order) : openStore ord d inst =
    { dir := d.create (logName inst)
      inner := replayInto ord (replayInto ord { aof := some { path := logName inst }, inst }
        (d.content (snapName inst))) (d.content (logName inst)) } := by
  rw [openStore]
  simp only [Dir.content_create, hd.create.shardFiles_eq, List.foldl_nil]

theorem inst_openStore (ord : Order) : (openStore ord d inst).inner.inst = inst := by
  rw [hd.openStore_eq]
  exact (replayInto_inst ..).trans (replayInto_inst ..)

theorem snap_openStore (ord : Order) : (openStore ord d inst).snap = d.content (snapName inst) := by
  rw [Store.snap, hd.inst_openStore, hd.openStore_eq, Dir.content_create]

theorem log_openStore (ord : Order) : (openStore ord d inst).log = d.content (logName inst) := by
  rw [Store.log, hd.inst_openStore, hd.openStore_eq, Dir.content_create]

theorem buf_openStore (ord : Order) : (openStore ord d inst).buf = [] := by
  rw [Store.buf, hd.openStore_eq, replayInto_aof, replayInto_aof]
  rfl

theorem dirtyAt_openStore (ord : Order) (c : Bytes) :
    (openStore ord d inst).inner.shards.dirtyAt c = none := by
  rw [Shards.dirtyAt, hd.openStore_eq, replayInto_dirty, replayInto_dirty]
  rfl

/-- **What a restart rebuilds**: the writes of the snapshot, then those of the log. -/
theorem links_openStore (ord : Order) : (openStore ord d inst).inner.links =
    replay (replay (fun _ ↦ none) (writesOf (d.content (snapName inst))))
      (writesOf (d.content (logName inst))) := by
  rw [hd.openStore_eq, links_replayInto, links_replayInto]
  rfl

end SoloDir

theorem soloDir_empty (inst : InstanceId) : SoloDir inst ∅ where
  logs := fun n hn ↦ absurd hn (by simp)
  isLog_log := isLog_nil
  replaysOwn_snap := replaysOwn_nil
  replaysOwn_tmp := replaysOwn_nil

/-- A freshly opened store has the shape. -/
theorem SoloDir.solo_openStore {inst : InstanceId} {d : Dir} (hd : SoloDir inst d) (ord : Order) :
    Solo (openStore ord d inst) := by
  have h₀ : Inner.OwnIndex { aof := some { path := logName inst }, inst } :=
    ⟨fun h ↦ absurd h (by simp [Inner.find]), fun h ↦ absurd h (by simp [Inner.find]),
      fun h ↦ absurd h (by simp [Inner.find]), fun h ↦ absurd h (by simp)⟩
  rw [hd.openStore_eq]
  refine ⟨⟨fun {k c} hc ↦ ?_, ?_, ?_, ?_⟩, ?_, fun n hn ↦ ?_, ?_⟩
  · rw [replayInto_dirty, replayInto_dirty] at hc
    exact absurd hc (by simp [Shards.empty, Shard.empty])
  · simp only [Store.buf, replayInto_aof, replayInto_inst]
    rfl
  · simp only [Store.buf, replayInto_aof, replayInto_inst]
    exact isLog_nil
  · simp only [Store.log, replayInto_inst]
    exact hd.create.isLog_log
  · refine (h₀.replayInto ord hd.replaysOwn_snap).replayInto ord ?_
    rw [replayInto_inst]
    exact hd.isLog_log.replaysOwn
  · rw [replayInto_readers, replayInto_readers] at hn
    exact absurd hn (by simp)
  · simp only [replayInto_inst]
    exact hd.create

namespace Solo

variable {st : Store} (hs : Solo st)
include hs

theorem onlyTail_pollLocked (ord : Order) (now : Int64) :
    OnlyTail st.inner (pollLocked ord st.dir st.inner now) := by
  have hadd : OnlyTail st.inner (addReaders st.inner (shardFiles st.dir (logName st.inner.inst))) :=
    onlyTail_addReaders fun n hn ↦ (mem_shardFiles.mp hn).2
  refine (hadd.trans (onlyTail_foldl_readTail fun n hn ↦ ?_)).trans (OnlyTail.withLastPoll _ now)
  obtain ⟨⟨n', r⟩, hmem, rfl⟩ := List.mem_map.mp hn
  have hin : n' ∈ (addReaders st.inner (shardFiles st.dir (logName st.inner.inst))).tail.readers :=
    AList.lookup_isSome.mp (by rw [(UnorderedMap.mem_iterate ord _).mp hmem]; rfl)
  have hsib : SiblingName st.inner.inst n' := by
    rcases hadd.readers n' hin with h | h
    · exact hs.readers n' h
    · exact h
  rw [hadd.inst]
  exact ⟨hsib, hs.files.content_sibling hsib⟩

theorem onlyTail_tailMissed (ord : Order) (code : Bytes) (clk : Clock) :
    OnlyTail st.inner (tailMissed ord st.dir st.inner code clk) := by
  unfold tailMissed
  split
  · split
    · split_ifs with howner hpoll
      · have hsib : SiblingName st.inner.inst (logName ⟨_, howner.2⟩) :=
          ⟨isShardLog_logName _, fun h ↦ howner.1 (congrArg Fin.val (logName_injective h))⟩
        exact (onlyTail_readTail (.inr hsib) (hs.files.content_sibling hsib)).trans
          (OnlyTail.withLastPoll _ _)
      · exact hs.onlyTail_pollLocked ord _
      · exact OnlyTail.refl _
    · split_ifs
      · exact hs.onlyTail_pollLocked ord _
      · exact OnlyTail.refl _
  · exact OnlyTail.refl _

/-- A change of memory that keeps the index own keeps the shape. -/
theorem mapInner {f : Inner → Inner} (htidy : Tidy (st.mapInner f))
    (hindex : (f st.inner).OwnIndex)
    (hreaders : ∀ n ∈ (f st.inner).tail.readers, SiblingName st.inner.inst n)
    (hinst : (f st.inner).inst = st.inner.inst) : Solo (st.mapInner f) := by
  refine ⟨htidy, hindex, ?_, ?_⟩
  · rw [Store.mapInner, hinst]
    exact hreaders
  · rw [Store.mapInner, hinst]
    exact hs.files

theorem onlyTail {f : Inner → Inner} (h : OnlyTail st.inner (f st.inner)) :
    Solo (st.mapInner f) := by
  have htidy : Tidy (st.mapInner f) := by
    refine hs.toTidy.mapInner (fun {k c} hc ↦ ?_) h.aof h.inst
    rw [h.shards] at hc
    exact hs.dirty hc
  refine hs.mapInner htidy ?_ ?_ h.inst
  · have hfind : ∀ c, (f st.inner).find c = st.inner.find c := fun c ↦ by
      rw [Inner.find, h.shards, Inner.find]
    exact { codeOk := fun hc ↦ hs.index.codeOk ((hfind _).symm.trans hc),
            owner := fun hc ↦ h.inst ▸ hs.index.owner ((hfind _).symm.trans hc),
            hits := fun hc ↦ hs.index.hits ((hfind _).symm.trans hc),
            stray := fun hc ↦ hs.index.stray (h.stray ▸ hc) }
  · intro n hn
    rcases h.readers n hn with hn | hn
    · exact hs.readers n hn
    · exact hn

/-! ### Changes of the index -/

theorem bind {code : Bytes} (hc : codeOk code = true) (url : Bytes) (now exp : Int64) :
    Solo (st.bind code url now exp) :=
  hs.mapInner (hs.toTidy.put _ _) (hs.index.put hc rfl rfl) hs.readers rfl

/-- Replacing an entry by one with the same owner and equal counters. -/
theorem replace {code : Bytes} {e e' : Entry} (hf : st.inner.find code = some e)
    (hi : e'.i = e.i) (hh : e'.h = e'.oh) : Solo (st.mapInner (·.put code e')) :=
  hs.mapInner (hs.toTidy.put _ _)
    (hs.index.put (hs.index.codeOk hf) (hi.trans (hs.index.owner hf)) hh) hs.readers rfl

theorem lookup (code : Bytes) (now : Int64) (track : Bool) :
    Solo (st.lookup code now track).1 := by
  rcases st.lookup_cases code now track with ⟨e, hf, -, h⟩ | ⟨r, h, -, -⟩
  · rw [h]
    refine hs.replace hf rfl ?_
    rw [Store.bumped, hs.index.hits hf]
  · rw [h]
    exact hs

theorem updateIndex {code url : Bytes} {ttl : Int64} {hasTtl : Bool} {now : Int64} {st' : Store}
    {line : Bytes} (h : st.updateIndex code url ttl hasTtl now = .ok (st', line)) : Solo st' := by
  obtain ⟨e, exp, hf, -, rfl, -⟩ := Store.updateIndex_eq_ok h
  have hhits : e.h = e.oh := hs.index.hits hf
  exact hs.replace hf rfl hhits

theorem removeIndex {code : Bytes} {st' : Store} {line : Bytes}
    (h : st.removeIndex code = .ok (st', line)) : Solo st' := by
  obtain ⟨e, -, -, rfl, -⟩ := Store.removeIndex_eq_ok h
  exact hs.mapInner (hs.toTidy.erase code) (hs.index.erase code) hs.readers rfl

theorem markDirty {code : Bytes} (hc : codeOk code = true) : Solo (st.markDirty code) := by
  refine hs.mapInner (hs.toTidy.markDirty hc) ?_ hs.readers rfl
  have hfind : ∀ c, (st.markDirty code).inner.find c = st.inner.find c :=
    fun c ↦ Shards.find_addDirty st.inner.shards code c
  exact { codeOk := fun h ↦ hs.index.codeOk ((hfind _).symm.trans h),
          owner := fun h ↦ hs.index.owner ((hfind _).symm.trans h),
          hits := fun h ↦ hs.index.hits ((hfind _).symm.trans h),
          stray := hs.index.stray }

theorem drainShard (k : Fin NUM_SHARDS) : Solo (st.drainShard k) := by
  refine hs.mapInner (hs.toTidy.drainShard k) ?_ hs.readers rfl
  have hfind : ∀ c, (st.drainShard k).inner.find c = st.inner.find c :=
    fun c ↦ Shards.find_drain st.inner.shards k c
  exact { codeOk := fun h ↦ hs.index.codeOk ((hfind _).symm.trans h),
          owner := fun h ↦ hs.index.owner ((hfind _).symm.trans h),
          hits := fun h ↦ hs.index.hits ((hfind _).symm.trans h),
          stray := hs.index.stray }

theorem readTails (code : Bytes) (clk : Clock) (ord : Order) : Solo (st.readTails code clk ord) :=
  hs.onlyTail (hs.onlyTail_tailMissed ord code clk)

theorem pollTails (ord : Order) (now : Int64) : Solo (st.pollTails ord now) := by
  rw [Store.pollTails]
  split_ifs
  · exact hs
  · exact hs.onlyTail (hs.onlyTail_pollLocked ord now)

/-! ### Changes of the files -/

/-- A change of the files and of the buffer alone. -/
theorem withFiles {d : Dir} {b : Bytes} (hd : SoloDir st.inner.inst d)
    (hb : IsLog st.inner.inst b) :
    Solo { dir := d, inner := { st.inner with
      aof := some { buf := b, path := logName st.inner.inst } } } where
  toTidy := hs.toTidy.withFiles hd.isLog_log hb
  index := { codeOk := hs.index.codeOk, owner := hs.index.owner, hits := hs.index.hits,
             stray := hs.index.stray }
  readers := hs.readers
  files := hd

theorem withDir {d : Dir} (hd : SoloDir st.inner.inst d) : Solo { st with dir := d } := by
  have h := hs.withFiles hd hs.isLog_buf
  rwa [← hs.aof] at h

theorem pushRaw {b : Bytes} (hb : IsLog st.inner.inst b) : Solo (st.pushRaw b) := by
  rw [hs.pushRaw_eq]
  exact hs.withFiles hs.files (hs.isLog_buf.append hb)

/-- A directory in which only the own log has changed. -/
theorem soloDir_of_log {d : Dir} (hmem : ∀ n, n ∈ d → n = logName st.inner.inst ∨ n ∈ st.dir)
    {b : Bytes} (hcontent : ∀ n, d.content n = if n = logName st.inner.inst then b
      else st.dir.content n) (hb : IsLog st.inner.inst b) : SoloDir st.inner.inst d := by
  refine hs.files.congr (fun n hn ↦ ?_) ?_ ?_ ?_
  · rcases hmem n hn with rfl | hn
    · exact fun h ↦ h.2 rfl
    · exact hs.files.logs n hn
  · rw [hcontent, if_pos rfl]
    exact hb
  · rw [hcontent, if_neg (snapName_ne_logName _ _)]
  · rw [hcontent, if_neg (tmpName_ne_logName _ _)]

theorem flushAof : Solo st.flushAof := by
  obtain ⟨d, heq, hmem, hcontent⟩ := hs.flushAof_eq
  rw [heq]
  exact hs.withFiles (hs.soloDir_of_log hmem hcontent (hs.isLog_log.append hs.isLog_buf)) isLog_nil

theorem flushIfFull : Solo st.flushIfFull := by
  rcases hs.flushIfFull_cases with h | h
  · rw [h]
    exact hs.flushAof
  · rw [h]
    exact hs

theorem writeTmp {b : Bytes} (hb : ReplaysOwn st.inner.inst b) : Solo (st.writeTmp b) := by
  refine hs.withDir (hs.files.write ?_ (fun h ↦ absurd h (tmpName_ne_logName _ _)) hb)
  exact fun h ↦ absurd h.1 (by rw [not_isShardLog_tmpName]; decide)

theorem renameTmp : Solo st.renameTmp := hs.withDir hs.files.rename

theorem truncateAof : Solo st.truncateAof := by
  obtain ⟨d, heq, hmem, hcontent⟩ := hs.truncateAof_eq
  rw [heq]
  exact hs.withFiles (hs.soloDir_of_log hmem hcontent isLog_nil) isLog_nil

/-! ### The lines it writes -/

theorem codeOk_of_mem_shardRows {ord : Order} {k : Fin NUM_SHARDS} :
    ∀ p ∈ st.inner.shards.shardRows ord k, codeOk p.1 = true := fun _ hp ↦
  hs.index.codeOk (Store.find_of_mem_shardRows hp)

/-- Every row of a shard goes into the snapshot, since every entry is the instance's own. -/
theorem shardRowLines_eq (ord : Order) (k : Fin NUM_SHARDS) :
    st.shardRowLines ord k = rowLines (st.inner.shards.shardRows ord k) := by
  have hall : ∀ p ∈ st.inner.shards.shardRows ord k,
      decide (p.2.i = instInt st.inner.inst) = true :=
    fun p hp ↦ decide_eq_true (hs.index.owner (Store.find_of_mem_shardRows hp))
  rw [Store.shardRowLines, List.filter_eq_self.mpr hall, rowLines]

theorem isLog_shardRowLines (ord : Order) (k : Fin NUM_SHARDS) :
    IsLog st.inner.inst (st.shardRowLines ord k) := by
  rw [hs.shardRowLines_eq]
  exact isLog_rowLines hs.codeOk_of_mem_shardRows fun p hp ↦
    hs.index.owner (Store.find_of_mem_shardRows hp)

end Solo

end Shrt
