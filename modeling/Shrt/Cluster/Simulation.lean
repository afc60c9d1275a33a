import Shrt.Cluster.Basic

/-!
# What an instance does, seen from above

Each thing an instance does to the files and to its memory is an action of the abstract nodes:
pushing entries, moving the buffer to the log, reading on in a log of which a first part can be
seen, compacting, and opening. All of them keep the shape of the cluster.

Moving the buffer is the one that needs a condition. A log that was truncated and grows again past a
reader's offset before the reader looks is taken for the old log, and read from the middle.
-/

namespace Shrt

open LastWrite (Write replay)
open Replication (Action act)
open Transition (Reaches)

namespace Cluster

variable {s : Cluster} {k : InstanceId} {inner : Inner} {st' : Store}

/-! ## One instance changes -/

section Set

variable (s) (st : Store) (k)

@[simp] theorem log_set (i : InstanceId) : (s.set k st).log i = st.dir.content (logName i) := rfl

@[simp] theorem snap_set (i : InstanceId) : (s.set k st).snap i = st.dir.content (snapName i) := rfl

theorem links_set (i : InstanceId) :
    (s.set k st).links i = if i = k then st.inner.links else s.links i := by
  rw [links, links]
  split_ifs with h
  · rw [h, nodes_set_self]
    rfl
  · rw [nodes_set_of_ne s h]

theorem buf_set (i : InstanceId) : (s.set k st).buf i = if i = k then st.buf else s.buf i := by
  rw [buf, buf]
  split_ifs with h
  · rw [h, nodes_set_self]
    rfl
  · rw [nodes_set_of_ne s h]

theorem reader_set (i j : InstanceId) :
    (s.set k st).reader i j = if i = k then st.inner.reader j else s.reader i j := by
  rw [reader, reader]
  split_ifs with h
  · rw [h, nodes_set_self]
    rfl
  · rw [nodes_set_of_ne s h]

/-- The abstract picture after a change by one instance. -/
theorem abs_set : (s.set k st).abs =
    { alive := Function.update s.abs.alive k true
      view := Function.update s.abs.view k st.inner.links
      snap := fun i ↦ writesOf (st.dir.content (snapName i))
      log := fun i ↦ writesOf (st.dir.content (logName i))
      buffer := Function.update s.abs.buffer k (writesOf st.buf)
      unread := fun i j ↦ writesOf
        ((if i = k then st.inner.reader j else s.reader i j).unread (st.dir.content (logName j))) } := by
  refine Replication.State.ext (funext fun i ↦ ?_) (funext fun i ↦ ?_) rfl rfl (funext fun i ↦ ?_)
    (funext fun i ↦ funext fun j ↦ ?_)
  · simp only [abs, set, Function.update_apply]
    split_ifs <;> rfl
  · simp only [abs, links_set, Function.update_apply]
  · simp only [abs, buf_set, Function.update_apply]
    split_ifs <;> rfl
  · simp only [abs, unread, reader_set, log_set]

end Set

theorem alive_of_node (h : s.nodes k = some inner) : s.abs.alive k = true :=
  Option.isSome_iff_exists.mpr ⟨inner, h⟩

theorem alive_eq (h : s.nodes k = some inner) : Function.update s.abs.alive k true = s.abs.alive :=
  Function.update_eq_self_iff.mpr (alive_of_node h).symm

theorem links_eq (h : s.nodes k = some inner) : s.links k = inner.links := by
  rw [links, h]
  rfl

theorem buf_eq (h : s.nodes k = some inner) : s.buf k = (⟨s.dir, inner⟩ : Store).buf := by
  rw [buf, h]
  rfl

theorem reader_eq (h : s.nodes k = some inner) (j : InstanceId) : s.reader k j = inner.reader j := by
  rw [reader, h]
  rfl

/-- A change by one instance keeps the shape, when it leaves the files of the others alone and its
log and readers are left at whole lines. -/
theorem Formed.set (hs : Formed s) (hm : Member k st')
    (hlog : ∀ i, i ≠ k → st'.dir.content (logName i) = s.log i)
    (hsnap : ∀ i, i ≠ k → st'.dir.content (snapName i) = s.snap i)
    (hnames : ∀ n ∈ st'.dir, isShardLog n = true → n = logName k ∨ n ∈ s.dir)
    (hfile : logName k ∈ st'.dir) (hfiles : ∀ i, logName i ∈ s.dir → logName i ∈ st'.dir)
    (hisSnap : IsLog k (st'.dir.content (snapName k)))
    (hread : ∀ j, IsLog j ((st'.inner.reader j).unread (st'.dir.content (logName j))))
    (hreaders : ∀ i, i ≠ k → IsLog k ((s.reader i k).unread (st'.dir.content (logName k)))) :
    Formed (s.set k st') where
  member := by
    intro i inner hi
    by_cases hik : i = k
    · subst hik
      rw [nodes_set_self] at hi
      obtain rfl := Option.some.inj hi
      exact hm
    · rw [nodes_set_of_ne s hik] at hi
      have hmi := hs.member hi
      have hisLog : IsLog inner.inst (st'.dir.content (logName inner.inst)) := by
        have hinst : inner.inst = i := hmi.inst
        rw [hinst, hlog i hik]
        exact hs.isLog_log i
      exact ⟨hmi.toTidy.withDir hisLog, hmi.inst, hmi.codes, hmi.siblings, hmi.sound⟩
  absent := by
    intro i hi
    have hik : i ≠ k := by
      rintro rfl
      rw [nodes_set_self] at hi
      exact nomatch hi
    rw [nodes_set_of_ne s hik] at hi
    rw [log_set, snap_set, hlog i hik, hsnap i hik]
    exact hs.absent hi
  names := fun n hn hshard ↦ (hnames n hn hshard).elim (fun h ↦ ⟨k, h⟩)
    fun h ↦ hs.names n h hshard
  file := by
    intro i hi
    by_cases hik : i = k
    · exact hik ▸ hfile
    · rw [nodes_set_of_ne s hik] at hi
      exact hfiles i (hs.file hi)
  isLog_snap := by
    intro i
    rw [snap_set]
    by_cases hik : i = k
    · exact hik ▸ hisSnap
    · rw [hsnap i hik]
      exact hs.isLog_snap i
  isLog_unread := by
    intro i j
    rw [unread, reader_set, log_set]
    split_ifs with hik
    · exact hread j
    · by_cases hjk : j = k
      · rw [hjk]
        exact hreaders i hik
      · rw [hlog j hjk]
        exact hs.isLog_unread i j

/-- An instance does not follow its own log. -/
theorem Member.reader_self {st : Store} (hm : Member k st) : st.inner.reader k = {} := by
  have hnot : logName k ∉ st.inner.tail.readers := by
    intro hmem
    obtain ⟨j, hj, hname⟩ := hm.siblings _ hmem
    rw [hm.inst] at hj
    exact hj (logName_injective hname).symm
  rw [Inner.reader, AList.lookup_eq_none.mpr hnot]
  rfl

/-- No log is shorter than what has been read of it. -/
def Within (s : Cluster) : Prop := ∀ i j, (s.reader i j).offset ≤ (s.log j).length

theorem within_empty : Within empty := fun _ _ ↦ le_rfl

theorem Within.set (hw : Within s)
    (hlog : ∀ j, (s.log j).length ≤ (st'.dir.content (logName j)).length)
    (hread : ∀ j, (st'.inner.reader j).offset ≤ (st'.dir.content (logName j)).length) :
    Within (s.set k st') := by
  intro i j
  rw [reader_set, log_set]
  split_ifs
  · exact hread j
  · exact (hw i j).trans (hlog j)

/-- Readers that have not moved stay within logs that have not shrunk. -/
theorem Within.set_of_eq (hw : Within s) (hk : s.nodes k = some inner)
    (hlog : ∀ j, (s.log j).length ≤ (st'.dir.content (logName j)).length)
    (hreader : ∀ j, st'.inner.reader j = inner.reader j) : Within (s.set k st') := by
  refine hw.set hlog fun j ↦ ?_
  rw [hreader, ← reader_eq hk]
  exact (hw k j).trans (hlog j)

/-- A change of memory keeps the shape, when it leaves the readers at whole lines. -/
theorem Formed.set_inner (hs : Formed s) (hk : s.nodes k = some inner) {inner' : Inner}
    (hm : Member k ⟨s.dir, inner'⟩) (hread : ∀ j, IsLog j ((inner'.reader j).unread (s.log j))) :
    Formed (s.set k ⟨s.dir, inner'⟩) :=
  hs.set hm (fun _ _ ↦ rfl) (fun _ _ ↦ rfl) (fun _ hn _ ↦ .inr hn) (hs.file (alive_of_node hk))
    (fun _ hi ↦ hi) (hs.isLog_snap k) hread fun i _ ↦ hs.isLog_unread i k

/-- Readers that have not moved are at whole lines. -/
theorem Formed.isLog_unread_of_eq (hs : Formed s) (hk : s.nodes k = some inner) {inner' : Inner}
    (hreader : ∀ j, inner'.reader j = inner.reader j) (j : InstanceId) :
    IsLog j ((inner'.reader j).unread (s.log j)) := by
  rw [hreader, ← reader_eq hk]
  exact hs.isLog_unread k j

/-- The abstract picture after a change of memory that moves no reader. -/
theorem abs_set_inner (hk : s.nodes k = some inner) {inner' : Inner}
    (hreader : ∀ j, inner'.reader j = inner.reader j) : (s.set k ⟨s.dir, inner'⟩).abs =
      { s.abs with
        view := Function.update s.abs.view k inner'.links
        buffer := Function.update s.abs.buffer k (writesOf (⟨s.dir, inner'⟩ : Store).buf) } := by
  rw [abs_set, alive_eq hk]
  refine Replication.State.ext rfl rfl rfl rfl rfl (funext fun i ↦ funext fun j ↦ ?_)
  simp only
  split_ifs with hik
  · rw [hreader, hik, ← reader_eq hk]
    rfl
  · rfl

/-! ## Writing -/

/-- An instance that goes on following its siblings as before. -/
theorem Member.of_tail {st : Store} (hm : Member k st) (htidy : Tidy st')
    (hinst : st'.inner.inst = st.inner.inst)
    (htail : st'.inner.tail = st.inner.tail)
    (hcodes : ∀ c, (st'.inner.links c).isSome = true → codeOk c = true) : Member k st' := by
  refine ⟨htidy, hinst.trans hm.inst, hcodes, fun n hn ↦ ?_, fun j ↦ ?_⟩
  · rw [htail] at hn
    rw [hinst]
    exact hm.siblings n hn
  · rw [Inner.reader, htail]
    exact hm.sound j

/-- Pushing entries. -/
theorem sim_push (hs : Formed s) (hk : s.nodes k = some inner)
    {ws : List (Write Bytes LinkRow)} (h : Pushes ⟨s.dir, inner⟩ st' ws) :
    Formed (s.set k st') ∧ (s.set k st').abs = act s.abs (.push k ws) ∧
      (Within s → Within (s.set k st')) := by
  have hm := hs.member hk
  have hinst : inner.inst = k := hm.inst
  have hreader : ∀ j, st'.inner.reader j = inner.reader j := fun j ↦ by
    rw [Inner.reader, h.tail, Inner.reader]
  obtain ⟨d, inner'⟩ := st'
  obtain rfl : d = s.dir := h.dir
  refine ⟨?_, ?_, fun hw ↦ hw.set_of_eq hk (fun _ ↦ le_rfl) hreader⟩
  · refine hs.set_inner hk (hm.of_tail h.tidy h.inst h.tail fun c hc ↦ ?_)
      (hs.isLog_unread_of_eq hk hreader)
    -- A code has a link because it had one, or because an entry gives it one.
    by_cases hsilent : LastWrite.Silent c ws
    · rw [h.links, hsilent.replay] at hc
      exact hm.codes c hc
    · obtain ⟨w, hw, rfl⟩ := LastWrite.not_silent.mp hsilent
      exact h.codes w hw
  · have hview : s.abs.view k = inner.links := links_eq hk
    have hbuffer : s.abs.buffer k = writesOf (⟨s.dir, inner⟩ : Store).buf :=
      congrArg writesOf (buf_eq hk)
    rw [abs_set_inner hk hreader, act, hview, hbuffer, h.links, h.buf]

/-- Moving the buffer to the log, when no reader is overtaken. -/
theorem sim_flush (hs : Formed s) (hk : s.nodes k = some inner) (h : Flushes ⟨s.dir, inner⟩ st')
    (hover : ∀ i, i ≠ k → (s.log k).length < (s.reader i k).offset →
      ((s.set k st').log k).length < (s.reader i k).offset) :
    Formed (s.set k st') ∧ (s.set k st').abs = act s.abs (.flush k) ∧
      (Within s → Within (s.set k st')) := by
  have hm := hs.member hk
  have hinst : inner.inst = k := hm.inst
  have hinst' : st'.inner.inst = k := h.inst.trans hinst
  have hreader : ∀ j, st'.inner.reader j = inner.reader j := fun j ↦ by
    rw [Inner.reader, h.tail, Inner.reader]
  have hm' : Member k st' :=
    hm.of_tail h.tidy h.inst h.tail fun c hc ↦ hm.codes c (by rwa [h.links] at hc)
  obtain ⟨b, hb, hblog, hbwrites⟩ := h.log
  have hb : IsLog k b := hinst ▸ hb
  have hlog' : st'.dir.content (logName k) = s.log k ++ b := by
    rw [Store.log, hinst', Store.log] at hblog
    rw [hblog]
    exact congrArg (fun i ↦ s.dir.content (logName i) ++ b) hinst
  have hcontent : ∀ n, n ≠ logName k → st'.dir.content n = s.dir.content n := fun n hn ↦
    h.content n (by rw [hinst]; exact hn)
  have hothers : ∀ i, i ≠ k → st'.dir.content (logName i) = s.log i := fun i hi ↦
    hcontent _ fun hname ↦ hi (logName_injective hname)
  have hmem : ∀ n, n ∈ st'.dir → n = logName k ∨ n ∈ s.dir := fun n hn ↦ by
    have := h.mem n hn
    rwa [hinst] at this
  -- No reader is overtaken, so all of them have the new bytes to read.
  have hunread : ∀ i, (s.reader i k).unread (s.log k ++ b) = s.unread i k ++ b := by
    intro i
    refine TailReader.unread_append fun hstale ↦ ?_
    by_cases hik : i = k
    · rw [hik, reader_eq hk, hm.reader_self] at hstale
      exact absurd hstale (Nat.not_lt_zero _)
    · rw [← hlog']
      exact hover i hik hstale
  refine ⟨?_, ?_, fun hw ↦ hw.set_of_eq hk (fun j ↦ ?_) hreader⟩
  · refine hs.set hm' hothers (fun i _ ↦ hcontent _ (snapName_ne_logName _ _)) (fun n hn _ ↦ hmem n hn)
      (h.kept _ (hs.file (alive_of_node hk))) (fun i hi ↦ h.kept _ hi) ?_ (fun j ↦ ?_) fun i _ ↦ ?_
    · rw [hcontent _ (snapName_ne_logName _ _)]
      exact hs.isLog_snap k
    · rw [hreader, ← reader_eq hk]
      by_cases hjk : j = k
      · rw [hjk, hlog', hunread]
        exact (hs.isLog_unread k k).append hb
      · rw [hothers j hjk]
        exact hs.isLog_unread k j
    · rw [hlog', hunread]
      exact (hs.isLog_unread i k).append hb
  · have hbuf : s.abs.buffer k = writesOf b := by
      rw [hbwrites, ← buf_eq hk]
      rfl
    rw [abs_set, alive_eq hk]
    refine Replication.State.ext rfl ?_ (funext fun i ↦ ?_) (funext fun i ↦ ?_) ?_
      (funext fun i ↦ funext fun j ↦ ?_)
    · have hlinks : st'.inner.links = s.abs.view k := h.links.trans (links_eq hk).symm
      rw [hlinks, Function.update_eq_self]
      rfl
    · simp only [hcontent _ (snapName_ne_logName i k)]
      rfl
    · simp only [act, Function.update_apply]
      split_ifs with hik
      · rw [hik, hlog', writesOf_append (hs.isLog_log k), hbuf]
        rfl
      · rw [hothers i hik]
        rfl
    · rw [act, h.buf, writesOf_nil]
    · have hsame : (if i = k then st'.inner.reader j else s.reader i j) = s.reader i j := by
        split_ifs with hik
        · rw [hreader, hik, reader_eq hk]
        · rfl
      simp only [hsame, act]
      split_ifs with hjk
      · rw [hjk, hlog', hunread, writesOf_append (hs.isLog_unread i k), hbuf]
        rfl
      · rw [hothers j hjk]
        rfl
  · by_cases hjk : j = k
    · rw [hjk, hlog', List.length_append]
      exact Nat.le_add_right _ _
    · rw [hothers j hjk]

/-! ## Reading -/

theorem buffer_eq (hk : s.nodes k = some inner) {inner' : Inner} (haof : inner'.aof = inner.aof) :
    writesOf (⟨s.dir, inner'⟩ : Store).buf = s.abs.buffer k := by
  refine congrArg writesOf (Eq.trans ?_ (buf_eq hk).symm)
  rw [Store.buf, haof, Store.buf]

/-- A change that nobody sees. -/
theorem sim_quiet (hs : Formed s) (hk : s.nodes k = some inner) {inner' : Inner}
    (hm : Member k ⟨s.dir, inner'⟩) (hlinks : inner'.links = inner.links)
    (haof : inner'.aof = inner.aof) (hreader : ∀ j, inner'.reader j = inner.reader j) :
    Formed (s.set k ⟨s.dir, inner'⟩) ∧ (s.set k ⟨s.dir, inner'⟩).abs = s.abs ∧
      (Within s → Within (s.set k ⟨s.dir, inner'⟩)) := by
  have hview : inner'.links = s.abs.view k := hlinks.trans (links_eq hk).symm
  refine ⟨hs.set_inner hk hm (hs.isLog_unread_of_eq hk hreader), ?_,
    fun hw ↦ hw.set_of_eq hk (fun _ ↦ le_rfl) hreader⟩
  rw [abs_set_inner hk hreader, hview, buffer_eq hk haof, Function.update_eq_self,
    Function.update_eq_self]

/-- Reading on in a log, of which a first part can be seen. -/
theorem sim_read (hs : Formed s) (hk : s.nodes k = some inner) {d : Dir} (hd : s.Sees inner d)
    (ord : Order) {j : InstanceId} (hj : j ≠ k) :
    Formed (s.set k ⟨s.dir, readTail ord d inner (logName j)⟩) ∧
      s.Sees (readTail ord d inner (logName j)) d ∧
      (∃ n, (s.set k ⟨s.dir, readTail ord d inner (logName j)⟩).abs = act s.abs (.read k j n)) ∧
      (d = s.dir → (s.set k ⟨s.dir, readTail ord d inner (logName j)⟩).unread k j = []) ∧
      (Within s → Within (s.set k ⟨s.dir, readTail ord d inner (logName j)⟩)) := by
  have hm := hs.member hk
  have hinst : inner.inst = k := hm.inst
  have hj' : j ≠ inner.inst := hinst ▸ hj
  have hfollow : Follow d inner (some j) (readTail ord d inner (logName j)) := Follow.read ord hj'
  obtain ⟨hidden, hlog⟩ := hd.logs j
  have hlog : d.content (logName j) ++ hidden = s.log j := hlog
  have hkept := hd.kept j
  rw [← log, ← hlog] at hkept
  obtain ⟨x, hx, hlines, hrest, hoff, hsound⟩ := TailReader.readNew_spec (hm.sound j) hkept
  rw [hlog] at hx hrest
  -- The new memory, as lines folded into the old one with a new reader.
  have heq := readTail_eq ord d inner j
  generalize (inner.reader j).readNew (d.content (logName j)) = r at hlines hrest hoff hsound heq
  obtain ⟨lines, t⟩ := r
  generalize readTail ord d inner (logName j) = inner' at heq hfollow ⊢
  simp only at hlines hrest hoff hsound heq
  have hreader : ∀ i, inner'.reader i = if i = j then t else inner.reader i := by
    intro i
    rw [heq, ← Inner.reader_setReader, Inner.reader, Inner.reader,
      foldl_applyLine_keeps (f := fun s ↦ s.tail.readers) (apply_readers ord)]
  have haof : inner'.aof = inner.aof := by
    rw [heq]
    exact foldl_applyLine_keeps (f := Inner.aof) (apply_aof ord) _ _
  have hdirty : ∀ i, (inner'.shards i).dirty = (inner.shards i).dirty := by
    intro i
    rw [heq]
    exact foldl_applyLine_keeps (f := fun s ↦ (s.shards i).dirty) (fun s o ↦ apply_dirty ord s o i) _ _
  obtain ⟨ds, hds⟩ : ∃ ds, ds = (lines.filterMap parseOp).flatMap Op.writes := ⟨_, rfl⟩
  have hlinks : inner'.links = replay inner.links ds := by
    rw [heq, foldl_applyLine, links_foldl_apply, hds]
    rfl
  -- What was left to read is what has been read and what is left now.
  have hunread : s.unread k j = x ++ hidden := by rw [unread, reader_eq hk, hx]
  have hsplit : writesOf (s.unread k j) = ds ++ writesOf (t.unread (s.log j)) := by
    rw [hunread, hrest, writesOf, replayOps_cut, List.flatMap_append, hds, hlines]
    rfl
  have hleft : IsLog j (t.unread (s.log j)) := by
    have := hs.isLog_unread k j
    rw [hunread] at this
    rw [hrest]
    exact this.cut_tail
  have hm' : Member k ⟨s.dir, inner'⟩ := by
    refine ⟨?_, hfollow.inst.trans hinst, fun c hc ↦ ?_, hfollow.followsSiblings hm.siblings, fun i ↦ ?_⟩
    · refine hm.toTidy.mapInner (f := fun _ ↦ inner') (fun {i c} hc ↦ ?_) haof hfollow.inst
      rw [hdirty] at hc
      exact hm.dirty hc
    · by_cases hsilent : LastWrite.Silent c ds
      · rw [hlinks, hsilent.replay] at hc
        exact hm.codes c hc
      · obtain ⟨w, hw, rfl⟩ := LastWrite.not_silent.mp hsilent
        refine (hs.isLog_unread k j).codeOk_of_mem ?_
        rw [hsplit]
        exact List.mem_append_left _ hw
    · rw [hreader]
      split_ifs
      · exact hsound
      · exact hm.sound i
  refine ⟨hs.set_inner hk hm' fun i ↦ ?_, ⟨hd.keys, hd.logs, fun i ↦ ?_⟩, ⟨ds.length, ?_⟩, ?_,
    fun hw ↦ hw.set (fun _ ↦ le_rfl) fun i ↦ ?_⟩
  · rw [hreader]
    split_ifs with hij
    · exact hij ▸ hleft
    · rw [← reader_eq hk]
      exact hs.isLog_unread k i
  · rw [hreader]
    split_ifs with hij
    · rw [hij, hoff]
      exact .inl le_rfl
    · exact hd.kept i
  · have hview : s.abs.view k = inner.links := links_eq hk
    have hun : s.abs.unread k j = ds ++ writesOf (t.unread (s.log j)) := hsplit
    rw [abs_set, alive_eq hk]
    refine Replication.State.ext rfl ?_ rfl rfl ?_ (funext fun i ↦ funext fun j' ↦ ?_)
    · rw [act, hview, hun, List.take_left, hlinks]
    · rw [buffer_eq hk haof, Function.update_eq_self]
      rfl
    · simp only [act]
      rw [hun, List.drop_left]
      by_cases hik : i = k
      · subst hik
        by_cases hjj : j' = j
        · subst hjj
          rw [if_pos rfl, if_pos ⟨rfl, rfl⟩, hreader, if_pos rfl]
          rfl
        · rw [if_pos rfl, if_neg fun hc ↦ hjj hc.2, hreader, if_neg hjj, ← reader_eq hk]
          rfl
      · rw [if_neg hik, if_neg fun hc ↦ hik hc.1]
        rfl
  · -- Whole lines without a newline are no lines.
    rintro rfl
    have hnone : hidden = [] := List.append_right_eq_self.mp hlog
    rw [unread, reader_set, if_pos rfl, log_set, hreader, if_pos rfl]
    refine hleft.eq_nil ?_
    rw [hrest, hnone, List.append_nil]
    exact Framing.notMem_cut_snd x [] List.not_mem_nil
  · rw [hreader]
    split_ifs with hij
    · rw [hij, hoff]
      exact (hd.logs j).length_le
    · rw [← reader_eq hk]
      exact hw k i

/-- The abstract nodes of the cluster. -/
abbrev Nodes := Replication.State InstanceId Bytes LinkRow

/-- What the abstract nodes do while an instance reads. -/
def Reading (k : InstanceId) (σ : Nodes) (a : Action InstanceId Bytes LinkRow) : Prop :=
  σ.alive k = true ∧ ∃ j n, j ≠ k ∧ a = .read k j n

/-- The abstract nodes take an action. -/
def actStep (σ : Nodes) (a : Action InstanceId Bytes LinkRow) : Option Nodes := some (act σ a)

/-- One step of following siblings. -/
theorem sim_follow (hs : Formed s) (hk : s.nodes k = some inner) {d : Dir} (hd : s.Sees inner d)
    {o : Option InstanceId} {inner' : Inner} (h : Follow d inner o inner') :
    Formed (s.set k ⟨s.dir, inner'⟩) ∧ s.Sees inner' d ∧
      Reaches actStep (Reading k) s.abs (s.set k ⟨s.dir, inner'⟩).abs ∧
      (d = s.dir → ∀ j, j ∈ o ∨ s.abs.unread k j = [] →
        (s.set k ⟨s.dir, inner'⟩).abs.unread k j = []) ∧
      (Within s → Within (s.set k ⟨s.dir, inner'⟩)) := by
  have hm := hs.member hk
  have hinst : inner.inst = k := hm.inst
  -- Steps that read nothing are not seen.
  have hquiet : ∀ {inner' : Inner}, Follow d inner none inner' → inner'.links = inner.links →
      inner'.aof = inner.aof → inner'.shards = inner.shards →
      (∀ j, inner'.reader j = inner.reader j) → Formed (s.set k ⟨s.dir, inner'⟩) ∧ s.Sees inner' d ∧
      Reaches actStep (Reading k) s.abs (s.set k ⟨s.dir, inner'⟩).abs ∧
      (d = s.dir → ∀ j, j ∈ (none : Option InstanceId) ∨ s.abs.unread k j = [] →
        (s.set k ⟨s.dir, inner'⟩).abs.unread k j = []) ∧
      (Within s → Within (s.set k ⟨s.dir, inner'⟩)) := by
    intro inner' hf hlinks haof hshards hreader
    have hm' : Member k ⟨s.dir, inner'⟩ := by
      refine ⟨?_, hf.inst.trans hinst, fun c hc ↦ ?_, hf.followsSiblings hm.siblings, fun j ↦ ?_⟩
      · refine hm.toTidy.mapInner (f := fun _ ↦ inner') (fun {i c} hc ↦ ?_) haof hf.inst
        rw [hshards] at hc
        exact hm.dirty hc
      · rw [hlinks] at hc
        exact hm.codes c hc
      · rw [hreader]
        exact hm.sound j
    obtain ⟨hformed, habs, hwithin⟩ := sim_quiet hs hk hm' hlinks haof hreader
    refine ⟨hformed, ⟨hd.keys, hd.logs, fun j ↦ ?_⟩, ?_, fun _ j hj ↦ ?_, hwithin⟩
    · rw [hreader]
      exact hd.kept j
    · rw [habs]
      exact Reaches.refl _
    · rw [habs]
      exact hj.resolve_left (Option.not_mem_none j)
  cases h with
  | @read ord _ j hj =>
    have hjk : j ≠ k := fun hjk ↦ hj (hjk.trans hinst.symm)
    obtain ⟨hformed, hsees, ⟨n, habs⟩, hcaught, hwithin⟩ := sim_read hs hk hd ord hjk
    refine ⟨hformed, hsees, ?_, fun hdir j' hj' ↦ ?_, hwithin⟩
    · rw [habs]
      exact Reaches.single rfl ⟨alive_of_node hk, j, n, hjk, rfl⟩
    · by_cases hjj : j' = j
      · subst hjj
        exact (congrArg writesOf (hcaught hdir)).trans writesOf_nil
      · have hnil := hj'.resolve_left fun h ↦ hjj (Option.some.inj h).symm
        rw [habs]
        exact (if_neg fun hc ↦ hjj hc.2).trans hnil
  | @start _ j hj hnew =>
    refine hquiet (.start hj hnew) rfl rfl rfl fun i ↦ ?_
    rw [Inner.reader_setReader]
    split_ifs with hij
    · rw [hij, Inner.reader, AList.lookup_eq_none.mpr hnew]
      rfl
    · rfl
  | time now => exact hquiet (.time inner _) rfl rfl rfl fun _ ↦ rfl

/-- **Following siblings** is reading entries from logs. All that is in a log has been read when the
whole of it could be seen. -/
theorem sim_follows {d : Dir} {js : List InstanceId} {inner inner' : Inner}
    (h : Follows d inner js inner') : ∀ {s : Cluster}, Formed s → s.nodes k = some inner →
      s.Sees inner d → Formed (s.set k ⟨s.dir, inner'⟩) ∧
      Reaches actStep (Reading k) s.abs (s.set k ⟨s.dir, inner'⟩).abs ∧
      (d = s.dir → ∀ j, j ∈ js ∨ s.abs.unread k j = [] →
        (s.set k ⟨s.dir, inner'⟩).abs.unread k j = []) ∧
      (Within s → Within (s.set k ⟨s.dir, inner'⟩)) := by
  induction h with
  | refl inner =>
    intro s hs hk hd
    rw [set_self s hk]
    exact ⟨hs, Reaches.refl _, fun _ j hj ↦ hj.resolve_left List.not_mem_nil, id⟩
  | @step inner inner₁ inner' o js hf _ ih =>
    intro s hs hk hd
    obtain ⟨hs₁, hd₁, hreach₁, hcaught₁, hwithin₁⟩ := sim_follow hs hk hd hf
    obtain ⟨hs', hreach, hcaught, hwithin⟩ :=
      ih hs₁ (nodes_set_self s k _) ⟨hd₁.keys, hd₁.logs, hd₁.kept⟩
    rw [dir_set, set_set] at hs' hreach hcaught hwithin
    refine ⟨hs', hreach₁.trans hreach, fun hdir j hj ↦ hcaught hdir j ?_,
      fun hw ↦ hwithin (hwithin₁ hw)⟩
    rcases hj with hj | hj
    · rcases List.mem_append.mp hj with hj | hj
      · exact .inr (hcaught₁ hdir j (.inl (Option.mem_toList.mp hj)))
      · exact .inl hj
    · exact .inr (hcaught₁ hdir j (.inr hj))

/-- Counting a hit is not seen. -/
theorem sim_hit (hs : Formed s) (hk : s.nodes k = some inner) {code : Bytes} {e : Entry}
    (hfind : inner.find code = some e) {st : Store}
    (hst : st = ((⟨s.dir, inner⟩ : Store).mapInner (·.put code (Store.bumped e))).markDirty code) :
    Formed (s.set k ⟨s.dir, st.inner⟩) ∧ (s.set k ⟨s.dir, st.inner⟩).abs = s.abs ∧
      (Within s → Within (s.set k ⟨s.dir, st.inner⟩)) := by
  subst hst
  have hm := hs.member hk
  have hcode : codeOk code = true := by
    refine hm.codes code ?_
    rw [Inner.links, hfind]
    rfl
  have hdirty : ∀ c, (((⟨s.dir, inner⟩ : Store).mapInner (·.put code (Store.bumped e))).markDirty
      code).inner.find c = (inner.put code (Store.bumped e)).find c :=
    fun c ↦ Shards.find_addDirty ..
  have hlinks := (Inner.links_eq_of_shards hdirty).trans (Inner.links_put_of_link_eq hfind rfl)
  refine sim_quiet hs hk ⟨(hm.toTidy.put code _).markDirty hcode, hm.inst, fun c hc ↦ ?_, hm.siblings,
    hm.sound⟩ hlinks rfl fun _ ↦ rfl
  rw [hlinks] at hc
  exact hm.codes c hc

theorem sees_dir (s : Cluster) (inner : Inner) : s.Sees inner s.dir :=
  ⟨rfl, fun _ ↦ List.prefix_rfl, fun _ ↦ le_or_gt _ _⟩

/-- **A call that reads**, and sees a first part of each log. -/
theorem sim_reads (hs : Formed s) (hk : s.nodes k = some inner) {d : Dir} (hd : s.Sees inner d)
    {call : Call} (hreads : call.reads = true) (hrun : call.run ⟨d, inner⟩ = some st') :
    st'.dir = d ∧ Formed (s.set k ⟨s.dir, st'.inner⟩) ∧
      Reaches actStep (Reading k) s.abs (s.set k ⟨s.dir, st'.inner⟩).abs ∧
      (Within s → Within (s.set k ⟨s.dir, st'.inner⟩)) := by
  have hm := hs.member hk
  have hnames : ∀ n ∈ d, isShardLog n = true → ∃ j, n = logName j := by
    intro n hn
    rw [AList.mem_keys, hd.keys, ← AList.mem_keys] at hn
    exact hs.names n hn
  cases call with
  | resolve code env =>
    have hst := Option.some.inj hrun
    obtain ⟨inner₁, js, hfollows, hcase⟩ := @Store.resolve_follows ⟨d, inner⟩ hm.siblings hnames
      code env.clk env.track env.ord
    obtain ⟨hs₁, hreach, -, hwithin⟩ := sim_follows hfollows hs hk hd
    rcases hcase with ⟨e, hfind, -, heq⟩ | ⟨r, heq, -⟩
    · rw [heq] at hst
      subst hst
      have hhit := sim_hit hs₁ (nodes_set_self s k _) hfind rfl
      rw [dir_set, set_set] at hhit
      refine ⟨rfl, hhit.1, ?_, fun hw ↦ hhit.2.2 (hwithin hw)⟩
      rw [← hhit.2.1] at hreach
      exact hreach
    · rw [heq] at hst
      subst hst
      exact ⟨rfl, hs₁, hreach, hwithin⟩
  | pollTails env =>
    obtain rfl := Option.some.inj hrun
    obtain ⟨js, hfollows, -⟩ := follows_pollLocked hm.siblings hnames env.ord (env.clk 0)
    obtain ⟨hs₁, hreach, -, hwithin⟩ := sim_follows hfollows hs hk hd
    rw [Store.pollTails, if_neg (Bool.eq_false_iff.mp hm.aof_isNone)]
    exact ⟨rfl, hs₁, hreach, hwithin⟩
  | shorten | shortenMany | update | remove | flush | compact | reopen => contradiction

/-! ## Compacting -/

theorem Member.compacts {st : Store} (hm : Member k st) (ord : Order) :
    Compacts st (st.compact ord {}) := by
  refine hm.toTidy.compacts (fun {c e} hfind _ ↦ hm.codes c ?_) ord
  rw [Inner.links, hfind]
  rfl

/-- A compaction writes to no file of a sibling. -/
theorem siblings_content (hcontent : ∀ n, n ≠ logName k → n ≠ snapName k → n ≠ tmpName k →
      st'.dir.content n = s.dir.content n) :
    (∀ i, i ≠ k → st'.dir.content (logName i) = s.log i) ∧
      ∀ i, i ≠ k → st'.dir.content (snapName i) = s.snap i := by
  refine ⟨fun i hi ↦ ?_, fun i hi ↦ ?_⟩
  · exact hcontent _ (logName_injective.ne hi) (snapName_ne_logName k i).symm
      (tmpName_ne_logName k i).symm
  · exact hcontent _ (snapName_ne_logName i k) (snapName_injective.ne hi)
      (tmpName_ne_snapName k i).symm

/-- A compaction, whatever its readers have been up to: the log is gone. -/
theorem sim_compact (hs : Formed s) (hk : s.nodes k = some inner) (h : Compacts ⟨s.dir, inner⟩ st') :
    Formed (s.set k st') ∧
      (Action.compact k (writesOf (st'.dir.content (snapName k)))).Enabled Owns (act s.abs (.flush k)) ∧
      (s.set k st').abs
        = act (act s.abs (.flush k)) (.compact k (writesOf (st'.dir.content (snapName k)))) := by
  have hm := hs.member hk
  have hinst : inner.inst = k := hm.inst
  have hinst' : st'.inner.inst = k := h.inst.trans hinst
  have hreader : ∀ j, st'.inner.reader j = inner.reader j := fun j ↦ by
    rw [Inner.reader, h.tail, Inner.reader]
  have hlog : st'.dir.content (logName k) = [] := by
    have := h.log
    rwa [Store.log, hinst'] at this
  obtain ⟨hlogs, hsnaps⟩ : (∀ i, i ≠ k → st'.dir.content (logName i) = s.log i) ∧
      ∀ i, i ≠ k → st'.dir.content (snapName i) = s.snap i := by
    have hcontent := h.content
    rw [hinst] at hcontent
    exact siblings_content hcontent
  have hsnap : st'.snap = st'.dir.content (snapName k) := by rw [Store.snap, hinst']
  have hview : s.abs.view k = inner.links := links_eq hk
  have hown : ∀ c v, (⟨s.dir, inner⟩ : Store).ownLink c = some v
      ↔ s.abs.view k c = some v ∧ Owns k v := by
    intro c v
    rw [Store.ownLink, Option.filter_eq_some_iff, decide_eq_true_iff, hview, Owns]
    exact and_congr_right' (by rw [hinst])
  have hm' : Member k st' :=
    hm.of_tail h.tidy h.inst h.tail fun c hc ↦ hm.codes c (by rwa [h.links] at hc)
  refine ⟨?_, ⟨?_, fun w hw ↦ ?_, fun c v hc hv ↦ ?_⟩, ?_⟩
  · refine hs.set hm' hlogs hsnaps (fun n hn hshard ↦ ?_) (h.kept k (hs.file (alive_of_node hk)))
      (fun i hi ↦ h.kept i hi) ?_ (fun j ↦ ?_) fun i _ ↦ ?_
    · have := h.mem n hn hshard
      rwa [hinst] at this
    · rw [← hsnap]
      exact hinst ▸ h.isLog_snap
    · by_cases hjk : j = k
      · rw [hjk, hlog, hreader, TailReader.unread_nil (hm.sound k)]
        exact isLog_nil
      · rw [hlogs j hjk, hreader, ← reader_eq hk]
        exact hs.isLog_unread k j
    · rw [hlog, TailReader.unread_nil (hs.sound i k)]
      exact isLog_nil
  · exact Function.update_self ..
  · rw [← hsnap] at hw
    obtain ⟨c, v, rfl, hc⟩ := h.rows w hw
    exact ⟨c, v, rfl, (hown c v).mp hc⟩
  · rw [← hsnap, h.snap, (hown c v).mpr ⟨hc, hv⟩]
    rfl
  · rw [abs_set, alive_eq hk]
    refine Replication.State.ext rfl ?_ (funext fun i ↦ ?_) (funext fun i ↦ ?_) ?_
      (funext fun i ↦ funext fun j ↦ ?_)
    · rw [h.links, ← hview, Function.update_eq_self]
      rfl
    · simp only [act, Function.update_apply]
      split_ifs with hik
      · rw [hik]
      · rw [hsnaps i hik]
        rfl
    · simp only [act, Function.update_apply]
      split_ifs with hik
      · rw [hik, hlog, writesOf_nil]
      · rw [hlogs i hik]
        rfl
    · rw [h.buf, writesOf_nil]
      rfl
    · have hsame : (if i = k then st'.inner.reader j else s.reader i j) = s.reader i j := by
        split_ifs with hik
        · rw [hreader, hik, reader_eq hk]
        · rfl
      simp only [hsame, act]
      split_ifs with hjk
      · rw [hjk, hlog, TailReader.unread_nil (hs.sound i k), writesOf_nil]
      · rw [hlogs j hjk]
        rfl

/-! ## Opening -/

/-- An instance opens. -/
theorem sim_boot (hs : Formed s) (hk : s.nodes k = none) (ord : Order) :
    Formed (s.set k (openStore ord s.dir k)) ∧
      (Within s → Within (s.set k (openStore ord s.dir k))) ∧
      ∃ v, (Action.join k v).Enabled Owns s.abs ∧
        (s.set k (openStore ord s.dir k)).abs = act s.abs (.join k v) := by
  obtain ⟨hlog, hsnap⟩ := hs.absent hk
  obtain ⟨js, hjs, hdir, h⟩ := opens_openStore ord hs.names hlog hsnap
  have hcontent : ∀ n, (openStore ord s.dir k).dir.content n = s.dir.content n := fun n ↦ by
    rw [hdir, Dir.content_create]
  have hreader : ∀ j, (openStore ord s.dir k).inner.reader j = {} := fun j ↦ h.reader j
  have hlinks : (openStore ord s.dir k).inner.links
      = replay (fun _ ↦ none) (js.flatMap fun j ↦ writesOf (s.snap j)) := h.links
  have hbuf : (openStore ord s.dir k).buf = [] := by
    rw [Store.buf, h.aof]
    rfl
  have hm : Member k (openStore ord s.dir k) := by
    refine ⟨⟨fun {i c} hc ↦ ?_, ?_, ?_, ?_⟩, h.inst, fun c hc ↦ ?_, fun n hn ↦ ?_, fun j ↦ ?_⟩
    · rw [h.dirty i] at hc
      exact absurd hc (AList.notMem_empty c)
    · rw [h.aof, hbuf, h.inst]
    · rw [hbuf]
      exact isLog_nil
    · have hinst : (openStore ord s.dir k).inner.inst = k := h.inst
      rw [Store.log, hcontent, hinst, ← log, hlog]
      exact isLog_nil
    · rw [hlinks] at hc
      obtain ⟨v, hv⟩ := Option.isSome_iff_exists.mp hc
      rcases LastWrite.put_mem_of_replay hv with hv | hv
      · contradiction
      · obtain ⟨j, -, hv⟩ := List.mem_flatMap.mp hv
        exact (hs.isLog_snap j).codeOk_of_mem hv
    · rcases h.mem n hn with hn | ⟨j, hj, rfl⟩
      · exact absurd hn (AList.notMem_empty n)
      · exact ⟨j, h.inst.symm ▸ ((hjs j).mp hj).1, rfl⟩
    · rw [hreader]
      exact TailReader.sound_default
  have hnone : ∀ j, s.reader k j = {} := fun j ↦ by
    rw [reader, hk]
    rfl
  have hbuffer : s.abs.buffer k = [] := by
    have : s.buf k = [] := by
      rw [buf, hk]
      rfl
    exact (congrArg writesOf this).trans writesOf_nil
  refine ⟨?_, fun hw ↦ hw.set (fun j ↦ ?_) fun j ↦ ?_, replay (fun _ ↦ none) (js.flatMap s.abs.snap),
    ⟨?_, ?_, hbuffer, fun i ↦ ?_, js, fun i ↦ ?_, rfl⟩, ?_⟩
  · refine hs.set hm (fun i _ ↦ hcontent _) (fun i _ ↦ hcontent _) (fun n hn _ ↦ ?_)
      ?_ (fun i hi ↦ ?_) ?_
      (fun j ↦ ?_) fun i _ ↦ ?_
    · rw [hdir] at hn
      exact (AList.mem_insert _).mp hn
    · rw [hdir]
      exact (AList.mem_insert _).mpr (.inl rfl)
    · rw [hdir]
      exact (AList.mem_insert _).mpr (.inr hi)
    · rw [hcontent]
      exact hs.isLog_snap k
    · rw [hreader, hcontent]
      exact hs.isLog_log j
    · rw [hcontent]
      exact hs.isLog_unread i k
  · rw [hcontent]
    exact le_rfl
  · rw [hreader]
    exact Nat.zero_le _
  · exact congrArg Option.isSome hk
  · exact (congrArg writesOf hlog).trans writesOf_nil
  · refine congrArg writesOf ?_
    rw [unread, hnone]
    rfl
  · -- A snapshot that was not taken in is empty.
    by_cases hik : i = k
    · rw [hik]
      exact .inr ((congrArg writesOf hsnap).trans writesOf_nil)
    · cases hi : s.nodes i with
      | none => exact .inr ((congrArg writesOf (hs.absent hi).2).trans writesOf_nil)
      | some inner => exact .inl ((hjs i).mpr ⟨hik, hs.file (alive_of_node hi)⟩)
  · rw [abs_set]
    refine Replication.State.ext rfl ?_ (funext fun i ↦ ?_) (funext fun i ↦ ?_) ?_
      (funext fun i ↦ funext fun j ↦ ?_)
    · rw [hlinks]
      rfl
    · exact congrArg writesOf (hcontent _)
    · exact congrArg writesOf (hcontent _)
    · rw [hbuf, writesOf_nil, ← hbuffer, Function.update_eq_self]
      rfl
    · simp only [hcontent]
      split_ifs with hik
      · rw [hreader, ← hnone j, hik]
        rfl
      · rfl

end Cluster

end Shrt
