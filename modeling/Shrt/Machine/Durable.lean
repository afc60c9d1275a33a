import Shrt.Machine.Shape
import Shrt.Store.Touches

/-!
# The log is worth the index

`Durable` says that the links of the index are what the files, the buffer and the held lines are
worth, replayed in that order, and that a compaction under way carries a text that is worth the
links of the shards it has walked. The compaction's rename is then harmless because replaying a log
over its own outcome changes nothing, and its truncation because the snapshot alone is worth the
links.

Two things are asked of the steps. The file operations of compactions succeed. And a call that
pushes its lines does not overtake another call about the same code (`inOrder`): the index was
changed under the lock of a shard and the line is pushed under another lock, and nothing in between
keeps two calls about one code in order.
-/

namespace Shrt

open LastWrite (replay Write)
open Transition (run Meets)

/-- What a list of writes is worth on its own. -/
def worth (ws : List (Write Bytes LinkRow)) : Bytes → Option LinkRow := replay (fun _ ↦ none) ws

@[simp] theorem worth_nil : worth [] = fun _ ↦ none := rfl

theorem worth_append (ws vs : List (Write Bytes LinkRow)) :
    worth (ws ++ vs) = replay (worth ws) vs := LastWrite.replay_append _ ws vs

/-! ## The lines of a store -/

/-- The rows of one shard lay its links over what was there. -/
theorem Solo.replay_shardRowLines {st : Store} (hs : Solo st) (ord : Order) (k : Fin NUM_SHARDS)
    (m : Bytes → Option LinkRow) (c : Bytes) :
    replay m (writesOf (st.shardRowLines ord k)) c
      = if shardOf c = k then (st.inner.links c).or (m c) else m c := by
  rw [hs.shardRowLines_eq, writesOf_rowLines hs.codeOk_of_mem_shardRows,
    LastWrite.replay_puts (f := fun c ↦ if shardOf c = k then st.inner.links c else none)]
  · split_ifs <;> rfl
  · intro c' r
    rw [List.mem_map]
    constructor
    · rintro ⟨⟨c'', e⟩, hmem, heq⟩
      obtain ⟨rfl, rfl⟩ := Prod.mk.inj heq
      obtain ⟨hk, hf⟩ := (Shards.mem_shardRows ord _ k).mp hmem
      have hf' : st.inner.find c'' = some e := hf
      rw [if_pos hk, Inner.links, hf', Option.map_some]
    · intro h
      split_ifs at h with hk
      obtain ⟨e, hf, rfl⟩ := Option.map_eq_some_iff.mp h
      exact ⟨(c', e), (Shards.mem_shardRows ord _ k).mpr ⟨hk, hf⟩, rfl⟩

theorem Solo.drainLoop (ord : Order) (todo : List (Fin NUM_SHARDS)) :
    ∀ {st : Store} (lines : Bytes), Solo st → Solo (Store.drainLoop ord todo st lines).1 := by
  induction todo with
  | nil => intro st lines hs; exact hs
  | cons k ks ih => intro st lines hs; exact ih _ (hs.drainShard k)

/-- **What a flush does**: the pending hits and the buffer go to the end of the log. -/
theorem Solo.flushLocked {st : Store} (hs : Solo st) (ord : Order) :
    Solo (st.flushLocked ord) ∧ Flushed st (st.flushLocked ord) := by
  refine ⟨?_, hs.toTidy.flushed ord⟩
  have haof := hs.aof_isNone
  have h := drained_drainLoop ord Store.allShards hs.toTidy isLog_nil
  have hr := Solo.drainLoop ord Store.allShards [] hs
  rw [Store.flushLocked, haof, if_neg Bool.false_ne_true]
  generalize Store.drainLoop ord Store.allShards st [] = r at h hr ⊢
  have hlog : IsLog r.1.inner.inst r.2 := by
    rw [h.inst]
    exact h.isLog
  exact (hr.pushRaw hlog).flushAof

theorem Flushed.links {st st' : Store} (h : Flushed st st') : st'.inner.links = st.inner.links :=
  Inner.links_eq_of_shards h.find

/-- What a list of held lines is worth. -/
def heldWrites (held : List Held) : List (Write Bytes LinkRow) :=
  held.flatMap fun h ↦ writesOf (h.line ++ [NL])

theorem writesOf_linesOf {inst : InstanceId} {held : List Held} (h : ∀ x ∈ held, HeldOk inst x)
    (id : ℕ) : writesOf (Machine.linesOf held id) = heldWrites (held.filter fun x ↦ x.id = id) := by
  rw [writesOf, Machine.replayOps_linesOf h, List.flatMap_assoc]
  rfl

theorem key_of_mem_writesOf_held {inst : InstanceId} {h : Held} (hh : HeldOk inst h)
    {w : Write Bytes LinkRow} (hw : w ∈ writesOf (h.line ++ [NL])) : w.key = h.code := by
  obtain ⟨op, -, hcode, hline, -⟩ := hh
  rw [hline, writesOf_line] at hw
  rw [key_of_mem_writes hw, hcode]

/-! ## The invariant -/

/-- A text or file that a call is about to rely on is worth what it should be. -/
def Thread.Carries (st : Store) : Thread → Prop
  | flushing _ _ lines => writesOf lines = []
  | snapshotting todo text => todo.Nodup ∧
      ∀ c, worth (writesOf text) c = if shardOf c ∈ todo then none else st.inner.links c
  | publishing => tmpName st.inner.inst ∈ st.dir ∧ worth (writesOf st.tmp) = st.inner.links
  | truncating => worth (writesOf st.snap) = st.inner.links
  | _ => True

namespace Machine

/-- All that has been written about links, in the order a replay would see it. -/
def written (m : Machine) : List (Write Bytes LinkRow) :=
  writesOf m.store.snap ++ (m.store.logWrites ++ heldWrites m.held)

/-- The files, the buffer and the held lines are worth the links of the index. -/
structure Durable (m : Machine) : Prop where
  links : worth m.written = m.store.inner.links
  carries : ∀ t ∈ m.calls, t.Carries m.store


/-- The call that pushes its lines overtakes no call about one of its codes. -/
def inOrder (m : Machine) (l : Label) : Bool := match m.acting l with
  | some (.logging id [] _ _ _) =>
    decide (m.held.Pairwise fun h h' ↦ h'.id = id → h.id ≠ id → h.code ≠ h'.code)
  | _ => true

/-- No file operation of a compaction fails. -/
def filesOk (m : Machine) : Label → Bool
  | .advance n env => match m.calls[n]? with
    | some t => !t.exclusive || env.io = {}
    | none => true
  | _ => true

end Machine

/-! ## What the calls carry -/

namespace Thread

variable {st st' : Store}

/-- Only a compaction relies on files and links. -/
theorem Carries.of_not_exclusive {t : Thread} (h : t.Carries st) (he : t.exclusive = false) :
    t.Carries st' := by
  cases t with
  | opening => exact absurd he (by decide)
  | snapshotting todo text => exact absurd he (by simp [exclusive])
  | publishing => exact absurd he (by decide)
  | truncating => exact absurd he (by decide)
  | _ => exact h

/-- What a call carries is about the links and the files. -/
theorem Carries.congr {t : Thread} (h : t.Carries st) (hinst : st'.inner.inst = st.inner.inst)
    (hdir : st'.dir = st.dir) (hlinks : st'.inner.links = st.inner.links) : t.Carries st' := by
  cases t with
  | snapshotting todo text =>
    refine ⟨h.1, fun c ↦ ?_⟩
    rw [hlinks]
    exact h.2 c
  | publishing =>
    refine ⟨?_, ?_⟩
    · rw [hinst, hdir]
      exact h.1
    · rw [Store.tmp, hinst, hdir, hlinks]
      exact h.2
  | truncating =>
    rw [Carries, Store.snap, hinst, hdir, hlinks]
    exact h
  | _ => exact h

/-- The text of a snapshot after one more shard. -/
theorem Carries.snapshot {k : Fin NUM_SHARDS} {ks : List (Fin NUM_SHARDS)} {text : Bytes}
    (hs : Solo st) (hlog : IsLog st.inner.inst text) (h : (snapshotting (k :: ks) text).Carries st)
    (ord : Order) : (snapshotting ks (text ++ st.shardRowLines ord k)).Carries st := by
  obtain ⟨hnodup, hworth⟩ := h
  refine ⟨hnodup.of_cons, fun c ↦ ?_⟩
  have hk : k ∉ ks := (List.nodup_cons.mp hnodup).1
  rw [writesOf_append hlog, worth_append, hs.replay_shardRowLines, hworth c]
  by_cases hc : shardOf c = k
  · rw [if_pos hc, hc, if_pos List.mem_cons_self, if_neg hk, Option.or_none]
  · rw [if_neg hc]
    simp only [List.mem_cons, hc, false_or]

end Thread

namespace Machine

variable {m : Machine} {l : Label} {old : Option Thread} {others : List Thread} {st : Store}
  {held : List Held} {ts : List Thread}

/-! ## One section -/

theorem heldWrites_append (held held' : List Held) :
    heldWrites (held ++ held') = heldWrites held ++ heldWrites held' := List.flatMap_append

theorem heldWrites_row {id : ℕ} {code : Bytes} (hc : codeOk code = true) (url : Bytes)
    (a exp : Int64) : heldWrites [⟨id, code, m.store.rowFor code url a exp⟩]
      = [.put code { u := url, a, e := exp, i := instInt m.store.inner.inst }] := by
  have h := writesOf_line (.row ⟨code, hc⟩ url a exp (instLong m.store.inner.inst) 0)
  rw [writes_row, toInt32_instLong] at h
  rw [heldWrites, List.flatMap_singleton]
  exact h

theorem heldWrites_del {id : ℕ} {code : Bytes} (hc : codeOk code = true) :
    heldWrites [⟨id, code, delLine code⟩] = [.del code] := by
  have h := writesOf_line (.del ⟨code, hc⟩)
  rw [writes_del] at h
  rw [heldWrites, List.flatMap_singleton]
  exact h

/-- A change of the index with the line that records it. -/
theorem worth_written_append {f : Inner → Inner} {x : Held}
    (hlinks : worth m.written = m.store.inner.links)
    (haof : (f m.store.inner).aof = m.store.inner.aof)
    (hinst : (f m.store.inner).inst = m.store.inner.inst)
    (hx : (f m.store.inner).links = replay m.store.inner.links (heldWrites [x])) :
    worth (writesOf (m.store.mapInner f).snap ++ ((m.store.mapInner f).logWrites ++
      heldWrites (m.held ++ [x]))) = (m.store.mapInner f).inner.links := by
  have hsnap : (m.store.mapInner f).snap = m.store.snap := by
    rw [Store.snap, Store.mapInner, hinst, Store.snap]
  have hlog : (m.store.mapInner f).logWrites = m.store.logWrites := by
    rw [Store.logWrites, Store.log, Store.buf, Store.mapInner, hinst, haof, Store.logWrites,
      Store.log, Store.buf]
  rw [hsnap, hlog, heldWrites_append, ← List.append_assoc m.store.logWrites, ← List.append_assoc,
    worth_append, ← written, hlinks]
  exact hx.symm

/-- Pushing the lines of one call, in order, is worth holding them. -/
theorem worth_written_push (hm : m.Ok) {id : ℕ}
    (hord : m.held.Pairwise fun h h' ↦ h'.id = id → h.id ≠ id → h.code ≠ h'.code) :
    worth (writesOf m.store.snap ++ ((m.store.logWrites ++ writesOf (linesOf m.held id)) ++
      heldWrites (m.held.filter fun h ↦ h.id ≠ id))) = worth m.written := by
  have hpart := LastWrite.replay_flatMap_filter (p := fun h : Held ↦ decide (h.id = id))
    (f := fun h : Held ↦ writesOf (h.line ++ [NL])) (l := m.held)
    (fun h hh w hw ↦ key_of_mem_writesOf_held (hm.held h hh) hw)
    (hord.imp fun hab hb ha ↦ hab (of_decide_eq_true hb) (of_decide_eq_false ha))
    (replay (worth (writesOf m.store.snap)) m.store.logWrites)
  have hneg : (m.held.filter fun h ↦ decide (h.id ≠ id)) = m.held.filter fun h ↦ !decide (h.id = id) :=
    List.filter_congr fun h _ ↦ decide_not
  rw [writesOf_linesOf hm.held, hneg, List.append_assoc, worth_append, LastWrite.replay_append,
    heldWrites, heldWrites, ← hpart, written, worth_append, LastWrite.replay_append]
  rfl

theorem links_flushAof (st : Store) : st.flushAof.inner.links = st.inner.links :=
  Inner.links_eq_of_shards fun c ↦ by rw [Inner.find, Store.shards_flushAof, Inner.find]

theorem links_flushIfFull (st : Store) : st.flushIfFull.inner.links = st.inner.links :=
  Inner.links_eq_of_shards fun c ↦ by rw [Inner.find, Store.shards_flushIfFull, Inner.find]

theorem links_truncateAof (st : Store) : st.truncateAof.inner.links = st.inner.links :=
  Inner.links_eq_of_shards fun c ↦ by rw [Inner.find, Store.shards_truncateAof, Inner.find]

theorem worth_writeTmp (b : Bytes) :
    worth (writesOf (m.store.writeTmp b).snap ++ ((m.store.writeTmp b).logWrites ++
      heldWrites m.held)) = worth m.written := by
  rw [Store.snap_writeTmp, Store.logWrites, Store.log_writeTmp]
  rfl

/-- **The log keeps up with the index**, section by section. -/
theorem links_of_fires (hm : m.Ok) (hd : m.Durable) (hord : m.inOrder l = true)
    (hact : m.acting l = old) (hmem : ∀ t ∈ old, t ∈ m.calls)
    (hf : m.Fires l old others (st, held, ts)) :
    worth (writesOf st.snap ++ (st.logWrites ++ heldWrites held)) = st.inner.links := by
  have hs := hm.solo
  have hold : ∀ t ∈ old, t.Carries m.store := fun t ht ↦ hd.carries t (hmem t ht)
  have hsame : ∀ {f : Inner → Inner}, (f m.store.inner).aof = m.store.inner.aof →
      (f m.store.inner).inst = m.store.inner.inst →
      (f m.store.inner).links = m.store.inner.links →
      worth (writesOf (m.store.mapInner f).snap ++ ((m.store.mapInner f).logWrites ++
        heldWrites m.held)) = (m.store.mapInner f).inner.links := by
    intro f haof hinst hlinks
    rw [Store.snap, Store.logWrites, Store.log, Store.buf, Store.mapInner, hinst, haof, hlinks]
    exact hd.links
  have honly : ∀ {f : Inner → Inner}, OnlyTail m.store.inner (f m.store.inner) →
      worth (writesOf (m.store.mapInner f).snap ++ ((m.store.mapInner f).logWrites ++
        heldWrites m.held)) = (m.store.mapInner f).inner.links := by
    intro f h
    exact hsame h.aof h.inst h.links
  cases hf with
  | skip => exact hd.links
  | create url now exp _ _ hcode =>
    refine worth_written_append hd.links rfl rfl ?_
    rw [heldWrites_row hcode]
    exact Inner.links_put ..
  | createMany => exact hd.links
  | createNext _ hcode =>
    refine worth_written_append hd.links rfl rfl ?_
    rw [heldWrites_row hcode]
    exact Inner.links_put ..
  | update _ hupd =>
    obtain ⟨e, exp, hfind, hi, rfl, rfl⟩ := Store.updateIndex_eq_ok hupd
    refine worth_written_append hd.links rfl rfl ?_
    rw [heldWrites_row (hs.index.codeOk hfind), ← hi]
    exact Inner.links_put ..
  | remove _ hrem =>
    obtain ⟨e, hfind, -, rfl, rfl⟩ := Store.removeIndex_eq_ok hrem
    refine worth_written_append hd.links rfl rfl ?_
    rw [heldWrites_del (hs.index.codeOk hfind)]
    exact Inner.links_erase ..
  | push id =>
    have hpair := hord
    rw [inOrder, hact] at hpair
    have hpush := worth_written_push hm (of_decide_eq_true hpair)
    have hs' : Solo (m.store.pushRaw (linesOf m.held id)) := hs.pushRaw (isLog_linesOf hm.held id)
    split_ifs
    · rw [hs'.snap_flushIfFull, hs'.logWrites_flushIfFull, hs.logWrites_pushRaw, links_flushIfFull]
      exact hpush.trans hd.links
    · rw [hs.logWrites_pushRaw]
      exact hpush.trans hd.links
  | count _ hfind => exact hsame rfl rfl (Inner.links_put_of_link_eq hfind rfl)
  | miss => exact hd.links
  | readTails clk ord => exact honly (hs.onlyTail_tailMissed ord _ clk)
  | giveUp => exact hd.links
  | markDirty =>
    exact hsame rfl rfl (Inner.links_eq_of_shards fun c ↦ Shards.find_addDirty ..)
  | pollTails ord now =>
    rw [Store.pollTails]
    split_ifs
    · exact hd.links
    · exact honly (hs.onlyTail_pollLocked ord now)
  | flush => exact hd.links
  | compact => exact hd.links
  | drain =>
    exact hsame rfl rfl (Inner.links_eq_of_shards fun c ↦ Shards.find_drain ..)
  | write =>
    have hs' : Solo (m.store.pushRaw _) := hs.pushRaw (hm.threads _ (hmem _ rfl))
    have hlines : writesOf _ = [] := hold _ rfl
    rw [hs'.snap_flushAof, hs'.logWrites_flushAof, hs.logWrites_pushRaw, hlines, List.append_nil,
      links_flushAof]
    exact hd.links
  | fopen => exact (worth_writeTmp _).trans hd.links
  | fopenFailed => exact hd.links
  | snapshot ord wrote => exact (worth_writeTmp _).trans hd.links
  | fclose => exact (worth_writeTmp _).trans hd.links
  | rename =>
    -- The new snapshot is worth the links, and so is the old log over it: it ends where it began.
    obtain ⟨htmp, hworth⟩ := hold _ rfl
    have hlinks := hd.links
    rw [written, worth_append] at hlinks
    rw [Store.snap_renameTmp htmp, Store.logWrites, Store.log_renameTmp, worth_append, hworth]
    refine Eq.trans (congrArg₂ replay hlinks.symm rfl) ?_
    exact (LastWrite.replay_replay _ _).trans hlinks
  | renameFailed => exact hd.links
  | truncate =>
    have hheld : m.held = [] := hm.held_eq_nil_of_exclusive (hmem _ rfl) rfl
    have hworth : worth (writesOf m.store.snap) = m.store.inner.links := hold _ rfl
    rw [Store.logWrites, hs.snap_truncateAof, hs.log_truncateAof, hs.buf_truncateAof, hheld,
      links_truncateAof, ← hworth]
    exact congrArg worth (List.append_nil _)

/-- A section that changes links or files of the own instance leaves no compaction beside it. -/
theorem frame_of_fires (hs : Solo m.store) (hcompat : ∀ t ∈ old, ∀ u ∈ others, t.Compat u)
    (hf : m.Fires l old others (st, held, ts)) :
    (∀ u ∈ others, u.exclusive = false) ∨
      (st.dir = m.store.dir ∧ st.inner.aof = m.store.inner.aof ∧
        st.inner.links = m.store.inner.links) := by
  have hgate : others.any Thread.exclusive = false → ∀ u ∈ others, u.exclusive = false :=
    fun h u hu ↦ by simpa using List.any_eq_false.mp h u hu
  have hgated : ∀ {t : Thread}, t ∈ old → t.gated = true → ∀ u ∈ others, u.exclusive = false := by
    intro t ht hg u hu
    rw [Bool.eq_false_iff]
    exact fun he ↦ (hcompat t ht u hu).2 ⟨he, hg⟩
  cases hf with
  | skip => exact .inr ⟨rfl, rfl, rfl⟩
  | create _ _ _ hg => exact .inl (hgate hg)
  | createMany => exact .inr ⟨rfl, rfl, rfl⟩
  | createNext => exact .inl (hgated rfl rfl)
  | update hg => exact .inl (hgate hg)
  | remove hg => exact .inl (hgate hg)
  | push => exact .inl (hgated rfl rfl)
  | count _ hfind => exact .inr ⟨rfl, rfl, Inner.links_put_of_link_eq hfind rfl⟩
  | miss => exact .inr ⟨rfl, rfl, rfl⟩
  | @readTails _ _ code clk ord =>
    have h := hs.onlyTail_tailMissed ord code clk
    exact .inr ⟨rfl, h.aof, h.links⟩
  | giveUp => exact .inr ⟨rfl, rfl, rfl⟩
  | markDirty => exact .inr ⟨rfl, rfl, Inner.links_eq_of_shards fun c ↦ Shards.find_addDirty ..⟩
  | pollTails ord now =>
    rw [Store.pollTails]
    split_ifs
    · exact .inr ⟨rfl, rfl, rfl⟩
    · have h := hs.onlyTail_pollLocked ord now
      exact .inr ⟨rfl, h.aof, h.links⟩
  | flush => exact .inr ⟨rfl, rfl, rfl⟩
  | compact => exact .inr ⟨rfl, rfl, rfl⟩
  | drain => exact .inr ⟨rfl, rfl, Inner.links_eq_of_shards fun c ↦ Shards.find_drain ..⟩
  | write => exact .inl (hgated rfl rfl)
  | fopen => exact .inl (hgated rfl rfl)
  | fopenFailed => exact .inl (hgated rfl rfl)
  | snapshot => exact .inl (hgated rfl rfl)
  | fclose => exact .inl (hgated rfl rfl)
  | rename => exact .inl (hgated rfl rfl)
  | renameFailed => exact .inl (hgated rfl rfl)
  | truncate => exact .inl (hgated rfl rfl)

theorem filesOk_advance {n : ℕ} {env : Env} {t : Thread} (hact : m.acting (.advance n env) = some t)
    (he : t.exclusive = true) : m.filesOk (.advance n env) = decide (env.io = {}) := by
  have hget : m.calls[n]? = some t := hact
  rw [filesOk, hget]
  simp [he]

/-- What a call goes on with is worth what it should be. -/
theorem carries_of_fires (hm : m.Ok) (hd : m.Durable) (hok : m.filesOk l = true)
    (hact : m.acting l = old) (hmem : ∀ t ∈ old, t ∈ m.calls)
    (hf : m.Fires l old others (st, held, ts)) :
    ∀ t ∈ ts, t.Carries st := by
  have hs := hm.solo
  have hold : ∀ t ∈ old, t.Carries m.store := fun t ht ↦ hd.carries t (hmem t ht)
  have hlog : ∀ t ∈ old, t.Ok m.store.inner.inst := fun t ht ↦ hm.threads t (hmem t ht)
  have hone : ∀ {t : Thread}, t.Carries st → ∀ t' ∈ [t], t'.Carries st := by
    intro t ht t' ht'
    rwa [List.mem_singleton.mp ht']
  cases hf with
  | skip => simp
  | push => simp
  | giveUp => simp
  | markDirty => simp
  | pollTails => simp
  | truncate => simp
  | flush => exact hone rfl
  | compact => exact hone rfl
  | drain ord =>
    refine hone ?_
    rw [Thread.Carries, writesOf_append (hlog _ rfl), hold _ rfl,
      Store.shardHits, writesOf_hitLines _ hs.codeOk_of_mem_shardDirty]
    rfl
  | write =>
    split_ifs
    · exact hone trivial
    · simp
  | fopen => exact hone ⟨List.nodup_finRange _, fun c ↦ (if_pos (List.mem_finRange _)).symm⟩
  | fopenFailed hio =>
    rw [filesOk_advance hact rfl] at hok
    simp_all
  | snapshot ord wrote => exact hone (Thread.Carries.snapshot hs (hlog _ rfl) (hold _ rfl) ord)
  | fclose =>
    rw [filesOk_advance hact rfl] at hok
    have hio := of_decide_eq_true hok
    refine hone ⟨Store.tmpName_mem_writeTmp _, ?_⟩
    rw [Store.tmp_writeTmp, hio]
    exact funext fun c ↦ ((hold _ rfl).2 c).trans (if_neg List.not_mem_nil)
  | rename =>
    obtain ⟨htmp, hworth⟩ := hold _ rfl
    refine hone ?_
    rw [Thread.Carries, Store.snap_renameTmp htmp]
    exact hworth
  | renameFailed hio =>
    rw [filesOk_advance hact rfl] at hok
    simp_all
  | create => exact hone trivial
  | createMany => exact hone trivial
  | createNext => exact hone trivial
  | update => exact hone trivial
  | remove => exact hone trivial
  | count => exact hone trivial
  | miss => exact hone trivial
  | readTails => exact hone trivial

/-! ## Runs -/

/-- **The log keeps up with the index**, step by step. -/
theorem durable_step {m' : Machine} (hm : m.Ok) (hd : m.Durable) (hok : m.filesOk l = true)
    (hord : m.inOrder l = true) (h : m.step l = some m') : m'.Durable := by
  obtain ⟨l₁, l₂, ts, hcalls, hcalls', -, hf⟩ := step_eq_some h
  obtain ⟨hact, hothers, -, hbeside⟩ := hm.split hcalls
  constructor
  · exact links_of_fires hm hd hord rfl hact hf
  · intro t ht
    rw [hcalls', mem_splice] at ht
    rcases List.mem_append.mp ht with ht | ht
    · exact carries_of_fires hm hd hok rfl hact hf t ht
    · have hcarries := hd.carries t (hothers t ht)
      rcases frame_of_fires hm.solo hbeside hf with hno | ⟨hdir, -, hlinks⟩
      · exact hcarries.of_not_exclusive (hno t ht)
      · exact hcarries.congr (inst_of_fires hm.solo hf) hdir hlinks

/-- The condition on the steps under which the log keeps up. -/
def Orderly (m : Machine) (l : Label) : Prop := m.filesOk l = true ∧ m.inOrder l = true

instance (m : Machine) (l : Label) : Decidable (m.Orderly l) := inferInstanceAs (Decidable (_ ∧ _))

theorem durable_run {m' : Machine} {ls : List Label} (hm : m.Ok) (hd : m.Durable)
    (hmeets : Meets step Orderly m ls) (h : run step m ls = some m') : m'.Ok ∧ m'.Durable :=
  Transition.run_invariant (P := fun m ↦ m.Ok ∧ m.Durable)
    (fun _ _ _ hs ho hstep ↦ ⟨ok_step hs.1 hstep, durable_step hs.1 hs.2 ho.1 ho.2 hstep⟩)
    ⟨hm, hd⟩ hmeets h

/-- What is read from the directory once the buffer is written is worth the links, as far as no
line is held. -/
theorem Durable.links_reopen (hm : m.Ok) (hd : m.Durable) (hheld : m.held = []) (ord : Order) :
    (openStore ord m.store.flushAof.dir m.store.inner.inst).inner.links = m.store.inner.links := by
  have hs := hm.solo.flushAof.files
  rw [Store.inst_flushAof] at hs
  have hsnap := hm.solo.snap_flushAof
  have hlog := hm.solo.log_flushAof
  rw [Store.snap, Store.inst_flushAof] at hsnap
  rw [Store.log, Store.inst_flushAof] at hlog
  rw [hs.links_openStore, hsnap, hlog, writesOf_append hm.solo.isLog_log, ← hd.links, written, hheld,
    worth_append]
  exact congrArg _ (List.append_nil _).symm

theorem durable_openStore {inst : InstanceId} {d : Dir} (hd : SoloDir inst d) (ord : Order)
    (next : ℕ) : (idle (openStore ord d inst) next).Durable := by
  constructor
  · have hlinks := hd.links_openStore ord
    rw [written, idle, Store.logWrites, hd.snap_openStore, hd.log_openStore, hd.buf_openStore,
      hlinks, worth_append]
    exact congrArg _ ((List.append_nil _).trans (List.append_nil _))
  · intro t ht
    exact absurd ht List.not_mem_nil

/-! ## Overtaking -/

/-- **In order, the log agrees with the index.** In every interleaving of any number of calls in
which no call overtakes another about the same code between its two critical sections, once all of
them have returned, replaying the files with the buffer flushed rebuilds the links of the index. -/
theorem reopen_links_of_orderly {inst : InstanceId} {ls : List Label} {m : Machine}
    (h : run step (idle (openEmpty inst) 0) ls = some m)
    (hmeets : Meets step Orderly (idle (openEmpty inst) 0) ls) (hdone : m.calls = [])
    (ord : Order) :
    (openStore ord m.store.flushAof.dir m.store.inner.inst).inner.links = m.store.inner.links := by
  have hdir := soloDir_empty inst
  obtain ⟨hm, hd⟩ := durable_run (ok_idle (hdir.solo_openStore _) 0) (durable_openStore hdir _ 0)
    hmeets h
  exact hd.links_reopen hm (hm.held_eq_nil hdone) ord

/-- Two updates of the alias `a` that change the index and push their lines in the same order. -/
def inTurn : List Label :=
  [.shorten (lit "u0") (some ⟨lit "a", codeOk_a⟩) 0 {}, .advance 0 {},
    .update (lit "a") (lit "u1") 0 false {}, .update (lit "a") (lit "u2") 0 false {},
    .advance 0 {}, .advance 0 {}]

theorem reopen_links_inTurn : ∃ m, run step (idle (openEmpty 0) 0) inTurn = some m ∧
    Meets step Orderly (idle (openEmpty 0) 0) inTurn ∧ m.calls = [] ∧
    (openStore (fun _ ↦ 0) m.store.flushAof.dir m.store.inner.inst).inner.links
      = m.store.inner.links := by
  obtain ⟨m, hrun, hdone⟩ : ∃ m, run step (idle (openEmpty 0) 0) inTurn = some m ∧ m.calls = [] := by
    decide +kernel
  have hmeets : Meets step Orderly (idle (openEmpty 0) 0) inTurn := by decide +kernel
  exact ⟨m, hrun, hmeets, hdone, reopen_links_of_orderly hrun hmeets hdone _⟩

/-- The same two updates, with the second one pushing first. -/
def overtaking : List Label :=
  [.shorten (lit "u0") (some ⟨lit "a", codeOk_a⟩) 0 {}, .advance 0 {},
    .update (lit "a") (lit "u1") 0 false {}, .update (lit "a") (lit "u2") 0 false {},
    .advance 1 {}, .advance 0 {}]

/-- An update that is overtaken wins the log and loses the index. -/
theorem update_overtaken : ∃ m, run step (idle (openEmpty 0) 0) overtaking = some m ∧
    m.calls = [] ∧ (m.store.inner.links (lit "a")).map LinkRow.u = some (lit "u2") ∧
      ((openStore (fun _ ↦ 0) m.store.flushAof.dir m.store.inner.inst).inner.links
        (lit "a")).map LinkRow.u = some (lit "u1") := by
  decide +kernel

end Machine

end Shrt
