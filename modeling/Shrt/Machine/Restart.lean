import Shrt.Machine.Sequential

/-!
# Restarts

What a restart rebuilds, for one instance used sequentially. After any number of calls, sessions and
compactions in which the file operations succeed, closing and opening again gives back every link
(`reopen_links`), and so does opening the directory that a crash leaves at any point of a compaction
after its flush (`crash_links`).

A compaction truncates the log whatever became of the snapshot before. `compact_keeps_iff` says when
that loses nothing: when the snapshot was written and renamed in full, or when it did not replace an
older one that holds all the links already.
-/

namespace Shrt

open LastWrite (replay Write)
open Store (CompactIo allShards)
open Transition (run Meets Reaches)
open Machine

/-! ## Sessions -/

/-- A store whose files and buffer are worth the links of its index. -/
structure Backed (st : Store) : Prop where
  solo : Solo st
  links : worth (writesOf st.snap ++ st.logWrites) = st.inner.links

theorem Backed.durable {st : Store} (hb : Backed st) (n : ℕ) : (idle st n).Durable where
  links := by
    rw [written, idle, ← hb.links]
    exact congrArg (fun ws ↦ worth (_ ++ ws)) (List.append_nil _)
  carries := fun t ht ↦ absurd ht List.not_mem_nil

theorem Machine.Durable.backed {m : Machine} (hd : m.Durable) (hm : m.Ok) (hdone : m.calls = []) :
    Backed m.store where
  solo := hm.solo
  links := by
    rw [← hd.links, written, hm.held_eq_nil hdone]
    exact congrArg (fun ws ↦ worth (_ ++ ws)) (List.append_nil _).symm

/-- Closing changes no file after the flush it starts with. -/
theorem Solo.dir_close {st : Store} (hs : Solo st) (ord : Order) :
    (st.close ord).dir = (st.flushLocked ord).dir := by
  obtain ⟨hflush, hflushed⟩ := hs.flushLocked ord
  rw [Store.close, hflush.aof, hflushed.buf]
  rfl

theorem Solo.soloDir_close {st : Store} (hs : Solo st) (ord : Order) :
    SoloDir st.inner.inst (st.close ord).dir := by
  obtain ⟨hflush, hflushed⟩ := hs.flushLocked ord
  rw [hs.dir_close, ← hflushed.inst]
  exact hflush.files

/-- Opening again rebuilds what the files and the buffer were worth. -/
theorem Solo.links_reopen {st : Store} (hs : Solo st) (ord : Order) :
    (st.reopen ord).inner.links = worth (writesOf st.snap ++ st.logWrites) := by
  obtain ⟨hflush, hflushed⟩ := hs.flushLocked ord
  have hd := hs.soloDir_close ord
  have hsnap := hflushed.snap
  have hlog := hflushed.writes
  rw [Store.snap, hflushed.inst] at hsnap
  rw [Store.logWrites, hflushed.buf, writesOf_nil, List.append_nil, Store.log, hflushed.inst]
    at hlog
  rw [Store.reopen, hd.links_openStore, hs.dir_close, hsnap, hlog, worth_append]
  rfl

theorem Solo.reopen {st : Store} (hs : Solo st) (ord : Order) : Solo (st.reopen ord) :=
  (hs.soloDir_close ord).solo_openStore ord

/-- Every call keeps the shape, whatever becomes of its file operations. -/
theorem solo_call {call : Call} {st st' : Store} (hs : Solo st) (h : call.run st = some st') :
    Solo st' := by
  by_cases hsess : call.inSession = true
  · obtain ⟨m, hreach, rfl, -⟩ := call_reaches hsess h
    exact (hreach.invariant (fun _ _ _ hm _ hstep ↦ ok_step hm hstep) (ok_idle hs 0)).solo
  · cases call with
    | reopen ord => exact Option.some.inj h ▸ hs.reopen ord
    | _ => exact absurd rfl hsess

/-- A call whose file operations succeed keeps the files worth the index. -/
theorem backed_call {call : Call} {st st' : Store} (hb : Backed st) (hio : call.io = {})
    (h : call.run st = some st') : Backed st' := by
  by_cases hsess : call.inSession = true
  · obtain ⟨m, hreach, rfl, hdone⟩ := call_reaches hsess h
    have hinv := hreach.invariant (P := fun m ↦ m.Ok ∧ m.Durable)
      (fun _ _ _ hm ha hstep ↦
        ⟨ok_step hm.1 hstep, durable_step hm.1 hm.2 (ha.2 hio) ha.1 hstep⟩)
      ⟨ok_idle hb.solo 0, hb.durable 0⟩
    exact hinv.2.backed hinv.1 hdone
  · cases call with
    | reopen ord =>
      obtain rfl := Option.some.inj h
      have hd := hb.solo.soloDir_close ord
      exact (durable_openStore hd ord 0).backed (ok_idle (hd.solo_openStore ord) 0) rfl
    | _ => exact absurd rfl hsess

theorem solo_openEmpty (inst : InstanceId) : Solo (openEmpty inst) :=
  (soloDir_empty inst).solo_openStore _

theorem backed_openEmpty (inst : InstanceId) : Backed (openEmpty inst) :=
  (durable_openStore (soloDir_empty inst) _ 0).backed (ok_idle (solo_openEmpty inst) 0) rfl

section Runs

variable {inst : InstanceId} {calls : List Call} {st : Store}

theorem solo_run (h : run Call.run (openEmpty inst) calls = some st) : Solo st := by
  have hmeets : Meets Call.run (fun _ _ ↦ True) (openEmpty inst) calls :=
    Transition.meets_of_forall (q := fun _ ↦ True) (fun _ _ ↦ trivial) _
  exact Transition.run_invariant (fun _ _ _ hs _ hcall ↦ solo_call hs hcall) (solo_openEmpty inst)
    hmeets h

theorem backed_run (h : run Call.run (openEmpty inst) calls = some st)
    (hio : ∀ call ∈ calls, call.io = {}) : Backed st :=
  Transition.run_invariant (fun _ _ _ hb hcall hrun ↦ backed_call hb hcall hrun)
    (backed_openEmpty inst) (Transition.meets_of_forall hio _) h

end Runs

/-- **Links survive restarts.** After any sequence of calls, among them compactions and any number
of restarts, closing the store and opening it again under the same id rebuilds every link: the same
codes, with the same url, creation time, expiry and owner. -/
theorem reopen_links {inst : InstanceId} {calls : List Call} {st : Store}
    (h : run Call.run (openEmpty inst) calls = some st) (hio : ∀ call ∈ calls, call.io = {})
    (ord : Order) : (st.reopen ord).inner.links = st.inner.links := by
  have hb := backed_run h hio
  rw [hb.solo.links_reopen, hb.links]

/-- Two sessions: links made, changed, removed and made again, with a compaction between. -/
def twoSessions : List Call :=
  [.shorten (lit "u0") (some ⟨lit "a", codeOk_a⟩) 0 {},
    .shortenMany [lit "u1", lit "u2"] 5 { rng := [0, 1, 2, 3, 4, 5, 6, 7] },
    .resolve (lit "a") {}, .update (lit "a") (lit "u3") 7 true {}, .compact {},
    .remove (lit "a"), .reopen fun _ ↦ 0,
    .shorten (lit "u4") (some ⟨lit "a", codeOk_a⟩) 0 {}]

theorem reopen_links_twoSessions : ∃ st, run Call.run (openEmpty 0) twoSessions = some st ∧
    (st.inner.links (lit "a")).isSome = true ∧
    (st.reopen fun _ ↦ 0).inner.links = st.inner.links := by
  obtain ⟨st, hrun, hsome⟩ : ∃ st, run Call.run (openEmpty 0) twoSessions = some st ∧
      (st.inner.links (lit "a")).isSome = true := by
    decide +kernel
  have hio : ∀ call ∈ twoSessions, call.io = {} := by decide
  exact ⟨st, hrun, hsome, reopen_links hrun hio _⟩

/-! ## Crashes during a compaction -/

/-- A flush that has not reached the file. -/
def Thread.flushes : Thread → Bool
  | flushing .. => true
  | _ => false

/-- A compaction that runs alone: at every point the index holds the links it started from, and from
its flush on the buffer is empty. -/
structure Compacting (links : Bytes → Option LinkRow) (m : Machine) : Prop where
  ok : m.Ok
  durable : m.Durable
  links : m.store.inner.links = links
  alone : m.calls = [] ∨ ∃ t, m.calls = [t] ∧ t.exclusive = true
  buf : (∀ t ∈ m.calls, t.flushes = false) → m.store.buf = []

/-- A call that holds the gate alone counts no hit. -/
theorem not_count_of_exclusive {t : Thread} {l : Label} {code : Bytes} (hexcl : t.exclusive = true)
    (hold : some t = none ∧ (∃ env, l = .resolve code env) ∨ some t = some (.retrying code)) :
    False := by
  rcases hold with ⟨hnone, -⟩ | hsome
  · exact nomatch hnone
  · rw [Option.some.inj hsome] at hexcl
    exact Bool.false_ne_true hexcl

section Exclusive

variable {m : Machine} {l : Label} {t : Thread} {others : List Thread} {r : Machine.Outcome}

/-- A section of a compaction leaves the links of the index alone. -/
theorem links_of_exclusive (hexcl : t.exclusive = true) (hf : m.Fires l (some t) others r) :
    r.1.inner.links = m.store.inner.links := by
  cases hf with
  | drain => exact Inner.links_eq_of_shards fun c ↦ Shards.find_drain ..
  | write => exact links_flushAof _
  | truncate => exact links_truncateAof _
  | fopen | fopenFailed | snapshot | fclose | rename | renameFailed => rfl
  | count hold => exact (not_count_of_exclusive hexcl hold).elim
  | _ => exact absurd hexcl Bool.false_ne_true

/-- A section of a compaction ends it, or leaves it holding the gate. -/
theorem exclusive_of_exclusive (hexcl : t.exclusive = true) (hf : m.Fires l (some t) others r) :
    r.2.2 = [] ∨ ∃ t', r.2.2 = [t'] ∧ t'.exclusive = true := by
  cases hf with
  | drain => exact .inr ⟨_, rfl, hexcl⟩
  | write => exact .inr ⟨.opening, if_pos hexcl, rfl⟩
  | truncate => exact .inl rfl
  | fopen | fopenFailed | snapshot | fclose | rename | renameFailed => exact .inr ⟨_, rfl, rfl⟩
  | count hold => exact (not_count_of_exclusive hexcl hold).elim
  | _ => exact absurd hexcl Bool.false_ne_true

/-- A compaction past its flush has an empty buffer, and keeps it empty. -/
theorem buf_of_exclusive (hs : Solo m.store) (ht : t.Ok m.store.inner.inst)
    (hexcl : t.exclusive = true) (hbuf : t.flushes = false → m.store.buf = [])
    (hf : m.Fires l (some t) others r) (hflushed : ∀ t' ∈ r.2.2, t'.flushes = false) :
    r.1.buf = [] := by
  cases hf with
  | drain => exact absurd (hflushed _ List.mem_cons_self) Bool.noConfusion
  | write => exact (hs.pushRaw ht).buf_flushAof
  | truncate => exact hs.buf_truncateAof
  | fopen | fopenFailed | snapshot | fclose | rename | renameFailed => exact hbuf rfl
  | count hold => exact (not_count_of_exclusive hexcl hold).elim
  | _ => exact absurd hexcl Bool.false_ne_true

end Exclusive

/-- One section of a compaction that runs alone. -/
theorem Compacting.step {links : Bytes → Option LinkRow} {m m' : Machine} {env : Env}
    (hc : Compacting links m) (hio : env.io = {}) (h : m.step (.advance 0 env) = some m') :
    Compacting links m' := by
  rcases hc.alone with hnil | ⟨t, ht, hexcl⟩
  · exact absurd h (by simp [Machine.step, hnil])
  have hmem : t ∈ m.calls := by rw [ht]; exact List.mem_singleton_self t
  have hord : m.inOrder (.advance 0 env) = true := by
    rw [inOrder, acting, ht]
    cases t <;> first | rfl | exact absurd hexcl Bool.false_ne_true
  have hfiles : m.filesOk (.advance 0 env) = true := by simp [filesOk, ht, hio]
  have hok := ok_step hc.ok h
  have hdur := durable_step hc.ok hc.durable hfiles hord h
  have hbuf : t.flushes = false → m.store.buf = [] := by
    intro hf
    refine hc.buf fun t' ht' ↦ ?_
    rw [ht, List.mem_singleton] at ht'
    rwa [ht']
  simp only [Machine.step, ht, List.getElem?_cons_zero, Option.bind_some] at h
  obtain ⟨r, hr, rfl⟩ := Option.map_eq_some_iff.mp h
  have hf : m.Fires (.advance 0 env) (some t) [] r := fires_of_resume hr
  have hcalls : [t].take 0 ++ r.2.2 ++ [t].drop (0 + 1) = r.2.2 := List.append_nil _
  rw [hcalls] at hok hdur ⊢
  exact ⟨hok, hdur, (links_of_exclusive hexcl hf).trans hc.links, exclusive_of_exclusive hexcl hf,
    buf_of_exclusive hc.ok.solo (hc.ok.threads t hmem) hexcl hbuf hf⟩

/-- **Compaction is crash safe for links.** Let a compaction run alone from any state a sequence of
calls leads to, and stop it at any section after its flush: with the scratch file absent, holding
any part of the text, or complete, with the snapshot replaced but the log still there, or with the
log truncated. Opening the directory as it is then rebuilds every link the index held when the
compaction started. -/
theorem crash_links {inst : InstanceId} {calls : List Call} {st : Store}
    (h : run Call.run (openEmpty inst) calls = some st) (hio : ∀ call ∈ calls, call.io = {})
    {envs : List Env} (henvs : ∀ env ∈ envs, env.io = {}) {m : Machine}
    (hrun : run Machine.step (idle st 0) (.compact :: envs.map (.advance 0)) = some m)
    (hflushed : ∀ t ∈ m.calls, t.flushes = false) (ord : Order) :
    (openStore ord m.store.dir m.store.inner.inst).inner.links = st.inner.links := by
  have hb := backed_run h hio
  obtain ⟨m₁, hstart, hadv⟩ := Transition.run_cons_eq_some.mp hrun
  have h₁ : Compacting st.inner.links m₁ := by
    have hok := ok_step (ok_idle hb.solo 0) hstart
    have hdur := durable_step (ok_idle hb.solo 0) (hb.durable 0) rfl rfl hstart
    have haof := hb.solo.aof_isNone
    have hm₁ : Machine.mk st 1 [] [.flushing true allShards []] [] = m₁ := by
      refine Option.some.inj (Eq.trans ?_ hstart)
      simp [Machine.step, start, idle, haof, Thread.hit]
    subst hm₁
    refine ⟨hok, hdur, rfl, .inr ⟨_, rfl, rfl⟩, fun hf ↦ ?_⟩
    exact absurd (hf _ List.mem_cons_self) (by simp [Thread.flushes])
  have hmeets : Meets Machine.step (fun _ l ↦ ∃ env, l = .advance 0 env ∧ env.io = {}) m₁
      (envs.map (.advance 0)) := by
    refine Transition.meets_of_forall (fun l hl ↦ ?_) m₁
    obtain ⟨env, henv, rfl⟩ := List.mem_map.mp hl
    exact ⟨env, rfl, henvs env henv⟩
  have hm : Compacting st.inner.links m := by
    refine Transition.run_invariant (fun m l m' hc hl hstep ↦ ?_) h₁ hmeets hadv
    obtain ⟨env, rfl, henv⟩ := hl
    exact hc.step henv hstep
  have hbuf := hm.buf hflushed
  have hheld : m.held = [] := by
    rcases hm.alone with hnil | ⟨t, ht, hexcl⟩
    · exact hm.ok.held_eq_nil hnil
    · exact hm.ok.held_eq_nil_of_exclusive (by rw [ht]; exact List.mem_singleton_self t) hexcl
  have hlinks := hm.durable.links
  rw [written, hheld, Store.logWrites, hbuf, writesOf_nil, worth_append] at hlinks
  rw [hm.ok.solo.files.links_openStore, ← hm.links, ← hlinks]
  exact congrArg _ ((List.append_nil _).trans (List.append_nil _)).symm

/-- One link, changed once. -/
def oneLink : List Call :=
  [.shorten (lit "u0") (some ⟨lit "a", codeOk_a⟩) 0 {}, .update (lit "a") (lit "u1") 7 true {}]

/-- The sections of a compaction up to its rename. -/
def upToRename : List Env := List.replicate (2 * NUM_SHARDS + 4) {}

theorem crash_links_before_truncate : ∃ st, run Call.run (openEmpty 0) oneLink = some st ∧
    ∃ m, run Machine.step (idle st 0) (.compact :: upToRename.map (.advance 0)) = some m ∧
      m.locked = true ∧
      (openStore (fun _ ↦ 0) m.store.dir m.store.inner.inst).inner.links = st.inner.links := by
  obtain ⟨st, hst, m, hm, hflushed, hlocked⟩ :
      ∃ st, run Call.run (openEmpty 0) oneLink = some st ∧
      ∃ m, run Machine.step (idle st 0) (.compact :: upToRename.map (.advance 0)) = some m ∧
        (∀ t ∈ m.calls, t.flushes = false) ∧ m.locked = true := by
    decide +kernel
  have hio : ∀ call ∈ oneLink, call.io = {} := by decide
  have henvs : ∀ env ∈ upToRename, env.io = {} := fun _ henv ↦ (List.mem_replicate.mp henv).2 ▸ rfl
  exact ⟨st, hst, m, hm, hlocked, crash_links hst hio henvs hm hflushed _⟩

/-! ## Compactions that fail -/

/-- A part of a snapshot puts the leading rows, and all of them only if it is the whole. -/
theorem writesOf_take_rowLines {rows : List (Bytes × Entry)} (h : ∀ p ∈ rows, codeOk p.1 = true)
    (n : ℕ) : ∃ j, writesOf ((rowLines rows).take n)
        = LastWrite.puts ((rows.take j).map fun p ↦ (p.1, p.2.link)) ∧
      (rows.length ≤ j → (rowLines rows).take n = rowLines rows) := by
  have htake : ∀ j, ∀ p ∈ rows.take j, codeOk p.1 = true :=
    fun j p hp ↦ h p (List.mem_of_mem_take hp)
  set ops := rows.pmap (fun p hp ↦ LogOp.row ⟨p.1, hp⟩ p.2.u p.2.a p.2.e p.2.i.toInt64 p.2.oh) h
    with hops
  have htext : rowLines rows = logText ops := rowLines_eq_logText h
  have hreplay : replayOps ((rowLines rows).take n)
      = replayOps (rowLines (rows.take (closedOps ops n))) := by
    rw [htext, replayOps_logText_take, replayOps_rowLines (htake _), List.map_take, List.map_take,
      ← replayOps_logText, ← htext, replayOps_rowLines h]
  refine ⟨closedOps ops n, ?_, fun hle ↦ ?_⟩
  · rw [writesOf, hreplay, ← writesOf_rowLines (htake _), writesOf]
  · rw [htext, List.take_of_length_le (length_logText_le_of_closedOps ?_)]
    rwa [hops, List.length_pmap]

/-- The snapshot holds a row for every entry. -/
theorem Solo.snapText_eq {st : Store} (hs : Solo st) (ord : Order) :
    st.snapText ord = rowLines (st.inner.shards.rows ord) := by
  have hshard : st.shardRowLines ord = fun k ↦ rowLines (st.inner.shards.shardRows ord k) :=
    funext (hs.shardRowLines_eq ord)
  rw [Store.snapText, hshard, rowLines, Framing.frame, Shards.rows, List.map_flatMap,
    List.flatMap_assoc]
  rfl

theorem Solo.codeOk_of_mem_rows {st : Store} (hs : Solo st) (ord : Order) :
    ∀ p ∈ st.inner.shards.rows ord, codeOk p.1 = true := fun _ hp ↦
  hs.index.codeOk ((Shards.mem_rows ord _).mp hp)

/-- **A part of a snapshot is worth the links only if it is the whole.** Each row is the only one of
its code, so none can be missing. -/
theorem Solo.links_take_snapText {st : Store} (hs : Solo st) (ord : Order) (n : ℕ) :
    (∀ c row, st.inner.links c = some row →
      worth (writesOf ((st.snapText ord).take n)) c = some row) ↔
      (st.snapText ord).take n = st.snapText ord := by
  have hmem : ∀ c row, (c, row) ∈ (st.inner.shards.rows ord).map (fun p ↦ (p.1, p.2.link)) ↔
      st.inner.links c = some row := by
    intro c row
    rw [List.mem_map, Inner.links, Option.map_eq_some_iff]
    constructor
    · rintro ⟨⟨c', e⟩, hp, heq⟩
      obtain ⟨rfl, rfl⟩ := Prod.mk.inj heq
      exact ⟨e, (Shards.mem_rows ord _).mp hp, rfl⟩
    · rintro ⟨e, hf, rfl⟩
      exact ⟨(c, e), (Shards.mem_rows ord _).mpr hf, rfl⟩
  rw [hs.snapText_eq]
  obtain ⟨j, hw, hall⟩ := writesOf_take_rowLines (hs.codeOk_of_mem_rows ord) n
  constructor
  · intro hlinks
    by_contra hne
    have hj : j < (st.inner.shards.rows ord).length := lt_of_not_ge fun hle ↦ hne (hall hle)
    -- The first row that is missing is about a code of its own.
    obtain ⟨p, hp⟩ : ∃ p, p = (st.inner.shards.rows ord)[j] := ⟨_, rfl⟩
    have hp' : p ∈ st.inner.shards.rows ord := hp ▸ List.getElem_mem hj
    have hnone : worth (writesOf ((rowLines (st.inner.shards.rows ord)).take n)) p.1 = none := by
      rw [hw]
      refine LastWrite.replay_of_forall_ne (fun w hmem hkey ↦ ?_) _
      obtain ⟨b, hb, rfl⟩ := List.mem_map.mp hmem
      obtain ⟨q, hq, rfl⟩ := List.mem_map.mp hb
      have hnd := Shards.nodup_keys_rows ord st.inner.shards
      rw [← List.take_append_drop j (st.inner.shards.rows ord), List.map_append,
        List.nodup_append] at hnd
      refine hnd.2.2 q.1 (List.mem_map_of_mem hq) p.1 (List.mem_map_of_mem ?_) hkey
      rw [List.drop_eq_getElem_cons hj, hp]
      exact List.mem_cons_self
    have hsome := hlinks _ _ ((hmem p.1 p.2.link).mp (List.mem_map_of_mem hp'))
    rw [hnone] at hsome
    contradiction
  · intro htake c row hrow
    rw [htake, writesOf_rowLines (hs.codeOk_of_mem_rows ord), worth, LastWrite.replay_puts hmem,
      hrow, Option.some_or]

section Compact

variable {st : Store} (hs : Solo st)
include hs

/-- The state in which a compaction truncates the log: the snapshot is the one it renamed, as far as
it was written, or else the one before. -/
theorem Solo.compact_eq (ord : Order) (io : CompactIo) : ∃ st₁ : Store, Solo st₁ ∧
    st.compact ord io = st₁.truncateAof ∧ st₁.inner.inst = st.inner.inst ∧
    st₁.snap = if io.fopen && io.renamed then io.reached ((st.flushLocked ord).snapText ord)
      else st.snap := by
  obtain ⟨hflush, hflushed⟩ := hs.flushLocked ord
  have hinst := hflushed.inst
  have hsnap := hflushed.snap
  have haof := Bool.eq_false_iff.mp hs.aof_isNone
  have htext : IsLog (st.flushLocked ord).inner.inst ((st.flushLocked ord).snapText ord) := by
    rw [hflush.snapText_eq]
    exact isLog_rowLines (hflush.codeOk_of_mem_rows ord) fun p hp ↦
      hflush.index.owner ((Shards.mem_rows ord _).mp hp)
  have htmp := hflush.writeTmp (htext.replaysOwn_reached io)
  rw [Store.compact, if_neg haof]
  by_cases hopen : io.fopen = true
  · simp only [hopen, Bool.true_and]
    by_cases hren : io.renamed = true
    · simp only [if_pos hren]
      refine ⟨_, htmp.renameTmp, rfl, hinst, ?_⟩
      rw [Store.snap_renameTmp (Store.tmpName_mem_writeTmp _), Store.tmp_writeTmp]
    · simp only [if_neg hren]
      refine ⟨_, htmp, rfl, hinst, ?_⟩
      rw [Store.snap_writeTmp, hsnap]
  · simp only [Bool.eq_false_iff.mpr hopen, Bool.false_and, if_neg Bool.false_ne_true]
    exact ⟨_, hflush, rfl, hinst, hsnap⟩

/-- What is left after a compaction, whatever became of its file operations, is the snapshot. -/
theorem Solo.links_reopen_compact (ord ord' : Order) (io : CompactIo) :
    ((st.compact ord io).reopen ord').inner.links
      = worth (writesOf (if io.fopen && io.renamed then
          io.reached ((st.flushLocked ord).snapText ord) else st.snap)) := by
  obtain ⟨st₁, hs₁, heq, -, hsnap⟩ := hs.compact_eq ord io
  rw [heq, hs₁.truncateAof.links_reopen, hs₁.snap_truncateAof, Store.logWrites,
    hs₁.log_truncateAof, hs₁.buf_truncateAof, writesOf_nil, List.append_nil, List.append_nil, hsnap]

/-- Every link is the instance's own, before a compaction and after the restart that follows. -/
theorem Solo.owner_of_links {c : Bytes} {row : LinkRow} (h : st.inner.links c = some row) :
    row.i = instInt st.inner.inst := by
  obtain ⟨e, hf, rfl⟩ := Option.map_eq_some_iff.mp h
  exact hs.index.owner hf

theorem Solo.inst_reopen_compact (ord ord' : Order) (io : CompactIo) :
    ((st.compact ord io).reopen ord').inner.inst = st.inner.inst := by
  obtain ⟨st₁, hs₁, heq, hinst, -⟩ := hs.compact_eq ord io
  rw [heq, Store.reopen, (hs₁.truncateAof.soloDir_close ord').inst_openStore,
    Store.inst_truncateAof, hinst]

end Compact

/-- **What a failed compaction loses.** After a compaction of any reachable store, opening again
rebuilds every code the instance owned, with its url, creation time and expiry, exactly when the new
snapshot was opened, written in full and renamed, or when it was not put in place and the snapshot
before it holds all the links already, without the log. -/
theorem compact_keeps_iff {inst : InstanceId} {calls : List Call} {st : Store}
    (h : run Call.run (openEmpty inst) calls = some st) (ord ord' : Order) (io : CompactIo) :
    (∀ c row, st.inner.links c = some row → row.i = instInt st.inner.inst →
      ∃ row', ((st.compact ord io).reopen ord').inner.links c = some row' ∧
        row'.u = row.u ∧ row'.a = row.a ∧ row'.e = row.e) ↔
    if io.fopen && io.renamed then
      io.reached ((st.flushLocked ord).snapText ord) = (st.flushLocked ord).snapText ord
    else ∀ c row, st.inner.links c = some row → worth (writesOf st.snap) c = some row := by
  have hs := solo_run h
  obtain ⟨hflush, hflushed⟩ := hs.flushLocked ord
  obtain ⟨st₁, hs₁, heq, hinst, -⟩ := hs.compact_eq ord io
  have hreopen : Solo ((st.compact ord io).reopen ord') := by
    rw [heq]
    exact hs₁.truncateAof.reopen ord'
  -- Owners agree, so the three fields are the whole row.
  have hrow : (∀ c row, st.inner.links c = some row → row.i = instInt st.inner.inst →
      ∃ row', ((st.compact ord io).reopen ord').inner.links c = some row' ∧
        row'.u = row.u ∧ row'.a = row.a ∧ row'.e = row.e) ↔
      ∀ c row, st.inner.links c = some row →
        ((st.compact ord io).reopen ord').inner.links c = some row := by
    constructor
    · intro hall c row hc
      have hi := hs.owner_of_links hc
      obtain ⟨row', hc', hu, ha, he⟩ := hall c row hc hi
      have hi' := hreopen.owner_of_links hc'
      rw [hs.inst_reopen_compact, ← hi] at hi'
      rw [hc', Option.some_inj, LinkRow.mk.injEq]
      exact ⟨hu, ha, he, hi'⟩
    · intro hall c row hc _
      exact ⟨row, hall c row hc, rfl, rfl, rfl⟩
  rw [hrow, hs.links_reopen_compact]
  split_ifs
  · rw [← hflushed.links, CompactIo.reached]
    cases hshort : io.short with
    | none =>
      have hall := (hflush.links_take_snapText ord ((st.flushLocked ord).snapText ord).length).mpr
        (List.take_length)
      rw [List.take_length] at hall
      exact ⟨fun _ ↦ rfl, fun _ ↦ hall⟩
    | some n =>
      exact hflush.links_take_snapText ord n
  · rfl

theorem compact_keeps_iff_renamed : ∃ st, run Call.run (openEmpty 0) oneLink = some st ∧
    ∀ c row, st.inner.links c = some row → row.i = instInt st.inner.inst →
      ∃ row', ((st.compact (fun _ ↦ 0) {}).reopen fun _ ↦ 0).inner.links c = some row' ∧
        row'.u = row.u ∧ row'.a = row.a ∧ row'.e = row.e := by
  obtain ⟨st, hst, -⟩ : ∃ st, run Call.run (openEmpty 0) oneLink = some st ∧ True := by
    decide +kernel
  exact ⟨st, hst, (compact_keeps_iff hst _ _ {}).mpr rfl⟩

/-- A compaction that cannot open its scratch file: the link is in the index, and gone after the
restart. -/
theorem compact_loses : ∃ st, run Call.run (openEmpty 0) oneLink = some st ∧
    (st.inner.links (lit "a")).map LinkRow.u = some (lit "u1") ∧
    ((st.compact (fun _ ↦ 0) { fopen := false }).reopen fun _ ↦ 0).inner.links (lit "a")
      = none := by
  decide +kernel

end Shrt
