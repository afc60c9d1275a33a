import Shrt.Machine.Counters

/-!
# Hits during a compaction

A resolve does not take the gate, so it can count a hit while a compaction is under way. The hit is
then in one of two places when the compaction copies the entry into the snapshot: in the counter
that is copied, and also pending, to be logged by a later flush. It is counted twice. And until the
log is truncated, a crash leaves the new snapshot with the old log behind it, so that the hits of
the log are counted twice unless a record in the log starts the count anew.

`Tally` says where the hits of a code are at every point of a run in which no hits are unlogged when
the entry is copied. Then a survivor counts every hit once, and after a crash no hit is counted
twice as long as the old log, if it is still there, adds no more than what is unlogged
(`hits_after_compaction`).
-/

namespace Shrt

open CounterLog (Touch Cell replay added added_append Settled)
open WriteBehind (Counted Parts)
open Transition (run Meets withGhost)

/-- What a call is about to write about a code: hits to add, or a copy of what the files are worth.
-/
def Thread.Copies (c : Bytes) (x : Int64) (st : Store) : Thread → Prop
  | flushing _ _ lines => ∀ t ∈ touches c lines, t.isAdd = true
  | snapshotting todo text => todo.Nodup ∧
      touches c text = if shardOf c ∈ todo then [] else [.set x]
  | publishing => tmpName st.inner.inst ∈ st.dir ∧ touches c st.tmp = [.set x]
  | truncating => touches c st.snap = [.set x]
  | _ => True

/-- A compaction that is about to truncate the log. -/
def Thread.isTruncating : Thread → Bool
  | truncating => true
  | _ => false

namespace Thread.Copies

variable {c : Bytes} {x y : Int64} {st st' : Store} {t : Thread}

/-- Only a compaction relies on files and on what they are worth. -/
theorem of_not_exclusive (h : t.Copies c x st) (he : t.exclusive = false) : t.Copies c y st' := by
  cases t with
  | snapshotting | publishing | truncating => exact nomatch he
  | _ => exact h

theorem congr (h : t.Copies c x st) (hinst : st'.inner.inst = st.inner.inst)
    (hdir : st'.dir = st.dir) (hxy : t.exclusive = true → y = x) : t.Copies c y st' := by
  cases t with
  | snapshotting todo text =>
    rw [hxy rfl]
    exact h
  | publishing =>
    rw [hxy rfl, Copies, Store.tmp, hinst, hdir]
    exact h
  | truncating =>
    rw [hxy rfl, Copies, Store.snap, hinst, hdir]
    exact h
  | _ => exact h

end Thread.Copies

/-- Whether a step leaves a code's link alone: it is no update and no removal of it. -/
def Label.spares (c : Bytes) : Label → Bool
  | update code .. => code ≠ c
  | remove code => code ≠ c
  | _ => true

namespace Machine

/-- Hits on a code that have been counted and are not in the log: those in the hands of a call, and
those pending. -/
def unlogged (m : Machine) (c : Bytes) : Int64 :=
  (m.calls.map (Thread.carried c)).sum + m.store.inner.shards.dirtyOf c

/-- When the entry of a code is copied into a snapshot, no hits on it are unlogged. -/
def copiesClean (m : Machine) (c : Bytes) (l : Label) : Bool := match m.acting l with
  | some (.snapshotting (k :: _) _) => decide (shardOf c = k → m.unlogged c = 0)
  | _ => true

/-- Where the hits of a code are, when `R` of them have been counted and the files are worth `x`. -/
structure Tally (c : Bytes) (R : ℕ) (x : Int64) (m : Machine) : Prop where
  ok : m.Ok
  present : (m.store.inner.find c).isSome = true
  held : ∀ h ∈ m.held, h.code ≠ c
  own : m.store.ownHits c = hitsHom R
  parts : Parts hitsHom R ({x} + ({m.store.inner.shards.dirtyOf c}
    + (m.calls.map (Thread.carried c) : Multiset Int64)))
  /-- The log stands on the snapshot it was begun on, until the new one is in place. -/
  files : ∃ base, Settled false (base ++ m.store.logTouches c) ∧
    replay ⟨false, 0⟩ (base ++ m.store.logTouches c) = ⟨true, x⟩ ∧
    (.truncating ∉ m.calls → touches c m.store.snap = base)
  copies : ∀ t ∈ m.calls, t.Copies c x m.store
  buf : ∀ t ∈ m.calls, t.exclusive = true → t.flushes = false → m.store.buf = []

theorem Tally.own_eq {c : Bytes} {R : ℕ} {x : Int64} {m : Machine} (h : m.Tally c R x) :
    m.store.ownHits c = x + m.unlogged c := by
  rw [h.own, ← h.parts.sum_eq, unlogged, Multiset.sum_add, Multiset.sum_add, Multiset.sum_singleton,
    Multiset.sum_singleton, Multiset.sum_coe, add_comm (List.sum _)]

/-! ## Moving hits -/

theorem count_hit_eq_zero {c : Bytes} {ts : List Thread} (h : ∀ t ∈ ts, t.carried c = 0) :
    (ts.filterMap Thread.hit).count c = 0 := by
  refine List.count_eq_zero.mpr fun hmem ↦ ?_
  obtain ⟨t, ht, hhit⟩ := List.mem_filterMap.mp hmem
  have hcarried := h t ht
  cases t with
  | counted code =>
    rw [Thread.hit, Option.some.injEq] at hhit
    rw [Thread.carried, if_pos hhit] at hcarried
    exact absurd hcarried (by decide)
  | _ => contradiction

/-- Held lines about other codes say nothing about this one. -/
theorem touches_linesOf {inst : InstanceId} {held : List Held} (h : ∀ x ∈ held, HeldOk inst x)
    {c : Bytes} (hne : ∀ x ∈ held, x.code ≠ c) (id : ℕ) : touches c (linesOf held id) = [] := by
  refine List.filterMap_eq_nil_iff.mpr fun o ho ↦ ?_
  rw [replayOps_linesOf h, List.mem_flatMap] at ho
  obtain ⟨x, hx, ho⟩ := ho
  have hx := (List.mem_filter.mp hx).1
  obtain ⟨op, -, hcode, hline, -⟩ := h x hx
  rw [hline, replayOps_line, List.mem_singleton] at ho
  rw [ho, touch_eq_none]
  rw [hcode]
  exact hne x hx

section Flow

variable {c : Bytes} {m : Machine} {st : Store} {old : Option Thread} {ts : List Thread} {R : ℕ}
  {x : Int64} {rest : Multiset Int64}

/-- **Every section moves hits from one party to another**: `moved` is what it logs. -/
theorem Flow.parts (hf : Flow c m st old ts) (hm : m.Ok)
    (hcopies : ∀ t ∈ old, t.Copies c x m.store) (hheld : ∀ h ∈ m.held, h.code ≠ c)
    (hown : m.store.ownHits c = hitsHom R)
    (h : Parts hitsHom R ({x} + ({m.store.inner.shards.dirtyOf c}
      + ((old.toList.map (Thread.carried c) : Multiset Int64) + rest)))) :
    ∃ moved : List (Touch Int64), (∀ t ∈ moved, t.isAdd = true) ∧
      (st.logTouches c = m.store.logTouches c ++ moved ∨
        old = some .truncating ∧ st.logTouches c = [] ∧ moved = []) ∧
      (moved = [] ∨ ∃ next lines, old = some (.flushing next [] lines)) ∧
      st.ownHits c = hitsHom (R + (ts.filterMap Thread.hit).count c) ∧
      Parts hitsHom (R + (ts.filterMap Thread.hit).count c) ({x + added moved}
        + ({st.inner.shards.dirtyOf c} + ((ts.map (Thread.carried c) : Multiset Int64) + rest))) := by
  have hzero : ∀ {ts : List Thread}, (∀ t ∈ ts, t.carried c = 0) →
      ∀ y ∈ (ts.map (Thread.carried c) : Multiset Int64), y = 0 := by
    intro ts hts y hy
    obtain ⟨t, ht, rfl⟩ := List.mem_map.mp (Multiset.mem_coe.mp hy)
    exact hts t ht
  have hleave : (∀ t ∈ old, t.carried c = 0) → Parts hitsHom R
      ({x} + ({m.store.inner.shards.dirtyOf c} + rest)) := by
    intro hold
    refine Parts.dismiss (hzero fun t ht ↦ hold t (Option.mem_toList.mp ht)) (h.congr ?_)
    rw [add_left_comm (singleton (m.store.inner.shards.dirtyOf c))]
  have hnil : added ([] : List (Touch Int64)) = 0 := rfl
  cases hf with
  | quiet hr hold hts =>
    refine ⟨[], by simp, .inl (by rw [hr.log, List.append_nil]), .inl rfl, ?_, ?_⟩
    · rw [hr.own, hown, count_hit_eq_zero hts, add_zero]
    · rw [hr.dirty, count_hit_eq_zero hts, hnil, add_zero, add_zero]
      refine ((hleave hold).zeros (hzero hts)).congr ?_
      abel
  | @keep t t' hr hcarried hhit =>
    have hcount : ([t'].filterMap Thread.hit).count c = 0 := by
      rw [List.filterMap_cons, hhit]
      rfl
    refine ⟨[], by simp, .inl (by rw [hr.log, List.append_nil]), .inl rfl, ?_, ?_⟩
    · rw [hr.own, hown, hcount, add_zero]
    · rw [hr.dirty, hcount, hnil, add_zero, add_zero, List.map_singleton, hcarried]
      exact h
  | count hr hold =>
    have hcount : (List.filterMap Thread.hit [.counted c]).count c = 1 := by simp [Thread.hit]
    refine ⟨[], by simp, .inl (by rw [hr.log, List.append_nil]), .inl rfl, ?_, ?_⟩
    · rw [hr.own, hown, hcount, map_add]
      rfl
    · rw [hr.dirty, hcount, hnil, add_zero, List.map_singleton, Thread.carried, if_pos rfl]
      refine (hleave hold).one.congr ?_
      rw [Multiset.coe_singleton, hitsHom_one]
      abel
  | mark hr =>
    refine ⟨[], by simp, .inl (by rw [hr.log, List.append_nil]), .inl rfl, ?_, ?_⟩
    · rw [hr.own, hown]
      rfl
    · rw [hr.dirty, hnil, add_zero]
      rw [Option.toList_some, List.map_singleton, Thread.carried, if_pos rfl,
        Multiset.coe_singleton] at h
      have hmerge : Parts hitsHom R ({m.store.inner.shards.dirtyOf c + 1} + ({x} + rest)) :=
        (h.congr (by abel)).merge
      refine hmerge.congr ?_
      rw [List.map_nil, Multiset.coe_nil, zero_add]
      abel
  | @drain next ks lines lines' hr hlines =>
    refine ⟨[], by simp, .inl (by rw [hr.log, List.append_nil]), .inl rfl, ?_, ?_⟩
    · rw [hr.own, hown]
      rfl
    · rw [hr.dirty, hnil, add_zero, List.map_singleton, Thread.carried, hlines, added_append,
        Store.added_pending, Multiset.coe_singleton]
      rw [Option.toList_some, List.map_singleton, Thread.carried, Multiset.coe_singleton] at h
      have hmerge : Parts hitsHom R ({added (touches c lines) + m.store.inner.shards.dirtyOf c}
          + ({x} + rest)) := (h.congr (by abel)).merge
      refine hmerge.zero.congr ?_
      abel
  | @write next lines ts hr hts =>
    have hcount := count_hit_eq_zero hts
    refine ⟨touches c lines, hcopies _ rfl, .inl hr.log, .inr ⟨next, lines, rfl⟩, ?_, ?_⟩
    · rw [hr.own, hown, hcount, add_zero]
    · rw [hr.dirty, hcount, add_zero]
      rw [Option.toList_some, List.map_singleton, Thread.carried, Multiset.coe_singleton] at h
      have hmerge : Parts hitsHom R ({x + added (touches c lines)}
          + ({m.store.inner.shards.dirtyOf c} + rest)) := (h.congr (by abel)).merge
      refine (hmerge.zeros (hzero hts)).congr ?_
      abel
  | @push id now exp full hr =>
    refine ⟨[], by simp, .inl ?_, .inl rfl, ?_, ?_⟩
    · rw [hr.log, touches_linesOf hm.held hheld]
    · rw [hr.own, hown]
      rfl
    · rw [hr.dirty, hnil, add_zero, List.map_nil, Multiset.coe_nil, zero_add]
      exact hleave fun t ht ↦ Option.some.inj ht ▸ rfl
  | truncate hr =>
    refine ⟨[], by simp, .inr ⟨rfl, hr.log, rfl⟩, .inl rfl, ?_, ?_⟩
    · rw [hr.own, hown]
      rfl
    · rw [hr.dirty, hnil, add_zero, List.map_nil, Multiset.coe_nil, zero_add]
      exact hleave fun t ht ↦ Option.some.inj ht ▸ rfl

end Flow

/-! ## One section -/

section Fires

variable {m : Machine} {l : Label} {old : Option Thread} {others : List Thread} {st : Store}
  {held : List Held} {ts : List Thread} {c : Bytes}

/-- A link stays. -/
theorem present_of_fires (hs : Solo m.store) (hspare : l.spares c = true)
    (hp : (m.store.inner.find c).isSome = true) (hf : m.Fires l old others (st, held, ts)) :
    (st.inner.find c).isSome = true := by
  have hput : ∀ code e, ((m.store.inner.put code e).find c).isSome = true := by
    intro code e
    rw [Inner.find_put]
    split_ifs
    · rfl
    · exact hp
  have hshards : ∀ {st : Store}, st.inner.shards = m.store.inner.shards →
      (st.inner.find c).isSome = true := by
    intro st h
    rw [Inner.find, h]
    exact hp
  cases hf with
  | create | createNext | count => exact hput ..
  | update _ hok =>
    obtain ⟨e, exp, -, -, rfl, -⟩ := Store.updateIndex_eq_ok hok
    exact hput ..
  | remove _ hok =>
    obtain ⟨e, -, -, rfl, -⟩ := Store.removeIndex_eq_ok hok
    refine (congrArg Option.isSome (Inner.find_erase ..)).trans ?_
    rw [if_neg (Ne.symm (of_decide_eq_true hspare))]
    exact hp
  | push =>
    refine hshards ?_
    split_ifs
    · exact Store.shards_flushIfFull _
    · rfl
  | readTails clk ord => exact hshards (hs.onlyTail_tailMissed ord _ clk).shards
  | markDirty => exact (congrArg Option.isSome (Shards.find_addDirty ..)).trans hp
  | pollTails ord now =>
    rw [Store.pollTails]
    split_ifs
    · exact hp
    · exact hshards (hs.onlyTail_pollLocked ord now).shards
  | drain => exact (congrArg Option.isSome (Shards.find_drain ..)).trans hp
  | write => exact hshards (Store.shards_flushAof _)
  | truncate => exact hshards (Store.shards_truncateAof _)
  | skip | createMany | miss | giveUp | flush | compact | fopen | fopenFailed | snapshot | fclose
  | rename | renameFailed => exact hp

/-- No call takes hold of a line about a link that stays. -/
theorem held_ne_of_fires (hspare : l.spares c = true) (hp : (m.store.inner.find c).isSome = true)
    (hheld : ∀ h ∈ m.held, h.code ≠ c) (hf : m.Fires l old others (st, held, ts)) :
    ∀ h ∈ held, h.code ≠ c := by
  have hfree : ∀ {code}, m.store.inner.find code = none → code ≠ c := by
    rintro code hnone rfl
    rw [hnone] at hp
    exact Bool.false_ne_true hp
  have happend : ∀ {x : Held}, x.code ≠ c → ∀ h ∈ m.held ++ [x], h.code ≠ c := by
    intro x hx h hh
    rcases List.mem_append.mp hh with hh | hh
    · exact hheld h hh
    · rwa [List.mem_singleton.mp hh]
  cases hf with
  | create _ _ _ _ hnone => exact happend (hfree hnone)
  | createNext hnone => exact happend (hfree hnone)
  | update => exact happend (of_decide_eq_true hspare)
  | remove => exact happend (of_decide_eq_true hspare)
  | push => exact fun h hh ↦ hheld h (List.mem_filter.mp hh).1
  | _ => exact hheld

/-- Only a rename changes the snapshot. -/
theorem snap_of_fires (hm : m.Ok) (hold : ∀ t ∈ old, t.Ok m.store.inner.inst)
    (hne : old ≠ some .publishing) (hf : m.Fires l old others (st, held, ts)) :
    st.snap = m.store.snap := by
  have hs := hm.solo
  have honly : ∀ {f : Inner → Inner}, OnlyTail m.store.inner (f m.store.inner) →
      (m.store.mapInner f).snap = m.store.snap := by
    intro f h
    rw [Store.snap, Store.mapInner, h.inst, Store.snap]
  cases hf with
  | update _ hok =>
    obtain ⟨e, exp, -, -, rfl, -⟩ := Store.updateIndex_eq_ok hok
    rfl
  | remove _ hok =>
    obtain ⟨e, -, -, rfl, -⟩ := Store.removeIndex_eq_ok hok
    rfl
  | push id =>
    split_ifs
    · exact (hs.toTidy.pushRaw (isLog_linesOf hm.held id)).snap_flushIfFull
    · rfl
  | readTails clk ord => exact honly (hs.onlyTail_tailMissed ord _ clk)
  | pollTails ord now =>
    rw [Store.pollTails]
    split_ifs
    · rfl
    · exact honly (hs.onlyTail_pollLocked ord now)
  | write => exact (hs.toTidy.pushRaw (hold _ rfl)).snap_flushAof
  | truncate => exact hs.snap_truncateAof
  | fopen | snapshot | fclose => exact Store.snap_writeTmp ..
  | rename | renameFailed => exact absurd rfl hne
  | _ => rfl

/-- What a call goes on to write is right. The files are worth `y` afterwards, which is not what
they were worth before only when a flush has written. -/
theorem copies_of_fires {R : ℕ} {x y : Int64} (ht : m.Tally c R x) (hfiles : m.filesOk l = true)
    (hclean : m.copiesClean c l = true) (hact : m.acting l = old) (hmem : ∀ t ∈ old, t ∈ m.calls)
    (hy : y = x ∨ ∃ next lines, old = some (.flushing next [] lines))
    (hf : m.Fires l old others (st, held, ts)) : ∀ t ∈ ts, t.Copies c y st := by
  have hs := ht.ok.solo
  have hold : ∀ t ∈ old, t.Copies c x m.store := fun t h ↦ ht.copies t (hmem t h)
  have hlog : ∀ t ∈ old, t.Ok m.store.inner.inst := fun t h ↦ ht.ok.threads t (hmem t h)
  have hone : ∀ {t : Thread}, t.Copies c y st → ∀ t' ∈ [t], t'.Copies c y st := by
    intro t h t' ht'
    rwa [List.mem_singleton.mp ht']
  have hsame : ∀ {t : Thread}, old = some t → t.flushes = false → y = x := by
    rintro t rfl hno
    rcases hy with hy | ⟨next, lines, hold⟩
    · exact hy
    · rw [Option.some.inj hold] at hno
      exact nomatch hno
  cases hf with
  | skip | push | giveUp | markDirty | pollTails | truncate => simp
  | flush | compact => exact hone (by simp [Thread.Copies])
  | @drain _ next k ks lines _ ord =>
    refine hone fun t hmem ↦ ?_
    rw [touches_append c (hlog _ rfl), hs.toTidy.touches_shardHits] at hmem
    rcases List.mem_append.mp hmem with hmem | hmem
    · exact hold _ rfl t hmem
    · split_ifs at hmem
      · exact Store.isAdd_of_mem_pending t hmem
      · exact absurd hmem List.not_mem_nil
  | write =>
    split_ifs
    · exact hone trivial
    · simp
  | fopen =>
    exact hone ⟨List.nodup_finRange _, (if_pos (List.mem_finRange _)).symm⟩
  | fopenFailed hio =>
    rw [filesOk_advance hact rfl] at hfiles
    simp_all
  | @snapshot _ k ks text _ ord wrote =>
    obtain ⟨hnodup, htext⟩ := hold _ rfl
    refine hone ⟨hnodup.of_cons, ?_⟩
    rw [hsame rfl rfl, touches_append c (hlog _ rfl), htext,
      Store.touches_shardRowLines fun h _ ↦ hs.index.codeOk h]
    by_cases hk : shardOf c = k
    · -- The entry is copied here: what it has counted is what the files are worth.
      rw [copiesClean, hact] at hclean
      have hown := ht.own_eq
      rw [of_decide_eq_true hclean hk, add_zero] at hown
      have hnot : shardOf c ∉ ks := hk ▸ (List.nodup_cons.mp hnodup).1
      have hpresent : (m.store.counter c).present = true := ht.present
      have hownx : (m.store.counter c).own = x := hown
      rw [if_pos hk, if_pos (hk ▸ List.mem_cons_self), if_neg hnot, hs.snapRow_eq, if_pos hpresent,
        hownx, List.nil_append]
    · rw [if_neg hk, List.append_nil]
      simp only [List.mem_cons, hk, false_or]
  | fclose =>
    rw [filesOk_advance hact rfl] at hfiles
    have hio := of_decide_eq_true hfiles
    refine hone ⟨Store.tmpName_mem_writeTmp _, ?_⟩
    rw [Store.tmp_writeTmp, hio, hsame rfl rfl]
    exact (hold _ rfl).2.trans (if_neg List.not_mem_nil)
  | rename =>
    obtain ⟨htmp, hcopy⟩ := hold _ rfl
    refine hone ?_
    rw [Thread.Copies, Store.snap_renameTmp htmp, hsame rfl rfl]
    exact hcopy
  | renameFailed hio =>
    rw [filesOk_advance hact rfl] at hfiles
    simp_all
  | create | createMany | createNext | update | remove | count | miss | readTails => exact hone trivial

/-- A compaction past its flush has an empty buffer. -/
theorem buf_of_fires (hs : Solo m.store) (hlog : ∀ t ∈ old, t.Ok m.store.inner.inst)
    (hold : ∀ t ∈ old, t.exclusive = true → t.flushes = false → m.store.buf = [])
    (hf : m.Fires l old others (st, held, ts)) :
    ∀ t ∈ ts, t.exclusive = true → t.flushes = false → st.buf = [] := by
  intro t ht hexcl hflushed
  cases hf with
  | skip | push | giveUp | markDirty | pollTails | truncate => exact absurd ht List.not_mem_nil
  | flush | compact | drain =>
    rw [List.mem_singleton.mp ht] at hflushed
    exact nomatch hflushed
  | write => exact (hs.toTidy.pushRaw (hlog _ rfl)).buf_flushAof
  | fopen | fopenFailed | snapshot | fclose | rename | renameFailed => exact hold _ rfl rfl rfl
  | create | createMany | createNext | update | remove | count | miss | readTails =>
    rw [List.mem_singleton.mp ht] at hexcl
    exact nomatch hexcl

end Fires

/-! ## Steps -/

theorem coe_splice {α β : Type*} (f : α → β) (l₁ xs l₂ : List α) :
    ((l₁ ++ xs ++ l₂).map f : Multiset β)
      = (xs.map f : Multiset β) + ((l₁ ++ l₂).map f : Multiset β) := by
  simp only [List.map_append, ← Multiset.coe_add]
  abel

/-- What the files are worth after a section, over the snapshot the log was begun on. -/
theorem files_of_fires {m : Machine} {l : Label} {old : Option Thread} {others : List Thread}
    {st : Store} {held : List Held} {ts : List Thread} {c : Bytes} {x : Int64} {calls : List Thread}
    {moved : List (Touch Int64)} (hm : m.Ok) (hok : ∀ t ∈ old, t.Ok m.store.inner.inst)
    (hold : ∀ t ∈ old, t.Copies c x m.store)
    (hfiles : ∃ base, Settled false (base ++ m.store.logTouches c) ∧
      replay ⟨false, 0⟩ (base ++ m.store.logTouches c) = ⟨true, x⟩ ∧
      (.truncating ∉ m.calls → touches c m.store.snap = base))
    (hcalls : ∀ t ∈ m.calls, t ∈ old ∨ t ∈ calls) (hts : ∀ t ∈ ts, t ∈ calls)
    (hadd : ∀ t ∈ moved, t.isAdd = true)
    (hlog : st.logTouches c = m.store.logTouches c ++ moved ∨
      old = some .truncating ∧ st.logTouches c = [] ∧ moved = [])
    (hmoved : moved = [] ∨ ∃ next lines, old = some (.flushing next [] lines))
    (hf : m.Fires l old others (st, held, ts)) :
    ∃ base, Settled false (base ++ st.logTouches c) ∧
      replay ⟨false, 0⟩ (base ++ st.logTouches c) = ⟨true, x + added moved⟩ ∧
      (.truncating ∉ calls → touches c st.snap = base) := by
  obtain ⟨base, hset, hrep, hsnap⟩ := hfiles
  by_cases htrunc : old = some .truncating
  · -- The new snapshot is in place, and the log goes.
    have hst : st.logTouches c = [] := by
      subst htrunc
      cases hf with
      | truncate => exact hm.solo.toTidy.logTouches_truncateAof c
      | count hwho => exact (not_count_of_exclusive rfl hwho).elim
    have hnil : moved = [] := by
      rcases hmoved with hnil | ⟨next, lines, heq⟩
      · exact hnil
      · rw [htrunc] at heq
        exact nomatch heq
    have hcopy : touches c m.store.snap = [.set x] := hold _ htrunc
    refine ⟨[.set x], ?_, ?_, fun _ ↦ ?_⟩
    · rw [hst]
      trivial
    · rw [hst, hnil]
      rfl
    · rw [snap_of_fires hm hok (by rw [htrunc]; exact nofun) hf]
      exact hcopy
  · have hlog : st.logTouches c = m.store.logTouches c ++ moved := by
      rcases hlog with h | ⟨h, -⟩
      · exact h
      · exact absurd h htrunc
    refine ⟨base, ?_, ?_, fun hnot ↦ ?_⟩
    · rw [hlog, ← List.append_assoc]
      refine (CounterLog.settled_append ⟨false, 0⟩).mpr ⟨hset, ?_⟩
      rw [hrep]
      exact CounterLog.settled_of_isAdd hadd
    · rw [hlog, ← List.append_assoc, CounterLog.replay_append, hrep,
        CounterLog.replay_of_isAdd hadd]
    · by_cases hpub : old = some .publishing
      · -- The rename has just put the new snapshot in place.
        subst hpub
        cases hf with
        | rename => exact absurd (hts _ List.mem_cons_self) hnot
        | renameFailed => exact absurd (hts _ List.mem_cons_self) hnot
        | count hwho => exact (not_count_of_exclusive rfl hwho).elim
      · rw [snap_of_fires hm hok hpub hf]
        refine hsnap fun hmem ↦ ?_
        rcases hcalls _ hmem with h | h
        · exact htrunc h
        · exact hnot h

/-- **Every step keeps the tally**, as long as entries are copied with no hits unlogged. -/
theorem tally_step {m m' : Machine} {l : Label} {c : Bytes} {R : ℕ} {x : Int64}
    (ht : m.Tally c (R + m.resolved.count c) x) (hspare : l.spares c = true)
    (hfiles : m.filesOk l = true) (hclean : m.copiesClean c l = true) (h : m.step l = some m') :
    ∃ y, m'.Tally c (R + m'.resolved.count c) y := by
  obtain ⟨l₁, l₂, ts, hcalls, hcalls', hres, hf⟩ := step_eq_some h
  have hm := ht.ok
  obtain ⟨hact, hothers, -, hbeside⟩ := hm.split hcalls
  have hlog : ∀ t ∈ m.acting l, t.Ok m.store.inner.inst := fun t h ↦ hm.threads t (hact t h)
  have hold : ∀ t ∈ m.acting l, t.Copies c x m.store := fun t h ↦ ht.copies t (hact t h)
  have hdel : l ≠ .remove c := by
    rintro rfl
    simp [Label.spares] at hspare
  have hparts := ht.parts
  rw [hcalls, coe_splice] at hparts
  obtain ⟨moved, hadd, hmove, hmoved, hown, hparts'⟩ :=
    (flow_of_fires hm hlog hdel hf).parts hm hold ht.held ht.own hparts
  have hcount : R + m.resolved.count c + (ts.filterMap Thread.hit).count c
      = R + m'.resolved.count c := by
    rw [hres, List.count_append]
    omega
  rw [hcount] at hown hparts'
  have hsame : x + added moved = x ∨ ∃ next lines, m.acting l = some (.flushing next [] lines) := by
    refine hmoved.imp_left fun hnil ↦ ?_
    rw [hnil]
    exact add_zero x
  have hframe := frame_of_fires hm.solo hbeside hf
  refine ⟨x + added moved, ok_step hm h, present_of_fires hm.solo hspare ht.present hf,
    held_ne_of_fires hspare ht.present ht.held hf, hown, ?_, ?_, ?_, ?_⟩
  · rw [hcalls', coe_splice]
    exact hparts'
  · refine files_of_fires hm hlog hold ht.files (fun t ht ↦ ?_) (fun t ht ↦ ?_) hadd hmove hmoved hf
    · rw [hcalls, mem_splice, List.mem_append, Option.mem_toList] at ht
      rw [hcalls', mem_splice]
      exact ht.imp_right (List.mem_append_right _)
    · rw [hcalls', mem_splice]
      exact List.mem_append_left _ ht
  · intro t htm
    rw [hcalls', mem_splice] at htm
    rcases List.mem_append.mp htm with htm | htm
    · exact copies_of_fires ht hfiles hclean rfl hact hsame hf t htm
    · have hcopies := ht.copies t (hothers t htm)
      rcases hframe with hno | ⟨hdir, -, -⟩
      · exact hcopies.of_not_exclusive (hno t htm)
      · refine hcopies.congr (inst_of_fires hm.solo hf) hdir fun hexcl ↦ ?_
        -- A flush that writes leaves no compaction beside it.
        rcases hsame with hsame | ⟨next, lines, hflush⟩
        · exact hsame
        · exact absurd ⟨hexcl, rfl⟩ (hbeside _ hflush t htm).2
  · intro t htm hexcl hflushed
    rw [hcalls', mem_splice] at htm
    rcases List.mem_append.mp htm with htm | htm
    · exact buf_of_fires hm.solo hlog (fun t h ↦ ht.buf t (hact t h)) hf t htm hexcl hflushed
    · have hbuf := ht.buf t (hothers t htm) hexcl hflushed
      rcases hframe with hno | ⟨-, haof, -⟩
      · rw [hno t htm] at hexcl
        exact nomatch hexcl
      · rw [Store.buf, haof]
        exact hbuf

/-! ## Runs -/

/-- A store whose hits are all accounted for, before any call is in flight. -/
theorem tally_idle {st : Store} {c : Bytes} {R : ℕ} (hs : Solo st)
    (hp : (st.inner.find c).isSome = true) (h : Counted hitsHom R (st.counter c)) (n : ℕ) :
    ∃ x, (idle st n).Tally c R x := by
  obtain ⟨l, d, hrep, hpend, rfl⟩ := h.logged
  have hpresent : (st.counter c).present = true := hp
  rw [hpresent] at hrep
  have hdirty : st.inner.shards.dirtyOf c = hitsHom d := hpend
  refine ⟨hitsHom l, ok_idle hs n, hp, by simp [idle], h.own, ⟨{l, d}, ?_, ?_⟩,
    ⟨touches c st.snap, h.settled, hrep, fun _ ↦ rfl⟩, by simp [idle], by simp [idle]⟩
  · simp [idle, hdirty]
  · simp

/-- A survivor has every hit in the log or pending. -/
theorem Tally.counted {m : Machine} {c : Bytes} {R : ℕ} {x : Int64} (ht : m.Tally c R x)
    (hdone : m.calls = []) : Counted hitsHom R (m.store.counter c) := by
  obtain ⟨base, hset, hrep, hsnap⟩ := ht.files
  have hbase := hsnap (by rw [hdone]; exact List.not_mem_nil)
  have hparts := ht.parts
  rw [hdone, List.map_nil, Multiset.coe_nil, add_zero] at hparts
  obtain ⟨n, u, rfl, rfl, hu⟩ := hparts.cons
  have hdirty : m.store.inner.shards.dirtyOf c = hitsHom u := by
    have hsum := hu.sum_eq
    rwa [Multiset.sum_singleton] at hsum
  have hpresent : (m.store.counter c).present = true := ht.present
  rw [← hbase] at hset hrep
  refine ⟨hset, fun hno ↦ ?_, ht.own, n, u, ?_, hdirty, rfl⟩
  · rw [hpresent] at hno
    exact nomatch hno
  · rw [hpresent]
    exact hrep

/-- The machine can crash without a hit being counted twice: a log that is still there behind a new
snapshot holds a record of the code, or counts no more than what is lost. -/
def crashClean (m : Machine) (c : Bytes) : Bool :=
  !m.calls.any Thread.isTruncating || !(touches c m.store.log).all Touch.isAdd ||
    decide ((added (touches c m.store.log)).toUInt64 ≤ (m.unlogged c).toUInt64)

theorem toInt_hitsHom_le (n : ℕ) : (hitsHom n).toInt ≤ n := by
  have hmod : (n : ℤ) % (Int64.size : ℕ) ≤ n := by exact_mod_cast Nat.mod_le n Int64.size
  have hint : (hitsHom n).toInt = (n : ℤ).bmod Int64.size := Int64.toInt_ofNat' ..
  rw [hint, Int.bmod_def]
  split_ifs <;> omega

theorem hitsHom_toUInt64 (a : Int64) : hitsHom a.toUInt64.toNat = a := by
  refine Int64.toBitVec_inj.mp ?_
  have h : hitsHom a.toUInt64.toNat = Int64.ofNat a.toUInt64.toNat := rfl
  rw [h]
  simp

theorem toNat_toUInt64_hitsHom_le (n : ℕ) : (hitsHom n).toUInt64.toNat ≤ n := by
  have h : (hitsHom n).toUInt64 = UInt64.ofNat n := Int64.toUInt64_ofNat' ..
  rw [h]
  exact Nat.mod_le ..

/-- What is found after a crash is no more than what was counted. -/
theorem Tally.crash {m : Machine} {c : Bytes} {R : ℕ} {x : Int64} (ht : m.Tally c R x)
    (hbuf : m.store.buf = []) (hclean : m.crashClean c = true) (ord : Order) :
    ∃ n ≤ R, (openStore ord m.store.dir m.store.inner.inst).inner.cell c = ⟨true, hitsHom n⟩ := by
  obtain ⟨base, hset, hrep, hsnap⟩ := ht.files
  obtain ⟨n, u, rfl, rfl, hu⟩ := ht.parts.cons
  have hlog : m.store.logTouches c = touches c m.store.log := by
    rw [Store.logTouches, hbuf, touches_nil, List.append_nil]
  rw [hlog] at hset hrep
  have hopen := fun hset ↦ ht.ok.solo.files.cell_openStore ord (c := c) hset
  by_cases htrunc : .truncating ∈ m.calls
  · -- The new snapshot is in place and the old log behind it.
    have hcopy : touches c m.store.snap = [.set (hitsHom n)] := ht.copies _ htrunc
    obtain ⟨hbase, hset⟩ := (CounterLog.settled_append ⟨false, 0⟩).mp hset
    have hsettled : Settled false (touches c m.store.snap ++ touches c m.store.log) := by
      rw [hcopy]
      exact hset.of_present
    rw [hopen hsettled]
    have hover := CounterLog.replay_over (hitsHom n)
      (CounterLog.total_replay_of_settled (c := ⟨false, 0⟩) (fun _ ↦ rfl) hbase) hset
    rw [← CounterLog.replay_append, hrep] at hover
    have hcell : replay ⟨false, 0⟩ (touches c (m.store.dir.content (snapName m.store.inner.inst))
        ++ touches c (m.store.dir.content (logName m.store.inner.inst)))
        = replay ⟨true, hitsHom n⟩ (touches c m.store.log) := by
      have hfirst : replay ⟨false, 0⟩ [Touch.set (hitsHom n)] = ⟨true, hitsHom n⟩ :=
        congrArg (Cell.mk true) (add_zero _)
      refine Eq.trans (congrArg (fun ts ↦ replay _ (ts ++ _)) hcopy) ?_
      rw [CounterLog.replay_append, hfirst]
      rfl
    rw [hcell, hover]
    split_ifs with hall
    · have hany : m.calls.any Thread.isTruncating = true :=
        List.any_eq_true.mpr ⟨_, htrunc, rfl⟩
      rw [crashClean, hany, hall] at hclean
      have hle : (added (touches c m.store.log)).toUInt64.toNat ≤ (m.unlogged c).toUInt64.toNat :=
        UInt64.le_iff_toNat_le.mp (of_decide_eq_true hclean)
      have hunlogged : m.unlogged c = hitsHom u := by
        have hsum := hu.sum_eq
        rw [Multiset.sum_add, Multiset.sum_singleton, Multiset.sum_coe] at hsum
        rw [unlogged, add_comm]
        exact hsum
      rw [hunlogged] at hle
      refine ⟨n + (added (touches c m.store.log)).toUInt64.toNat,
        Nat.add_le_add_left (hle.trans (toNat_toUInt64_hitsHom_le u)) n, ?_⟩
      rw [map_add, hitsHom_toUInt64]
    · exact ⟨n, Nat.le_add_right n u, rfl⟩
  · rw [← hsnap htrunc] at hset hrep
    exact ⟨n, Nat.le_add_right n u, (hopen hset).trans hrep⟩

end Machine

open Machine

/-- Whether a call leaves a code's link alone: it is no update and no removal of it. -/
def Call.spares (c : Bytes) : Call → Bool
  | update code .. => code ≠ c
  | remove code => code ≠ c
  | _ => true

theorem Call.keeps_of_spares {call : Call} {c : Bytes} (h : call.spares c = true) (st : Store) :
    call.Keeps c st := by
  cases call with
  | update code url ttl hasTtl env =>
    have hne : code ≠ c := of_decide_eq_true h
    exact fun hc ↦ absurd hc hne
  | remove code =>
    have hne : code ≠ c := of_decide_eq_true h
    exact hne
  | _ => trivial

/-- One more call, and the hits on a code so far. -/
def countHits (c : Bytes) (k : ℕ) (st : Store) (call : Call) : ℕ := k + call.hits c st

/-- The hits on a code that a sequence of calls counts. -/
def hitsIn (c : Bytes) (st : Store) (calls : List Call) : ℕ :=
  Transition.ghost Call.run (countHits c) 0 st calls

/-- Sequential calls that leave the link alone count every hit once. -/
theorem counted_run {inst : InstanceId} {calls : List Call} {st : Store} {c : Bytes}
    (h : run Call.run (openEmpty inst) calls = some st)
    (hcalls : ∀ call ∈ calls, call.io = {} ∧ call.spares c = true) :
    Counted hitsHom (hitsIn c (openEmpty inst) calls) (st.counter c) := by
  have hrun : run (withGhost Call.run (countHits c)) (openEmpty inst, 0) calls
      = some (st, hitsIn c (openEmpty inst) calls) := Transition.run_withGhost h 0
  have hmeets : Meets (withGhost Call.run (countHits c))
      (fun _ call ↦ call.io = {} ∧ call.spares c = true) (openEmpty inst, 0) calls :=
    Transition.meets_of_forall hcalls _
  refine (Transition.run_invariant (P := fun p : Store × ℕ ↦
    Solo p.1 ∧ Counted hitsHom p.2 (p.1.counter c)) ?_
    ⟨solo_openEmpty inst, counted_openEmpty inst c⟩ hmeets hrun).2
  rintro ⟨st, k⟩ call ⟨st', k'⟩ ⟨hs, hcount⟩ ⟨hio, hspare⟩ hstep
  obtain ⟨hstep, rfl⟩ := Transition.withGhost_eq_some.mp hstep
  exact ⟨solo_call hs hstep, counted_call hs hio (Call.keeps_of_spares hspare st) hstep hcount⟩

/-- **When a compaction counts each hit exactly once.** From any state that sequential calls lead
to, let calls interleave in any way, compactions among them, leaving one link alone. Suppose that
whenever a compaction copies the entry of that link, no hit on it is unlogged. Then, once all calls
have returned, closing and opening again reports as many hits as were resolved, in all. After a
crash inside a compaction, past its flush, opening the directory reports at most that many, unless
the crash falls between the rename and the truncation and the log that is left adds more hits than
are lost. -/
theorem hits_after_compaction {inst : InstanceId} {calls : List Call} {st : Store} {c : Bytes}
    (hst : run Call.run (openEmpty inst) calls = some st)
    (hcalls : ∀ call ∈ calls, call.io = {} ∧ call.spares c = true)
    (hp : (st.inner.find c).isSome = true) {n : ℕ} {ls : List Label} {m : Machine}
    (h : run Machine.step (idle st n) ls = some m) (hls : ∀ l ∈ ls, l.spares c = true)
    (hmeets : Meets Machine.step (fun m l ↦ m.filesOk l = true ∧ m.copiesClean c l = true)
      (idle st n) ls) :
    (m.calls = [] → ∀ ord, ((m.store.reopen ord).stats c).map Store.Link.hits
      = some (Int64.ofNat (hitsIn c (openEmpty inst) calls + m.resolved.count c))) ∧
    ((∃ t ∈ m.calls, t.exclusive = true ∧ t.flushes = false) ∨ m.store.buf = [] →
      m.crashClean c = true → ∀ ord, ∃ link,
        (openStore ord m.store.dir m.store.inner.inst).stats c = some link ∧
        link.hits.toInt ≤ hitsIn c (openEmpty inst) calls + m.resolved.count c) := by
  have hs : Solo st := solo_run hst
  obtain ⟨x, hidle⟩ := tally_idle hs hp (counted_run hst hcalls) n
  have hinv : ∃ y, m.Tally c (hitsIn c (openEmpty inst) calls + m.resolved.count c) y := by
    refine Transition.run_invariant (P := fun m : Machine ↦
      ∃ y, m.Tally c (hitsIn c (openEmpty inst) calls + m.resolved.count c) y) ?_
      (s := idle st n) ⟨x, hidle⟩ (hmeets.and (Transition.meets_of_forall hls _)) h
    rintro m l m' ⟨y, ht⟩ ⟨⟨hfiles, hclean⟩, hspare⟩ hstep
    exact tally_step ht hspare hfiles hclean hstep
  obtain ⟨y, ht⟩ := hinv
  constructor
  · intro hdone ord
    have hR := ht.counted hdone
    have hpresent : (m.store.counter c).present = true := ht.present
    rw [ht.ok.solo.hits_stats_reopen ord hR.settled_files_todo, hR.outcome_eq, hpresent, if_pos rfl]
    exact congrArg some ht.own
  · intro hbuf hclean ord
    have hempty : m.store.buf = [] := by
      rcases hbuf with ⟨t, hmem, hexcl, hflush⟩ | hbuf
      · exact ht.buf t hmem hexcl hflush
      · exact hbuf
    obtain ⟨k, hk, hcell⟩ := ht.crash hempty hclean ord
    obtain ⟨e, hfind, hhits⟩ := Inner.find_of_cell_present hcell
    refine ⟨_, by rw [Store.stats, hfind, Option.map_some], ?_⟩
    calc e.h.toInt = (hitsHom k).toInt := by rw [hhits]
      _ ≤ k := toInt_hitsHom_le k
      _ ≤ _ := by exact_mod_cast hk

/-- The sections of a compaction up to the walk of the shards. -/
def toSnapshot : List Label := .compact :: List.replicate (NUM_SHARDS + 2) (.advance 0 {})

/-- The sections of a compaction from there up to the truncation of the log. -/
def fromSnapshot : List Label := List.replicate (NUM_SHARDS + 2) (.advance 0 {})

/-- A link that is hit once. -/
def hitLink : List Call :=
  [.shorten (lit "u") (some ⟨lit "a", codeOk_a⟩) 0 {}, .resolve (lit "a") {}]

/-- A hit between the rename and the truncation. -/
def hitAfterCopy : List Label :=
  toSnapshot ++ fromSnapshot ++ [.resolve (lit "a") {}, .advance 1 {}]

theorem hits_after_compaction_hitAfterCopy :
    ∃ st, run Call.run (openEmpty 0) hitLink = some st ∧
    (∃ m, run Machine.step (idle st 0) hitAfterCopy = some m ∧
      ∀ ord, ∃ link, (openStore ord m.store.dir m.store.inner.inst).stats (lit "a") = some link ∧
        link.hits.toInt ≤ 2) ∧
    ∃ m, run Machine.step (idle st 0) (hitAfterCopy ++ [.advance 0 {}]) = some m ∧
      ∀ ord, ((m.store.reopen ord).stats (lit "a")).map Store.Link.hits = some 2 := by
  obtain ⟨st, hst, hp, hmeets₁, hmeets₂, ⟨m₁, hm₁, hone₁, hbuf, hclean⟩, m₂, hm₂, hone₂, hdone⟩ :
      ∃ st, run Call.run (openEmpty 0) hitLink = some st ∧ (st.inner.find (lit "a")).isSome = true ∧
        Meets Machine.step (fun m l ↦ m.filesOk l = true ∧ m.copiesClean (lit "a") l = true)
          (idle st 0) hitAfterCopy ∧
        Meets Machine.step (fun m l ↦ m.filesOk l = true ∧ m.copiesClean (lit "a") l = true)
          (idle st 0) (hitAfterCopy ++ [.advance 0 {}]) ∧
        (∃ m, run Machine.step (idle st 0) hitAfterCopy = some m ∧
          m.resolved.count (lit "a") = 1 ∧ m.store.buf = [] ∧ m.crashClean (lit "a") = true) ∧
        ∃ m, run Machine.step (idle st 0) (hitAfterCopy ++ [.advance 0 {}]) = some m ∧
          m.resolved.count (lit "a") = 1 ∧ m.calls.isEmpty = true := by
    decide +kernel
  have hcalls : ∀ call ∈ hitLink, call.io = {} ∧ call.spares (lit "a") = true := by decide
  have hls : ∀ l ∈ hitAfterCopy ++ [.advance 0 {}], l.spares (lit "a") = true := by decide +kernel
  have hhits : hitsIn (lit "a") (openEmpty 0) hitLink = 1 := by decide +kernel
  obtain ⟨-, hcrash⟩ := hits_after_compaction hst hcalls hp hm₁
    (fun l hl ↦ hls l (List.mem_append_left _ hl)) hmeets₁
  obtain ⟨hsurvive, -⟩ := hits_after_compaction hst hcalls hp hm₂ hls hmeets₂
  rw [hhits, hone₁] at hcrash
  rw [hhits, hone₂] at hsurvive
  exact ⟨st, hst, ⟨m₁, hm₁, hcrash (.inr hbuf) hclean⟩, m₂, hm₂,
    hsurvive (List.isEmpty_iff.mp hdone)⟩

/-- A hit while a compaction is about to walk the shards. -/
def hitBeforeCopy : List Label :=
  toSnapshot ++ [.resolve (lit "a") {}, .advance 1 {}] ++ fromSnapshot ++ [.advance 0 {}]

theorem hit_counted_twice : ∃ st, run Call.run (openEmpty 0) hitLink = some st ∧
    ∃ m, run Machine.step (idle st 0) hitBeforeCopy = some m ∧ m.calls.isEmpty = true ∧
      hitsIn (lit "a") (openEmpty 0) hitLink + m.resolved.count (lit "a") = 2 ∧
      ((m.store.reopen fun _ ↦ 0).stats (lit "a")).map Store.Link.hits = some 3 := by
  decide +kernel

end Shrt
