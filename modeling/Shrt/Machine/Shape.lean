import Shrt.Machine.Basic
import Shrt.Store.Solo

/-!
# The shape of a machine

What holds of one instance with calls in flight, whatever the scheduler does and whatever becomes
of the file operations: the store is alone in its directory, every line on its way to a file is a
line of this instance, every held line belongs to a call that will push it, and the gate keeps a
compaction away from everything but resolves (`ok_step`).
-/

namespace Shrt

open Transition (run)

/-- A held line is a line of this instance about the code it is held for: a row or a tombstone. -/
def HeldOk (inst : InstanceId) (h : Held) : Prop :=
  ∃ op : LogOp, op.Own inst ∧ op.code.1 = h.code ∧ h.line = op.line ∧ ∀ c d i, op ≠ .hit c d i

namespace Thread

/-- What a call carries is well formed. -/
def Ok (inst : InstanceId) : Thread → Prop
  | counted code => codeOk code = true
  | flushing _ _ lines => IsLog inst lines
  | snapshotting _ text => IsLog inst text
  | _ => True

/-- Two calls the gate admits together. -/
def Compat (t t' : Thread) : Prop :=
  ¬ (t.exclusive = true ∧ t'.gated = true) ∧ ¬ (t'.exclusive = true ∧ t.gated = true)

/-- The call that will push the lines tagged with `id`. -/
def Holds (id : ℕ) (t : Thread) : Prop := ∃ urls now exp full, t = .logging id urls now exp full

theorem Compat.symm {t t' : Thread} (h : Compat t t') : Compat t' t := ⟨h.2, h.1⟩

instance : Std.Symm Compat := ⟨fun _ _ ↦ Compat.symm⟩

/-- A call that takes no more of the gate than before stays admitted. -/
theorem Compat.mono {t t' u : Thread} (h : Compat t u) (he : t'.exclusive = true → t.exclusive = true)
    (hg : t'.gated = true → t.gated = true) : Compat t' u :=
  ⟨fun h' ↦ h.1 ⟨he h'.1, h'.2⟩, fun h' ↦ h.2 ⟨h'.1, hg h'.2⟩⟩

theorem compat_of_ungated {t u : Thread} (he : t.exclusive = false) (hg : t.gated = false) :
    Compat t u := by
  rw [Compat, he, hg]
  simp

theorem compat_of_shared {t u : Thread} (he : t.exclusive = false) (hu : u.exclusive = false) :
    Compat t u := by
  rw [Compat, he, hu]
  simp

theorem gated_of_exclusive {t : Thread} (h : t.exclusive = true) : t.gated = true := by
  cases t <;> simp_all [exclusive, gated]

theorem compat_of_alone {t u : Thread} (hu : u.gated = false) : Compat t u := by
  have he : u.exclusive = false := by
    rw [Bool.eq_false_iff]
    intro h
    rw [gated_of_exclusive h] at hu
    exact absurd hu (by decide)
  rw [Compat, he, hu]
  simp

end Thread

namespace Machine

/-- The shape of a machine. -/
structure Ok (m : Machine) : Prop where
  solo : Solo m.store
  held : ∀ h ∈ m.held, HeldOk m.store.inner.inst h
  threads : ∀ t ∈ m.calls, t.Ok m.store.inner.inst
  gate : m.calls.Pairwise Thread.Compat
  holder : ∀ h ∈ m.held, ∃ t ∈ m.calls, t.Holds h.id

variable {m : Machine} {l : Label} {old : Option Thread} {others : List Thread} {st : Store}
  {held : List Held} {ts : List Thread}

/-! ## One section -/

/-- The lines a call holds are lines. -/
theorem isLog_linesOf {inst : InstanceId} {held : List Held} (h : ∀ x ∈ held, HeldOk inst x)
    (id : ℕ) : IsLog inst (linesOf held id) := by
  induction held with
  | nil => exact isLog_nil
  | cons x held ih =>
    have ih := ih fun y hy ↦ h y (List.mem_cons_of_mem _ hy)
    obtain ⟨op, hown, -, hline, -⟩ := h x List.mem_cons_self
    rw [linesOf, List.filter_cons]
    split_ifs
    · rw [List.map_cons, Framing.frame_cons, hline]
      have hl := (isLog_line hown).append ih
      rwa [List.append_assoc, List.singleton_append] at hl
    · exact ih

/-- The lines a call holds are read one by one. -/
theorem replayOps_linesOf {inst : InstanceId} {held : List Held} (h : ∀ x ∈ held, HeldOk inst x)
    (id : ℕ) : replayOps (linesOf held id)
      = (held.filter fun x ↦ x.id = id).flatMap fun x ↦ replayOps (x.line ++ [NL]) := by
  induction held with
  | nil => rfl
  | cons x held ih =>
    have ih := ih fun y hy ↦ h y (List.mem_cons_of_mem _ hy)
    obtain ⟨op, hown, -, hline, -⟩ := h x List.mem_cons_self
    rw [linesOf, List.filter_cons]
    split_ifs
    · have hlog : IsLog inst (x.line ++ [NL]) := by
        rw [hline]
        exact isLog_line hown
      rw [List.map_cons, Framing.frame_cons, ← List.singleton_append, ← List.append_assoc,
        replayOps_append hlog, List.flatMap_cons]
      exact congrArg _ ih
    · exact ih

/-- No section changes the instance id. -/
theorem inst_of_fires (hs : Solo m.store) (hf : m.Fires l old others (st, held, ts)) :
    st.inner.inst = m.store.inner.inst := by
  cases hf with
  | update _ hok =>
    obtain ⟨e, exp, -, -, rfl, -⟩ := Store.updateIndex_eq_ok hok
    rfl
  | remove _ hok =>
    obtain ⟨e, -, -, rfl, -⟩ := Store.removeIndex_eq_ok hok
    rfl
  | push =>
    split_ifs
    · exact Store.inst_flushIfFull _
    · rfl
  | readTails clk ord => exact (hs.onlyTail_tailMissed ord _ clk).inst
  | pollTails ord now =>
    rw [Store.pollTails]
    split_ifs
    · rfl
    · exact (hs.onlyTail_pollLocked ord now).inst
  | write => exact Store.inst_flushAof _
  | truncate => exact Store.inst_truncateAof _
  | _ => rfl

/-- Every section keeps the store in shape. -/
theorem solo_of_fires (hm : m.Ok) (hold : ∀ t ∈ old, t.Ok m.store.inner.inst)
    (hf : m.Fires l old others (st, held, ts)) : Solo st := by
  have hs := hm.solo
  cases hf with
  | skip => exact hs
  | create url now exp _ _ hcode => exact hs.bind hcode url now exp
  | createMany => exact hs
  | createNext _ hcode => exact hs.bind hcode _ _ _
  | update _ hok => exact hs.updateIndex hok
  | remove _ hok => exact hs.removeIndex hok
  | push =>
    have hp : ∀ id, Solo (m.store.pushRaw (linesOf m.held id)) :=
      fun id ↦ hs.pushRaw (isLog_linesOf hm.held id)
    split_ifs
    · exact (hp _).flushIfFull
    · exact hp _
  | count _ hfind =>
    refine hs.replace hfind rfl ?_
    rw [Store.bumped, hs.index.hits hfind]
  | miss => exact hs
  | readTails clk ord => exact hs.readTails _ clk ord
  | giveUp => exact hs
  | markDirty => exact hs.markDirty (hold _ rfl)
  | pollTails ord now => exact hs.pollTails ord now
  | flush => exact hs
  | compact => exact hs
  | drain => exact hs.drainShard _
  | write => exact (hs.pushRaw (hold _ rfl)).flushAof
  | fopen => exact hs.writeTmp replaysOwn_nil
  | fopenFailed => exact hs
  | snapshot ord wrote =>
    have htext : IsLog m.store.inner.inst _ := hold _ rfl
    exact hs.writeTmp ((htext.append (hs.isLog_shardRowLines ord _)).replaysOwn_take wrote)
  | fclose =>
    refine hs.writeTmp ?_
    have htext : IsLog m.store.inner.inst _ := hold _ rfl
    exact htext.replaysOwn_reached _
  | rename => exact hs.renameTmp
  | renameFailed => exact hs
  | truncate => exact hs.truncateAof

theorem held_of_fires (hm : m.Ok) (hf : m.Fires l old others (st, held, ts)) :
    ∀ h ∈ held, HeldOk m.store.inner.inst h := by
  have happend : ∀ {x : Held}, HeldOk m.store.inner.inst x →
      ∀ h ∈ m.held ++ [x], HeldOk m.store.inner.inst h := by
    intro x hx h hh
    rcases List.mem_append.mp hh with hh | hh
    · exact hm.held h hh
    · rwa [List.mem_singleton.mp hh]
  have hrow : ∀ {code : Bytes}, codeOk code = true → ∀ id url a exp,
      HeldOk m.store.inner.inst ⟨id, code, m.store.rowFor code url a exp⟩ :=
    fun hc _ url a exp ↦
      ⟨.row ⟨_, hc⟩ url a exp (instLong m.store.inner.inst) 0, rfl, rfl, rfl, by simp⟩
  cases hf with
  | create url now exp _ _ hcode => exact happend (hrow hcode _ _ _ _)
  | createNext _ hcode => exact happend (hrow hcode _ _ _ _)
  | update _ hok =>
    obtain ⟨e, exp, hfind, -, -, rfl⟩ := Store.updateIndex_eq_ok hok
    exact happend (hrow (hm.solo.index.codeOk hfind) _ _ _ _)
  | remove _ hok =>
    obtain ⟨e, hfind, -, -, rfl⟩ := Store.removeIndex_eq_ok hok
    exact happend ⟨.del ⟨_, hm.solo.index.codeOk hfind⟩, trivial, rfl, rfl, by simp⟩
  | push => exact fun h hh ↦ hm.held h (List.mem_filter.mp hh).1
  | _ => exact hm.held

theorem threads_of_fires (hm : m.Ok) (hold : ∀ t ∈ old, t.Ok m.store.inner.inst)
    (hf : m.Fires l old others (st, held, ts)) : ∀ t ∈ ts, t.Ok m.store.inner.inst := by
  have hone : ∀ {t : Thread}, t.Ok m.store.inner.inst → ∀ t' ∈ [t], t'.Ok m.store.inner.inst := by
    intro t ht t' ht'
    rwa [List.mem_singleton.mp ht']
  cases hf with
  | skip => simp
  | push => simp
  | giveUp => simp
  | markDirty => simp
  | pollTails => simp
  | truncate => simp
  | count _ hfind => exact hone (hm.solo.index.codeOk hfind)
  | flush => exact hone isLog_nil
  | compact => exact hone isLog_nil
  | drain ord => exact hone (IsLog.append (hold _ rfl) (hm.solo.isLog_shardHits ord _))
  | write =>
    split_ifs
    · exact hone trivial
    · simp
  | fopen => exact hone isLog_nil
  | snapshot ord wrote => exact hone (IsLog.append (hold _ rfl) (hm.solo.isLog_shardRowLines ord _))
  | create => exact hone trivial
  | createMany => exact hone trivial
  | createNext => exact hone trivial
  | update => exact hone trivial
  | remove => exact hone trivial
  | miss => exact hone trivial
  | readTails => exact hone trivial
  | fopenFailed => exact hone trivial
  | fclose => exact hone trivial
  | rename => exact hone trivial
  | renameFailed => exact hone trivial

/-- The gate still admits the call next to the others. -/
theorem compat_of_fires (hold : ∀ t ∈ old, ∀ u ∈ others, t.Compat u)
    (hf : m.Fires l old others (st, held, ts)) :
    ts.Pairwise Thread.Compat ∧ ∀ t ∈ ts, ∀ u ∈ others, t.Compat u := by
  have hone : ∀ {t : Thread}, (∀ u ∈ others, t.Compat u) →
      [t].Pairwise Thread.Compat ∧ ∀ t' ∈ [t], ∀ u ∈ others, t'.Compat u := by
    intro t ht
    refine ⟨List.pairwise_singleton _ _, fun t' ht' ↦ ?_⟩
    rwa [List.mem_singleton.mp ht']
  have hnil : ([] : List Thread).Pairwise Thread.Compat ∧
      ∀ t ∈ ([] : List Thread), ∀ u ∈ others, t.Compat u := ⟨List.Pairwise.nil, by simp⟩
  have hshared : others.any Thread.exclusive = false → ∀ {t : Thread}, t.exclusive = false →
      ∀ u ∈ others, t.Compat u := by
    intro hgate t ht u hu
    exact Thread.compat_of_shared ht (by simpa using List.any_eq_false.mp hgate u hu)
  cases hf with
  | skip => exact hnil
  | create _ _ _ hgate => exact hone (hshared hgate rfl)
  | createMany _ _ _ hgate => exact hone (hshared hgate rfl)
  | createNext => exact hone fun u hu ↦ (hold _ rfl u hu).mono id id
  | update hgate => exact hone (hshared hgate rfl)
  | remove hgate => exact hone (hshared hgate rfl)
  | push => exact hnil
  | count => exact hone fun u _ ↦ Thread.compat_of_ungated rfl rfl
  | miss => exact hone fun u _ ↦ Thread.compat_of_ungated rfl rfl
  | readTails => exact hone fun u _ ↦ Thread.compat_of_ungated rfl rfl
  | giveUp => exact hnil
  | markDirty => exact hnil
  | pollTails => exact hnil
  | flush hgate => exact hone (hshared hgate rfl)
  | compact hgate =>
    exact hone fun u hu ↦ Thread.compat_of_alone (by simpa using List.any_eq_false.mp hgate u hu)
  | drain => exact hone fun u hu ↦ (hold _ rfl u hu).mono id id
  | write =>
    split_ifs with hnext
    · exact hone fun u hu ↦ (hold _ rfl u hu).mono (fun _ ↦ hnext) fun _ ↦ rfl
    · exact hnil
  | fopen => exact hone fun u hu ↦ (hold _ rfl u hu).mono id id
  | fopenFailed => exact hone fun u hu ↦ (hold _ rfl u hu).mono id id
  | snapshot => exact hone fun u hu ↦ (hold _ rfl u hu).mono id id
  | fclose => exact hone fun u hu ↦ (hold _ rfl u hu).mono id id
  | rename => exact hone fun u hu ↦ (hold _ rfl u hu).mono id id
  | renameFailed => exact hone fun u hu ↦ (hold _ rfl u hu).mono id id
  | truncate => exact hnil

/-- Every line that is still held has its call among those that go on. -/
theorem holder_of_fires (hold : ∀ h ∈ m.held, ∃ t ∈ old.toList ++ others, t.Holds h.id)
    (hf : m.Fires l old others (st, held, ts)) :
    ∀ h ∈ held, ∃ t ∈ ts ++ others, t.Holds h.id := by
  -- A call that holds nothing may go: the holder is among the others.
  have hkeep : (∀ t ∈ old, ∀ id, ¬ t.Holds id) → ∀ h ∈ m.held, ∃ t ∈ ts ++ others, t.Holds h.id := by
    intro hnone h hh
    obtain ⟨t, ht, hid⟩ := hold h hh
    rcases List.mem_append.mp ht with ht | ht
    · exact absurd hid (hnone t (Option.mem_toList.mp ht) h.id)
    · exact ⟨t, List.mem_append_right _ ht, hid⟩
  have hnone : ∀ t ∈ (none : Option Thread), ∀ id, ¬ t.Holds id := by simp
  have hsome : ∀ {t' : Thread}, (∀ id, ¬ t'.Holds id) → ∀ t ∈ some t', ∀ id, ¬ t.Holds id := by
    intro t' ht' t ht id
    rw [← Option.some.inj (Option.mem_def.mp ht)]
    exact ht' id
  have hnew : ∀ {x : Held} {urls now exp full}, (∀ t ∈ old, ∀ id, ¬ t.Holds id) →
      ts = [.logging x.id urls now exp full] → ∀ h ∈ m.held ++ [x], ∃ t ∈ ts ++ others,
        t.Holds h.id := by
    intro x urls now exp full hno hts h hh
    rcases List.mem_append.mp hh with hh | hh
    · exact hkeep hno h hh
    · rw [List.mem_singleton.mp hh, hts]
      exact ⟨_, List.mem_append_left _ List.mem_cons_self, urls, now, exp, full, rfl⟩
  cases hf with
  | skip => exact hkeep hnone
  | create => exact hnew hnone rfl
  | createMany => exact hkeep hnone
  | createNext =>
    intro h hh
    rcases List.mem_append.mp hh with hh | hh
    · obtain ⟨t, ht, hid⟩ := hold h hh
      rcases List.mem_append.mp ht with ht | ht
      · obtain ⟨urls, now, exp, full, rfl⟩ := hid
        obtain ⟨rfl, -⟩ := Thread.logging.inj (Option.some.inj (Option.mem_toList.mp ht))
        exact ⟨_, List.mem_append_left _ List.mem_cons_self, _, _, _, _, rfl⟩
      · exact ⟨t, List.mem_append_right _ ht, hid⟩
    · rw [List.mem_singleton.mp hh]
      exact ⟨_, List.mem_append_left _ List.mem_cons_self, _, _, _, _, rfl⟩
  | update => exact hnew hnone rfl
  | remove => exact hnew hnone rfl
  | push =>
    intro h hh
    obtain ⟨hh, hne⟩ := List.mem_filter.mp hh
    obtain ⟨t, ht, hid⟩ := hold h hh
    rcases List.mem_append.mp ht with ht | ht
    · obtain ⟨urls, now, exp, full, rfl⟩ := hid
      obtain ⟨rfl, -⟩ := Thread.logging.inj (Option.some.inj (Option.mem_toList.mp ht))
      simp at hne
    · exact ⟨t, List.mem_append_right _ ht, hid⟩
  | count hwho =>
    rcases hwho with ⟨rfl, -⟩ | rfl
    · exact hkeep hnone
    · exact hkeep (hsome (by simp [Thread.Holds]))
  | miss => exact hkeep hnone
  | readTails => exact hkeep (hsome (by simp [Thread.Holds]))
  | giveUp => exact hkeep (hsome (by simp [Thread.Holds]))
  | markDirty => exact hkeep (hsome (by simp [Thread.Holds]))
  | pollTails => exact hkeep hnone
  | flush => exact hkeep hnone
  | compact => exact hkeep hnone
  | drain => exact hkeep (hsome (by simp [Thread.Holds]))
  | write => exact hkeep (hsome (by simp [Thread.Holds]))
  | fopen => exact hkeep (hsome (by simp [Thread.Holds]))
  | fopenFailed => exact hkeep (hsome (by simp [Thread.Holds]))
  | snapshot => exact hkeep (hsome (by simp [Thread.Holds]))
  | fclose => exact hkeep (hsome (by simp [Thread.Holds]))
  | rename => exact hkeep (hsome (by simp [Thread.Holds]))
  | renameFailed => exact hkeep (hsome (by simp [Thread.Holds]))
  | truncate => exact hkeep (hsome (by simp [Thread.Holds]))

/-! ## Steps -/

theorem mem_splice {α : Type*} {l₁ l₂ : List α} {xs : List α} {x : α} :
    x ∈ l₁ ++ xs ++ l₂ ↔ x ∈ xs ++ (l₁ ++ l₂) := by
  simp only [List.mem_append]
  tauto

theorem pairwise_splice {α : Type*} {r : α → α → Prop} (hr : ∀ a b, r a b → r b a)
    {l₁ l₂ xs : List α} :
    (l₁ ++ xs ++ l₂).Pairwise r ↔
      xs.Pairwise r ∧ (l₁ ++ l₂).Pairwise r ∧ ∀ x ∈ xs, ∀ y ∈ l₁ ++ l₂, r x y := by
  have hperm : (l₁ ++ xs ++ l₂).Perm (xs ++ (l₁ ++ l₂)) := by
    rw [← List.append_assoc]
    exact List.perm_append_comm.append_right l₂
  rw [hperm.pairwise_iff fun {a b} ↦ hr a b, List.pairwise_append]

/-- The call that acts, and the others: all of them are in flight, and none of the others is at odds
with it. -/
theorem Ok.split (hm : m.Ok) {l₁ l₂ : List Thread}
    (hcalls : m.calls = l₁ ++ (m.acting l).toList ++ l₂) :
    (∀ t ∈ m.acting l, t ∈ m.calls) ∧ (∀ t ∈ l₁ ++ l₂, t ∈ m.calls) ∧
      (l₁ ++ l₂).Pairwise Thread.Compat ∧ ∀ t ∈ m.acting l, ∀ u ∈ l₁ ++ l₂, t.Compat u := by
  have hgate := hm.gate
  rw [hcalls, pairwise_splice fun _ _ ↦ Thread.Compat.symm] at hgate
  rw [hcalls]
  refine ⟨fun t ht ↦ ?_, fun t ht ↦ mem_splice.mpr (List.mem_append_right _ ht), hgate.2.1, ?_⟩
  · exact mem_splice.mpr (List.mem_append_left _ (Option.mem_toList.mpr ht))
  · exact fun t ht ↦ hgate.2.2 t (Option.mem_toList.mpr ht)

/-- **Every step keeps the shape.** -/
theorem ok_step {m' : Machine} (hm : m.Ok) (h : m.step l = some m') : m'.Ok := by
  obtain ⟨l₁, l₂, ts, hcalls, hcalls', -, hf⟩ := step_eq_some h
  obtain ⟨hact, hothers, hgate, hbeside⟩ := hm.split hcalls
  have hold : ∀ t ∈ m.acting l, t.Ok m.store.inner.inst := fun t ht ↦ hm.threads t (hact t ht)
  have hinst := inst_of_fires hm.solo hf
  have hcompat := compat_of_fires hbeside hf
  constructor
  · exact solo_of_fires hm hold hf
  · rw [hinst]
    exact held_of_fires hm hf
  · intro t ht
    rw [hcalls', mem_splice] at ht
    rw [hinst]
    rcases List.mem_append.mp ht with ht | ht
    · exact threads_of_fires hm hold hf t ht
    · exact hm.threads t (hothers t ht)
  · rw [hcalls', pairwise_splice fun _ _ ↦ Thread.Compat.symm]
    exact ⟨hcompat.1, hgate, hcompat.2⟩
  · have hholder : ∀ x ∈ m.held, ∃ t ∈ (m.acting l).toList ++ (l₁ ++ l₂), t.Holds x.id := by
      intro x hx
      obtain ⟨t, ht, hid⟩ := hm.holder x hx
      rw [hcalls] at ht
      exact ⟨t, mem_splice.mp ht, hid⟩
    intro x hx
    obtain ⟨t, ht, hid⟩ := holder_of_fires hholder hf x hx
    refine ⟨t, ?_, hid⟩
    rw [hcalls']
    exact mem_splice.mpr ht

theorem ok_idle {st : Store} (hs : Solo st) (n : ℕ) : (idle st n).Ok where
  solo := hs
  held := by simp [idle]
  threads := by simp [idle]
  gate := List.Pairwise.nil
  holder := by simp [idle]

/-- Every run keeps the shape. -/
theorem ok_run {m' : Machine} {ls : List Label} (hm : m.Ok) (h : run step m ls = some m') :
    m'.Ok := by
  have hmeets : Transition.Meets step (fun _ _ ↦ True) m ls :=
    Transition.meets_of_forall (q := fun _ ↦ True) (fun _ _ ↦ trivial) m
  exact Transition.run_invariant (fun _ _ _ hs _ hstep ↦ ok_step hs hstep) hm hmeets h

/-- While a compaction is under way, no line is held. -/
theorem Ok.held_eq_nil_of_exclusive (hm : m.Ok) {t : Thread} (ht : t ∈ m.calls)
    (he : t.exclusive = true) : m.held = [] := by
  refine List.eq_nil_iff_forall_not_mem.mpr fun h hh ↦ ?_
  obtain ⟨t', ht', urls, now, exp, full, rfl⟩ := hm.holder h hh
  have hne : t ≠ .logging h.id urls now exp full := by
    rintro rfl
    exact absurd he (by simp [Thread.exclusive])
  exact (hm.gate.forall ht ht' hne).1 ⟨he, rfl⟩

/-- When no call is in flight, no line is held. -/
theorem Ok.held_eq_nil (hm : m.Ok) (hidle : m.calls = []) : m.held = [] := by
  refine List.eq_nil_iff_forall_not_mem.mpr fun h hh ↦ ?_
  obtain ⟨t, ht, -⟩ := hm.holder h hh
  rw [hidle] at ht
  exact absurd ht List.not_mem_nil

end Machine

end Shrt
