import Shrt.Cluster.Simulation

/-!
# The cluster simulates log replication

Every step of the cluster is a few actions of the abstract nodes (`Cluster.reaches_step`): a call
that changes links pushes entries and may flush them, a call that reads takes entries from logs, a
compaction flushes and compacts, and an instance that opens joins. `Explains` says which.

The simulation breaks when a log grows past a reader that has yet to notice that it was truncated
(`Cluster.Steady`). It cannot happen in a cluster that does not compact (`Within.steady`).
-/

namespace Shrt

open LastWrite (Write replay)
open Replication (Action act)
open Transition (Reaches)

namespace Cluster

variable {s : Cluster} {k : InstanceId} {inner : Inner} {st' : Store}

/-- Whether a step is a compaction. -/
def Label.compacts : Label → Bool
  | call _ (.compact _) => true
  | _ => false

/-- Whether a step opens an instance. -/
def Label.boots : Label → Bool
  | boot .. => true
  | _ => false

/-- The step does not let a log grow past a reader that has yet to notice that the log was
truncated. -/
def Steady (s : Cluster) (l : Label) : Prop :=
  ∀ s', s.step l = some s' → ∀ i, i ≠ l.node →
    (s.log l.node).length < (s.reader i l.node).offset →
    (s'.log l.node).length < (s.reader i l.node).offset

instance decidableSteady (s : Cluster) (l : Label) : Decidable (s.Steady l) :=
  match h : s.step l with
  | none => isTrue fun _ hs' ↦ nomatch h.symm.trans hs'
  | some t => decidable_of_iff (∀ i, i ≠ l.node →
      (s.log l.node).length < (s.reader i l.node).offset →
      (t.log l.node).length < (s.reader i l.node).offset)
      ⟨fun ht _ hs' ↦ Option.some.inj (h.symm.trans hs') ▸ ht, fun hs ↦ hs t h⟩

/-- The actions that a step can be made of: entries are pushed in the state the step starts from,
and they are about the codes that the step changes; a compaction comes after a flush, and only an
instance that opens joins. -/
def Explains (s : Cluster) (l : Label) (σ : Nodes) (a : Action InstanceId Bytes LinkRow) : Prop :=
  a.Enabled Owns σ ∧ match a with
    | .push m ws => σ = s.abs ∧ m = l.node ∧ ∀ w ∈ ws, w.key ∈ s.codes l
    | .compact m _ => σ = act s.abs (.flush m) ∧ m = l.node ∧ l.compacts = true
    | .join .. => σ = s.abs ∧ l.boots = true
    | _ => True

/-- Reading concerns the reader alone. -/
theorem reading_keeps {σ σ' : Nodes} (h : Reaches actStep (Reading k) σ σ') :
    σ'.buffer = σ.buffer ∧ ∀ i, i ≠ k → σ'.view i = σ.view i := by
  refine h.invariant (P := fun τ ↦ τ.buffer = σ.buffer ∧ ∀ i, i ≠ k → τ.view i = σ.view i)
    (fun τ a τ' hτ ha hact ↦ ?_) ⟨rfl, fun _ _ ↦ rfl⟩
  obtain ⟨-, j, n, -, rfl⟩ := ha
  obtain rfl := Option.some.inj hact
  exact ⟨hτ.1, fun i hi ↦ (Function.update_of_ne hi ..).trans (hτ.2 i hi)⟩

/-- Reading what does not speak of a code leaves its link. -/
theorem view_of_reading {c : Bytes} {σ σ' : Nodes} (h : Reaches actStep (Reading k) σ σ')
    (hsilent : ∀ j, j ≠ k → LastWrite.Silent c (σ.unread k j)) : σ'.view k c = σ.view k c := by
  refine (h.invariant (P := fun τ ↦ τ.view k c = σ.view k c ∧
    ∀ j, j ≠ k → LastWrite.Silent c (τ.unread k j)) (fun τ a τ' hτ ha hact ↦ ?_) ⟨rfl, hsilent⟩).1
  obtain ⟨-, j, n, hj, rfl⟩ := ha
  obtain rfl := Option.some.inj hact
  have hj := hτ.2 j hj
  refine ⟨?_, fun i hi ↦ ?_⟩
  · simp only [act, Function.update_self]
    rw [LastWrite.Silent.replay fun w hw ↦ hj w (List.mem_of_mem_take hw)]
    exact hτ.1
  · simp only [act]
    split_ifs with hij
    · exact fun w hw ↦ hj w (List.mem_of_mem_drop hw)
    · exact hτ.2 i hi

theorem Reading.explains {k : InstanceId} {σ : Nodes} {a : Action InstanceId Bytes LinkRow}
    (h : Reading k σ a) (s : Cluster) (l : Label) : Explains s l σ a := by
  obtain ⟨hal, j, n, hj, rfl⟩ := h
  exact ⟨⟨hj.symm, hal⟩, trivial⟩

/-- A call that pushes entries, and may flush. -/
theorem sim_write (hs : Formed s) (hk : s.nodes k = some inner) {call : Call} {st₁ : Store}
    {ws : List (Write Bytes LinkRow)} (hp : Pushes ⟨s.dir, inner⟩ st₁ ws)
    (hcodes : ∀ w ∈ ws, w.key ∈ call.codes ⟨s.dir, inner⟩) (hf : Flushes st₁ st' ∨ st' = st₁)
    (hover : ∀ i, i ≠ k → (s.log k).length < (s.reader i k).offset →
      ((s.set k st').log k).length < (s.reader i k).offset) :
    Formed (s.set k st') ∧ Reaches actStep (Explains s (.call k call)) s.abs (s.set k st').abs ∧
      (Within s → Within (s.set k st')) := by
  have hinst : inner.inst = k := (hs.member hk).inst
  obtain ⟨hs₁, habs₁, hwithin₁⟩ := sim_push hs hk hp
  have hview : s.abs.view k = inner.links := links_eq hk
  have hpush : Reaches actStep (Explains s (.call k call)) s.abs (s.set k st₁).abs := by
    rw [habs₁]
    refine Reaches.single rfl ⟨⟨alive_of_node hk, fun c v hv ↦ ?_, fun w hw ↦ ?_⟩, rfl, rfl, ?_⟩
    · have := hp.signed c v hv
      rwa [hinst] at this
    · have := hp.free w hw
      rw [hinst] at this
      rwa [hview]
    · rw [codes, hk]
      exact hcodes
  rcases hf with hf | rfl
  · have hdir : st₁.dir = s.dir := hp.dir
    have hflush := sim_flush hs₁ (nodes_set_self s k st₁) hf fun i hik hstale ↦ by
      rw [reader_set, if_neg hik] at hstale ⊢
      rw [set_set]
      refine hover i hik ?_
      rwa [log_set, hdir] at hstale
    rw [set_set] at hflush
    refine ⟨hflush.1, hpush.trans (Reaches.single (a := .flush k) ?_ ⟨trivial, trivial⟩),
      fun hw ↦ hflush.2.2 (hwithin₁ hw)⟩
    rw [actStep, hflush.2.1]
  · exact ⟨hs₁, hpush, hwithin₁⟩

/-- **A call.** -/
theorem sim_call (hs : Formed s) (hk : s.nodes k = some inner) {call : Call}
    (hsess : call.inSession = true) (hio : call.io = {}) (hrun : call.run ⟨s.dir, inner⟩ = some st')
    (hover : ∀ i, i ≠ k → (s.log k).length < (s.reader i k).offset →
      ((s.set k st').log k).length < (s.reader i k).offset) :
    Formed (s.set k st') ∧ Reaches actStep (Explains s (.call k call)) s.abs (s.set k st').abs ∧
      ((Label.call k call).compacts = false → Within s → Within (s.set k st')) := by
  have hm := hs.member hk
  have hsame : st' = ⟨s.dir, inner⟩ → Formed (s.set k st') ∧
      Reaches actStep (Explains s (.call k call)) s.abs (s.set k st').abs ∧
      ((Label.call k call).compacts = false → Within s → Within (s.set k st')) := by
    rintro rfl
    rw [set_self s hk]
    exact ⟨hs, Reaches.refl _, fun _ ↦ id⟩
  have hreads : call.reads = true → Formed (s.set k st') ∧
      Reaches actStep (Explains s (.call k call)) s.abs (s.set k st').abs ∧
      ((Label.call k call).compacts = false → Within s → Within (s.set k st')) := by
    intro hr
    obtain ⟨hdir, hs', hreach, hwithin⟩ := sim_reads hs hk (sees_dir s inner) hr hrun
    obtain ⟨d, inner'⟩ := st'
    obtain rfl : d = s.dir := hdir
    exact ⟨hs', hreach.mono fun _ _ h ↦ h.explains s _, fun _ ↦ hwithin⟩
  have hwrites : ∀ {st₁ : Store} {ws : List (Write Bytes LinkRow)}, Pushes ⟨s.dir, inner⟩ st₁ ws →
      (∀ w ∈ ws, w.key ∈ call.codes ⟨s.dir, inner⟩) → Flushes st₁ st' ∨ st' = st₁ →
      Formed (s.set k st') ∧ Reaches actStep (Explains s (.call k call)) s.abs (s.set k st').abs ∧
      ((Label.call k call).compacts = false → Within s → Within (s.set k st')) := by
    intro st₁ ws hp hcodes hf
    obtain ⟨hs', hreach, hwithin⟩ := sim_write hs hk hp hcodes hf hover
    exact ⟨hs', hreach, fun _ ↦ hwithin⟩
  cases call with
  | shorten url al ttl env =>
    obtain ⟨p, hp, rfl⟩ := Option.map_eq_some_iff.mp hrun
    obtain ⟨pick, hpick, rfl⟩ := Option.map_eq_some_iff.mp hp
    cases pick with
    | none => exact hsame rfl
    | some code =>
      obtain ⟨hfree, hcode⟩ := Store.pickCode_spec hpick
      have hrec := hm.toTidy.recorded_nil.bind hfree hcode url (env.clk 0) (expiry (env.clk 0) ttl)
      rw [List.nil_append] at hrec
      have hpush := hrec.pushes
      rw [← Machine.push_eq_pushRaw] at hpush
      refine hwrites hpush (fun w hw ↦ ?_) hpush.tidy.flushIfFull_writes
      rw [writesOf_rowFor hcode, List.mem_singleton] at hw
      rw [hw, Call.codes, hp]
      exact List.mem_singleton_self code
  | shortenMany urls ttl env =>
    obtain ⟨p, hp, rfl⟩ := Option.map_eq_some_iff.mp hrun
    obtain ⟨r, hr, rfl⟩ := Option.map_eq_some_iff.mp hp
    obtain ⟨hrec, hcodes⟩ := Recorded.shortenLoop hm.toTidy.recorded_nil
      (fun w hw ↦ absurd hw List.not_mem_nil) hr
    refine hwrites hrec.pushes (fun w hw ↦ ?_) hrec.pushes.tidy.flushIfFull_writes
    rw [Call.codes, hp]
    exact hcodes w hw
  | resolve code env => exact hreads rfl
  | update code url ttl hasTtl env =>
    have hst := Option.some.inj hrun
    rw [Store.update] at hst
    cases hupd : (⟨s.dir, inner⟩ : Store).updateIndex code url ttl hasTtl (env.clk 0) with
    | error e =>
      rw [hupd] at hst
      exact hsame hst.symm
    | ok p =>
      rw [hupd] at hst
      obtain ⟨e, exp, hfind, howner, heq, hline⟩ := Store.updateIndex_eq_ok hupd
      have hcode : codeOk code = true := by
        refine hm.codes code ?_
        rw [Inner.links, hfind]
        rfl
      have hpush := (hm.toTidy.recorded_put hfind howner hcode url exp).pushes
      rw [← Machine.push_eq_pushRaw, ← heq, ← hline] at hpush
      refine hwrites hpush (fun w hw ↦ ?_) (.inr hst.symm)
      rw [hline, writesOf_rowFor hcode, List.mem_singleton] at hw
      rw [hw, Call.codes, Store.update, hupd]
      exact List.mem_singleton_self code
  | remove code =>
    have hst := Option.some.inj hrun
    rw [Store.remove] at hst
    cases hrem : (⟨s.dir, inner⟩ : Store).removeIndex code with
    | error e =>
      rw [hrem] at hst
      exact hsame hst.symm
    | ok p =>
      rw [hrem] at hst
      obtain ⟨e, hfind, howner, heq, hline⟩ := Store.removeIndex_eq_ok hrem
      have hcode : codeOk code = true := by
        refine hm.codes code ?_
        rw [Inner.links, hfind]
        rfl
      have hpush := (hm.toTidy.recorded_erase hfind howner hcode).pushes
      rw [← Machine.push_eq_pushRaw, ← heq, ← hline] at hpush
      refine hwrites hpush (fun w hw ↦ ?_) (.inr hst.symm)
      rw [hline, writesOf_delLine hcode, List.mem_singleton] at hw
      rw [hw, Call.codes, Store.remove, hrem]
      exact List.mem_singleton_self code
  | flush env =>
    obtain rfl := Option.some.inj hrun
    obtain ⟨hs', habs, hwithin⟩ := sim_flush hs hk (hm.toTidy.flushes_flushLocked env.ord) hover
    refine ⟨hs', ?_, fun _ ↦ hwithin⟩
    rw [habs]
    exact Reaches.single rfl ⟨trivial, trivial⟩
  | pollTails env => exact hreads rfl
  | compact env =>
    obtain rfl := Option.some.inj hrun
    have henv : env.io = {} := hio
    have hc := hm.compacts env.ord
    rw [← henv] at hc
    obtain ⟨hs', henabled, habs⟩ := sim_compact hs hk hc
    refine ⟨hs', ?_, fun hno ↦ absurd hno.symm Bool.false_ne_true⟩
    rw [habs]
    exact Reaches.head (a := .flush k) rfl ⟨trivial, trivial⟩
      (Reaches.single rfl ⟨henabled, rfl, rfl, rfl⟩)
  | reopen ord => contradiction

/-- **The cluster simulates log replication.** -/
theorem reaches_step {s' : Cluster} {l : Label} (hs : Formed s) (hio : l.io = {}) (hsteady : s.Steady l)
    (h : s.step l = some s') : Formed s' ∧ Reaches actStep (Explains s l) s.abs s'.abs ∧
      (l.compacts = false → Within s → Within s') := by
  have hover := hsteady s' h
  cases l with
  | boot k ord =>
    rw [step] at h
    cases hk : s.nodes k with
    | some inner =>
      rw [hk] at h
      exact nomatch h
    | none =>
      rw [hk] at h
      obtain rfl := Option.some.inj h
      obtain ⟨hs', hwithin, v, henabled, habs⟩ := sim_boot hs hk ord
      refine ⟨hs', ?_, fun _ ↦ hwithin⟩
      rw [habs]
      exact Reaches.single rfl ⟨henabled, rfl, rfl⟩
  | call k call =>
    obtain ⟨inner, st', hk, hsess, hrun, rfl⟩ := step_call h
    exact sim_call hs hk hsess hio hrun hover
  | glimpse k call seen =>
    obtain ⟨inner, hk, h⟩ := Option.bind_eq_some_iff.mp h
    split_ifs at h with hreads
    obtain ⟨st', hrun, rfl⟩ := Option.map_eq_some_iff.mp h
    obtain ⟨-, hs', hreach, hwithin⟩ := sim_reads hs hk hreads.2 hreads.1 hrun
    exact ⟨hs', hreach.mono fun _ _ h ↦ h.explains s _, fun _ ↦ hwithin⟩

/-- A reader within its log is not overtaken. -/
theorem Within.steady (hw : Within s) (l : Label) : s.Steady l :=
  fun _ _ i _ hstale ↦ absurd hstale (not_lt.mpr (hw i l.node))

/-- **A poll** reads until nothing is left to read. -/
theorem sim_pollLocked (hs : Formed s) (hk : s.nodes k = some inner) (ord : Order) (now : Int64) :
    Formed (s.set k ⟨s.dir, pollLocked ord s.dir inner now⟩) ∧
      Reaches actStep (Reading k) s.abs (s.set k ⟨s.dir, pollLocked ord s.dir inner now⟩).abs ∧
      ∀ j, j ≠ k → (s.set k ⟨s.dir, pollLocked ord s.dir inner now⟩).abs.unread k j = [] := by
  have hm := hs.member hk
  obtain ⟨js, hfollows, hjs⟩ := follows_pollLocked hm.siblings hs.names ord now
  obtain ⟨hs', hreach, hcaught, -⟩ := sim_follows hfollows hs hk (sees_dir s inner)
  refine ⟨hs', hreach, fun j hj ↦ hcaught rfl j ?_⟩
  cases hal : s.nodes j with
  | some _ =>
    have hinst : inner.inst = k := hm.inst
    exact .inl (hjs j (hinst ▸ hj) (hs.file (alive_of_node hal)))
  | none =>
    -- An instance that has not opened has no log.
    refine .inr ((congrArg writesOf ?_).trans writesOf_nil)
    rw [unread, (hs.absent hal).1]
    exact TailReader.unread_nil (hs.sound k j)

theorem reaches_pollTails (hs : Formed s) {env : Env} {s' : Cluster}
    (h : s.step (.call k (.pollTails env)) = some s') : Formed s' ∧
      Reaches actStep (Reading k) s.abs s'.abs ∧ s'.abs.alive k = true ∧
      ∀ j, j ≠ k → s'.abs.unread k j = [] := by
  obtain ⟨inner, st', hk, -, hrun, rfl⟩ := step_call h
  obtain rfl := Option.some.inj hrun
  obtain ⟨hs', hreach, hunread⟩ := sim_pollLocked hs hk env.ord (env.clk 0)
  rw [Store.pollTails, if_neg (Bool.eq_false_iff.mp (hs.member hk).aof_isNone)]
  exact ⟨hs', hreach, alive_of_node (nodes_set_self s k _), hunread⟩

/-- An instance that is open can poll. -/
theorem exists_pollTails (hk : (s.nodes k).isSome = true) (env : Env) :
    ∃ s', s.step (.call k (.pollTails env)) = some s' := by
  obtain ⟨inner, hk⟩ := Option.isSome_iff_exists.mp hk
  rw [step, hk]
  exact ⟨_, rfl⟩

/-- **A compaction** whose file operations succeed. -/
theorem abs_compact (hs : Formed s) {env : Env} (hio : env.io = {}) {s' : Cluster}
    (h : s.step (.call k (.compact env)) = some s') :
    Formed s' ∧ ∃ rows, s'.abs = act (act s.abs (.flush k)) (.compact k rows) := by
  obtain ⟨inner, st', hk, -, hrun, rfl⟩ := step_call h
  obtain rfl := Option.some.inj hrun
  have hc := (hs.member hk).compacts env.ord
  rw [← hio] at hc
  obtain ⟨hs', -, habs⟩ := sim_compact hs hk hc
  exact ⟨hs', _, habs⟩

/-- After a flush the buffer is empty. -/
theorem buf_flush (hs : Formed s) {env : Env} {s' : Cluster}
    (h : s.step (.call k (.flush env)) = some s') : s'.buf k = [] := by
  obtain ⟨inner, st', hk, -, hrun, rfl⟩ := step_call h
  obtain rfl := Option.some.inj hrun
  rw [buf_set, if_pos rfl]
  exact ((hs.member hk).toTidy.flushes_flushLocked env.ord).buf

/-! ## One writer -/

section Writer

variable {j : InstanceId} {c : Bytes} {l : Label} {σ : Nodes} {a : Action InstanceId Bytes LinkRow}

/-- A step that leaves the code to its writer does so in each of its actions. -/
theorem Explains.spares (h : Explains s l σ a) (hsole : c ∈ s.codes l → l.node = j)
    (hcompact : l.compacts = true → l.node = j → ∀ k, k ≠ j → s.abs.alive k = true →
      s.links k c = s.links j c) :
    a.Spares j c σ := by
  obtain ⟨-, h⟩ := h
  cases a with
  | push m ws =>
    obtain ⟨-, rfl, hkeys⟩ := h
    intro hm w hw hkey
    exact hm (hsole (hkey ▸ hkeys w hw))
  | compact m rows =>
    obtain ⟨rfl, rfl, hl⟩ := h
    rintro rfl
    exact hcompact hl rfl
  | flush | read | join => trivial

/-- A step that is no compaction has none among its actions. -/
theorem Explains.compacts (h : Explains s l σ a) (hno : l.compacts = false) : a.compacts = false := by
  obtain ⟨-, h⟩ := h
  cases a with
  | compact m rows => exact nomatch hno.symm.trans h.2.2
  | push | flush | read | join => rfl

/-- A step that does not change the code adds nothing about it to a buffer. -/
theorem Explains.silent_buffer (h : Explains s l σ a) (hc : c ∉ s.codes l)
    (hsilent : LastWrite.Silent c (σ.buffer j)) : LastWrite.Silent c ((act σ a).buffer j) := by
  obtain ⟨-, h⟩ := h
  cases a with
  | push m ws =>
    obtain ⟨-, -, hkeys⟩ := h
    simp only [act, Function.update_apply]
    split_ifs with hjm
    · refine LastWrite.silent_append.mpr ⟨hjm ▸ hsilent, fun w hw hkey ↦ hc ?_⟩
      rw [← hkey]
      exact hkeys w hw
    · exact hsilent
  | flush m =>
    simp only [act, Function.update_apply]
    split_ifs
    · exact LastWrite.silent_nil c
    · exact hsilent
  | read | compact | join => exact hsilent

/-- Reading leaves the code to its writer. -/
theorem sole_reading {σ' : Nodes} (h : Reaches actStep (Reading k) σ σ')
    (hsole : Replication.Sole j c σ) :
    Replication.Sole j c σ' := by
  refine h.invariant (fun τ a τ' hτ ha hact ↦ ?_) hsole
  obtain ⟨-, i, n, hi, rfl⟩ := ha
  obtain rfl := Option.some.inj hact
  exact hτ.read hi.symm n

/-- A sibling that polls has the writer's link, when nothing about the code waits in the writer's
buffer. -/
theorem sole_pollTails (hs : Formed s) (h : Replication.Sole j c s.abs) (hkj : k ≠ j)
    (hsilent : LastWrite.Silent c (s.abs.buffer j)) {env : Env} {s' : Cluster}
    (hpoll : s.step (.call k (.pollTails env)) = some s') : s'.links k c = s'.links j c := by
  obtain ⟨-, hreach, hal, hunread⟩ := reaches_pollTails hs hpoll
  have hsole := sole_reading hreach h
  have hview := hsole.replay_unread_buffer hkj hal
  rw [hunread j hkj.symm, List.nil_append, (reading_keeps hreach).1, hsilent.replay] at hview
  exact hview

theorem sole_empty : Replication.Sole j c empty.abs where
  own := rfl
  behind := fun _ _ hal ↦ nomatch hal
  silent := fun _ _ ↦ ⟨LastWrite.silent_nil c, LastWrite.silent_nil c, LastWrite.silent_nil c,
    fun _ ↦ LastWrite.silent_nil c⟩

theorem marked_empty : Replication.Marked Owns j c empty.abs where
  owner := fun _ _ hv ↦ nomatch hv
  signed := fun _ hv ↦ absurd hv List.not_mem_nil
  signed_unread := fun _ _ hv ↦ absurd hv List.not_mem_nil

end Writer

end Cluster

end Shrt
