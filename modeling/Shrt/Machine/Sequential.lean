import Shrt.Machine.Durable

/-!
# One call after another

`Call.run` is the store used sequentially: every call returns before the next one starts. Each call
is then a run of the machine from one state without calls in flight to another (`call_reaches`), in
which nothing is overtaken because there is nothing to overtake. What the machine keeps along its
runs is therefore kept by sequences of calls, and closing and opening again is the only step that
needs an argument of its own.
-/

namespace Shrt

open LastWrite (replay Write)
open Store (CompactIo allShards)
open Transition (run Meets Reaches)

/-- A call of the store, with what it reads from outside. -/
inductive Call where
  | shorten (url : Bytes) (al : Option Code) (ttl : Int64) (env : Env)
  | shortenMany (urls : List Bytes) (ttl : Int64) (env : Env)
  | resolve (code : Bytes) (env : Env)
  | update (code url : Bytes) (ttl : Int64) (hasTtl : Bool) (env : Env)
  | remove (code : Bytes)
  | flush (env : Env)
  | pollTails (env : Env)
  | compact (env : Env)
  | reopen (ord : Order)

namespace Call

/-- The store after a call; `none` for one that has not returned. -/
def run (st : Store) : Call → Option Store
  | shorten url al ttl env =>
    (st.shorten url (al.map Subtype.val) ttl env.clk env.rng).map Prod.fst
  | shortenMany urls ttl env => (st.shortenMany urls ttl env.clk env.rng).map Prod.fst
  | resolve code env => some (st.resolve code env.clk env.track env.ord).1
  | update code url ttl hasTtl env => some (st.update code url ttl hasTtl env.clk).1
  | remove code => some (st.remove code).1
  | flush env => some (st.flushLocked env.ord)
  | pollTails env => some (st.pollTails env.ord (env.clk 0))
  | compact env => some (st.compact env.ord env.io)
  | reopen ord => some (st.reopen ord)

/-- What becomes of the file operations of a compaction; all other calls succeed. -/
def io : Call → CompactIo
  | compact env => env.io
  | _ => {}

/-- A call other than closing and opening again. -/
def inSession : Call → Bool
  | reopen _ => false
  | _ => true

end Call

namespace Machine

variable {st : Store} {n : ℕ} {held : List Held} {hist : List Bytes}

/-- What sequential use guarantees of the machine's steps. -/
def Admits (io : CompactIo) (m : Machine) (l : Label) : Prop :=
  m.inOrder l = true ∧ (io = {} → m.filesOk l = true)

/-! ## A single call in flight -/

/-- A single call in flight takes its next section. -/
theorem reaches_resume {io : CompactIo} {t : Thread} (env : Env) {r : Outcome} {m' : Machine}
    (hio : env.io = io) (hresume : (mk st n held [t] hist).resume env t = some r)
    (hord : (mk st n held [t] hist).inOrder (.advance 0 env) = true)
    (h : Reaches step (Admits io) (mk r.1 n r.2.1 r.2.2 (r.2.2.filterMap Thread.hit ++ hist)) m') :
    Reaches step (Admits io) (mk st n held [t] hist) m' := by
  refine Reaches.head (a := .advance 0 env) ?_ ⟨hord, fun he ↦ ?_⟩ h
  · simp [step, hresume]
  · simp [filesOk, hio, he]

/-- The shard loop of a flush. -/
theorem reaches_drain {env : Env} (next : Bool) (todo : List (Fin NUM_SHARDS)) :
    ∀ (st : Store) (lines : Bytes), Reaches step (Admits env.io)
      (mk st n held [.flushing next todo lines] hist)
      (mk (Store.drainLoop env.ord todo st lines).1 n held
        [.flushing next [] (Store.drainLoop env.ord todo st lines).2] hist) := by
  induction todo with
  | nil => intro st lines; exact Reaches.refl _
  | cons k ks ih =>
    intro st lines
    exact reaches_resume env (t := .flushing next (k :: ks) lines) rfl rfl rfl (ih _ _)

/-- `flush_locked`. -/
theorem reaches_flushLocked (env : Env) (next : Bool) (haof : st.inner.aof.isNone = false) :
    Reaches step (Admits env.io) (mk st n held [.flushing next allShards []] hist)
      (mk (st.flushLocked env.ord) n held (if next then [.opening] else []) hist) := by
  refine (reaches_drain next allShards st []).trans ?_
  rw [Store.flushLocked, if_neg (by rw [haof]; decide)]
  refine reaches_resume env (t := .flushing next [] _) rfl rfl rfl ?_
  cases next with
  | true => exact Reaches.refl _
  | false => exact Reaches.refl _

/-- The scratch file is written over. -/
theorem writeTmp_writeTmp (st : Store) (b b' : Bytes) :
    (st.writeTmp b).writeTmp b' = st.writeTmp b' := by
  rw [Store.writeTmp, Store.writeTmp, Store.writeTmp]
  exact congrArg (fun d ↦ ({ st with dir := d } : Store)) (AList.insert_insert ..)

/-- The shard loop of a snapshot. -/
theorem reaches_snapshot {env : Env} (todo : List (Fin NUM_SHARDS)) :
    ∀ b text : Bytes, ∃ b', Reaches step (Admits env.io)
      (mk (st.writeTmp b) n held [.snapshotting todo text] hist)
      (mk (st.writeTmp b') n held
        [.snapshotting [] (text ++ todo.flatMap (st.shardRowLines env.ord))] hist) := by
  induction todo with
  | nil =>
    intro b text
    rw [List.flatMap_nil, List.append_nil]
    exact ⟨b, Reaches.refl _⟩
  | cons k ks ih =>
    intro b text
    obtain ⟨b', hb'⟩ := ih ((text ++ st.shardRowLines env.ord k).take env.wrote)
      (text ++ st.shardRowLines env.ord k)
    refine ⟨b', ?_⟩
    refine reaches_resume env (t := .snapshotting (k :: ks) text) rfl rfl rfl ?_
    rw [List.flatMap_cons, ← List.append_assoc]
    rw [← writeTmp_writeTmp st b] at hb'
    exact hb'

/-- `compact`, after its flush. -/
theorem reaches_compact (env : Env) :
    Reaches step (Admits env.io) (mk st n held [.opening] hist)
      (mk (if env.io.fopen then
          if env.io.renamed then (st.writeTmp (env.io.reached (st.snapText env.ord))).renameTmp
          else st.writeTmp (env.io.reached (st.snapText env.ord))
        else st).truncateAof n held [] hist) := by
  have htrunc : ∀ st : Store, Reaches step (Admits env.io) (mk st n held [.truncating] hist)
      (mk st.truncateAof n held [] hist) := by
    intro st
    exact reaches_resume env (t := .truncating) rfl rfl rfl (Reaches.refl _)
  by_cases hopen : env.io.fopen = true
  · rw [if_pos hopen]
    refine reaches_resume env (t := .opening) rfl (by rw [resume, if_pos hopen]) rfl ?_
    obtain ⟨b, hb⟩ := reaches_snapshot allShards [] []
    refine hb.trans (reaches_resume env (t := .snapshotting [] _) rfl rfl rfl ?_)
    refine reaches_resume env (t := .publishing) rfl rfl rfl ?_
    simp only [writeTmp_writeTmp]
    split_ifs
    · exact htrunc _
    · exact htrunc _
  · rw [if_neg hopen]
    exact reaches_resume env (t := .opening) rfl (by rw [resume, if_neg hopen]) rfl (htrunc st)

theorem linesOf_append (held : List Held) (id : ℕ) (code line : Bytes) :
    linesOf (held ++ [⟨id, code, line⟩]) id = linesOf held id ++ line ++ [NL] := by
  rw [linesOf, List.filter_append, List.map_append, Framing.frame_append, linesOf,
    List.append_assoc]
  simp

/-- The last section of a mutation that is alone. -/
theorem reaches_push {id : ℕ} {now exp : Int64} (full : Bool) (hid : ∀ h ∈ held, h.id = id) :
    Reaches step (Admits {}) (mk st n held [.logging id [] now exp full] hist)
      (mk (if full then (st.pushRaw (linesOf held id)).flushIfFull
        else st.pushRaw (linesOf held id)) n [] [] hist) := by
  have hnone : (held.filter fun h ↦ decide (h.id ≠ id)) = [] := by
    refine List.filter_eq_nil_iff.mpr fun h hh ↦ ?_
    simp [hid h hh]
  have hord : held.Pairwise fun h h' ↦ h'.id = id → h.id ≠ id → h.code ≠ h'.code :=
    List.pairwise_of_forall_mem_list fun h hh h' _ _ hne ↦ absurd (hid h hh) hne
  refine reaches_resume {} (t := .logging id [] now exp full) rfl rfl
    (decide_eq_true hord) ?_
  simp only [hnone]
  exact Reaches.refl _

/-- The loop of `shorten_many`. -/
theorem reaches_shortenLoop {id : ℕ} {now exp : Int64} {full : Bool} {urls : List Bytes} :
    ∀ {st : Store} {rng : List Draw} {lines : Bytes} {codes : List Bytes} (held : List Held)
      {r : Store × Bytes × List Bytes}, st.shortenLoop now exp urls rng lines codes = some r →
      (∀ h ∈ held, h.id = id) → linesOf held id = lines →
      ∃ held', Reaches step (Admits {}) (mk st n held [.logging id urls now exp full] hist)
        (mk r.1 n held' [.logging id [] now exp full] hist) ∧
        (∀ h ∈ held', h.id = id) ∧ linesOf held' id = r.2.1 := by
  induction urls with
  | nil =>
    intro st rng lines codes held r h hid hlines
    rw [← Option.some.inj h]
    exact ⟨held, Reaches.refl _, hid, hlines⟩
  | cons u us ih =>
    intro st rng lines codes held r h hid hlines
    rw [Store.shortenLoop] at h
    cases hf : freshCode st.inner.shards st.inner.inst rng with
    | none =>
      rw [hf] at h
      exact absurd h (by simp)
    | some p =>
      rw [hf] at h
      have hid' : ∀ x ∈ held ++ [⟨id, p.1, st.rowFor p.1 u now exp⟩], x.id = id := by
        intro x hx
        rcases List.mem_append.mp hx with hx | hx
        · exact hid x hx
        · rw [List.mem_singleton.mp hx]
      obtain ⟨held', hreach, hheld', hlines'⟩ := ih _ h hid' (by rw [linesOf_append, hlines])
      refine ⟨held', ?_, hheld', hlines'⟩
      have hresume : (mk st n held [.logging id (u :: us) now exp full] hist).resume { rng }
          (.logging id (u :: us) now exp full)
          = some (st.bind p.1 u now exp, held ++ [⟨id, p.1, st.rowFor p.1 u now exp⟩],
            [.logging id us now exp full]) := by
        simp only [resume, hf]
        rfl
      exact reaches_resume { rng } rfl hresume rfl hreach

theorem push_eq_pushRaw (st : Store) (line : Bytes) : st.push line = st.pushRaw (line ++ [NL]) := by
  have h : ∀ a : Aof, a.push line = a.pushRaw (line ++ [NL]) := by
    intro a
    rw [Aof.push, Aof.pushRaw, List.append_assoc]
  rw [Store.push, Store.pushRaw, funext h]

/-- A call starts alone. -/
theorem reaches_start {io : CompactIo} {l : Label} {r : Outcome} {m' : Machine}
    (hstart : (idle st 0).start l = some r)
    (h : Reaches step (Admits io) (mk r.1 1 r.2.1 r.2.2 (r.2.2.filterMap Thread.hit)) m') :
    Reaches step (Admits io) (idle st 0) m' := by
  have hadv : ∀ k env, l ≠ .advance k env := by
    rintro k env rfl
    exact absurd hstart (by simp [start])
  refine Reaches.head (a := l) ?_ ⟨?_, fun _ ↦ ?_⟩ h
  · cases l with
    | advance k env => exact absurd rfl (hadv k env)
    | _ =>
      simp only [step, hstart, Option.map_some]
      simp [idle]
  · cases l with
    | advance k env => exact absurd rfl (hadv k env)
    | _ => rfl
  · cases l with
    | advance k env => exact absurd rfl (hadv k env)
    | _ => rfl

/-- A mutation that is alone: its line is pushed right after the index has changed. -/
theorem reaches_logging {l : Label} {st' : Store} {code line : Bytes} {now exp : Int64} (full : Bool)
    (hstart : (idle st 0).start l
      = some (st', [⟨0, code, line⟩], [.logging 0 [] now exp full])) :
    ∃ m', Reaches step (Admits {}) (idle st 0) m' ∧
      m'.store = (if full then (st'.push line).flushIfFull else st'.push line) ∧ m'.calls = [] := by
  refine ⟨_, reaches_start hstart (reaches_push full (by simp)), ?_, rfl⟩
  have hlines : linesOf [⟨0, code, line⟩] 0 = line ++ [NL] := linesOf_append [] 0 code line
  simp only [hlines, push_eq_pushRaw]

/-- A lookup that ends a resolve which is alone. -/
theorem reaches_counted {code : Bytes} (track : Bool) {hist : List Bytes} :
    ∃ m', Reaches step (Admits {}) (mk st n [] (afterLookup track code) hist) m' ∧
      m'.store = (if track then st.markDirty code else st) ∧ m'.calls = [] := by
  cases track with
  | false => exact ⟨_, Reaches.refl _, rfl, rfl⟩
  | true =>
    exact ⟨_, reaches_resume {} (t := .counted code) rfl rfl rfl (Reaches.refl _), rfl, rfl⟩

/-- The second look of a resolve that is alone. -/
theorem reaches_retrying (code : Bytes) (env : Env) {hist : List Bytes} :
    ∃ m', Reaches step (Admits {}) (mk st n [] [.retrying code] hist) m' ∧
      m'.store = (match st.lookup code (env.clk 3) env.track with
        | (st, .url u) => (if env.track then st.markDirty code else st, some u)
        | (st, _) => (st, none)).1 ∧ m'.calls = [] := by
  have hresume : (mk st n [] [.retrying code] hist).resume { env with io := {} } (.retrying code)
      = match st.lookup code (env.clk 3) env.track with
        | (st, .url _) => some (st, [], afterLookup env.track code)
        | (st, _) => some (st, [], []) := rfl
  cases hl : st.lookup code (env.clk 3) env.track with
  | mk st₁ f =>
    rw [hl] at hresume
    cases f with
    | url u =>
      obtain ⟨m', hreach, hm, hcalls⟩ := reaches_counted env.track
      exact ⟨m', reaches_resume { env with io := {} } rfl hresume rfl hreach, hm, hcalls⟩
    | expired =>
      exact ⟨_, reaches_resume { env with io := {} } rfl hresume rfl (Reaches.refl _), rfl, rfl⟩
    | absent =>
      exact ⟨_, reaches_resume { env with io := {} } rfl hresume rfl (Reaches.refl _), rfl, rfl⟩

end Machine

open Machine

/-- **A call alone is a run of the machine.** -/
theorem call_reaches {call : Call} {st st' : Store} (hsess : call.inSession = true)
    (h : call.run st = some st') :
    ∃ m', Reaches step (Admits call.io) (idle st 0) m' ∧ m'.store = st' ∧ m'.calls = [] := by
  have hskip : ∀ {l : Label} {st' : Store}, (idle st 0).start l = some (st', [], []) →
      ∃ m', Reaches step (Admits {}) (idle st 0) m' ∧ m'.store = st' ∧ m'.calls = [] :=
    fun hstart ↦ ⟨_, reaches_start hstart (Reaches.refl _), rfl, rfl⟩
  cases call with
  | shorten url al ttl env =>
    obtain ⟨p, hp, rfl⟩ := Option.map_eq_some_iff.mp h
    obtain ⟨pick, hpick, rfl⟩ := Option.map_eq_some_iff.mp hp
    have hstart : (idle st 0).start (.shorten url al ttl env)
        = (st.pickCode (al.map Subtype.val) env.rng).map _ := rfl
    rw [hpick] at hstart
    cases pick with
    | none => exact hskip hstart
    | some code => exact reaches_logging true hstart
  | shortenMany urls ttl env =>
    obtain ⟨p, hp, rfl⟩ := Option.map_eq_some_iff.mp h
    obtain ⟨r, hr, rfl⟩ := Option.map_eq_some_iff.mp hp
    obtain ⟨held, hreach, hid, hlines⟩ := reaches_shortenLoop [] hr (by simp) rfl
    refine ⟨_, reaches_start (l := .shortenMany urls ttl env) rfl
      (hreach.trans (reaches_push true hid)), ?_, rfl⟩
    rw [hlines]
    rfl
  | resolve code env =>
    have hst := Option.some.inj h
    rw [Store.resolve] at hst
    cases hl : st.lookup code (env.clk 0) env.track with
    | mk st₁ f =>
      rw [hl] at hst
      cases f with
      | url u =>
        have hstart : (idle st 0).start (.resolve code env)
            = some (st₁, [], afterLookup env.track code) := by simp only [start, idle, hl]
        obtain ⟨m', hreach, hm, hcalls⟩ := reaches_counted env.track
        exact ⟨m', reaches_start hstart hreach, hm.trans hst, hcalls⟩
      | expired =>
        have hstart : (idle st 0).start (.resolve code env) = some (st₁, [], []) := by
          simp only [start, idle, hl]
        obtain ⟨m', hreach, hm, hcalls⟩ := hskip hstart
        exact ⟨m', hreach, hm.trans hst, hcalls⟩
      | absent =>
        have hstart : (idle st 0).start (.resolve code env)
            = some (st₁, [], if st₁.inner.aof.isNone then [] else [.missed code]) := by
          simp only [start, idle, hl]
        simp only at hst
        by_cases haof : st₁.inner.aof.isNone = true
        · rw [if_pos haof] at hst hstart
          obtain ⟨m', hreach, hm, hcalls⟩ := hskip hstart
          exact ⟨m', hreach, hm.trans hst, hcalls⟩
        · rw [if_neg haof] at hst hstart
          obtain ⟨m', hreach, hm, hcalls⟩ := reaches_retrying (n := 1) code env
          refine ⟨m', reaches_start hstart ?_, hm.trans hst, hcalls⟩
          exact reaches_resume { env with io := {} } (t := .missed code) rfl rfl rfl hreach
  | update code url ttl hasTtl env =>
    have hst := Option.some.inj h
    rw [Store.update] at hst
    cases hupd : st.updateIndex code url ttl hasTtl (env.clk 0) with
    | error e =>
      rw [hupd] at hst
      refine hst ▸ hskip (l := .update code url ttl hasTtl env) ?_
      simp [start, idle, locked, hupd]
    | ok p =>
      have hstart : (idle st 0).start (.update code url ttl hasTtl env)
          = some (p.1, [⟨0, code, p.2⟩], [.logging 0 [] 0 0 false]) := by
        simp [start, idle, locked, hupd]
      rw [hupd] at hst
      exact hst ▸ reaches_logging false hstart
  | remove code =>
    have hst := Option.some.inj h
    rw [Store.remove] at hst
    cases hrem : st.removeIndex code with
    | error e =>
      rw [hrem] at hst
      refine hst ▸ hskip (l := .remove code) ?_
      simp [start, idle, locked, hrem]
    | ok p =>
      have hstart : (idle st 0).start (.remove code)
          = some (p.1, [⟨0, code, p.2⟩], [.logging 0 [] 0 0 false]) := by
        simp [start, idle, locked, hrem]
      rw [hrem] at hst
      exact hst ▸ reaches_logging false hstart
  | flush env =>
    obtain rfl := Option.some.inj h
    by_cases haof : st.inner.aof.isNone = true
    · rw [Store.flushLocked, if_pos haof]
      refine hskip (l := .flush) ?_
      simp [start, idle, locked, haof]
    · have hstart : (idle st 0).start .flush = some (st, [], [.flushing false allShards []]) := by
        simp [start, idle, locked, haof]
      exact ⟨_, reaches_start hstart (reaches_flushLocked { env with io := {} } false
        (Bool.eq_false_iff.mpr haof)), rfl, rfl⟩
  | pollTails env => exact Option.some.inj h ▸ hskip (l := .pollTails env) rfl
  | compact env =>
    obtain rfl := Option.some.inj h
    by_cases haof : st.inner.aof.isNone = true
    · rw [Store.compact, if_pos haof]
      have hstart : (idle st 0).start .compact = some (st, [], []) := by simp [start, idle, haof]
      exact ⟨_, reaches_start hstart (Reaches.refl _), rfl, rfl⟩
    · have hstart : (idle st 0).start .compact = some (st, [], [.flushing true allShards []]) := by
        simp [start, idle, haof]
      refine ⟨_, reaches_start hstart ((reaches_flushLocked env true
        (Bool.eq_false_iff.mpr haof)).trans (reaches_compact env)), ?_, rfl⟩
      rw [Store.compact, if_neg haof]
  | reopen ord => exact absurd hsess Bool.false_ne_true

end Shrt
