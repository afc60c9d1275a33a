import Shrt.Kv.Requests

/-!
# The janitor

In the hash layout no field has a deadline, and the janitor deletes the fields that have expired. It
collects their names over all buckets first, and deletes them at the end, whatever they hold by
then.

What it deletes has expired as long as nothing that has not is written to a field whose name it has
collected (`sweep_deletes_expired`).
-/

namespace Shrt.Kv

open Backend (Act Config Node expiredValue expiredValue_of_le)
open Interleave (Pool Prog Label Thread)
open Transition (run Meets)

variable {ι : Type} [DecidableEq ι] {cfg : ι → Config} {db : Redis} {t : Moment} {clk : Clock} {β : Type}

/-! ## What is written and deleted -/

/-- Whether a request is the janitor's. -/
def Request.isSweep : Request → Bool
  | .sweep => true
  | _ => false

/-- The field that a command writes, and the value. -/
def written (db : Redis) : Cmd → Option ((Bytes × Bytes) × Bytes)
  | .hset k f v => some ((k, f), v)
  | .hsetnx k f v => if (db.fields.lookup (k, f)).isSome then none else some ((k, f), v)
  | .hincrby k f d => (Redis.plus (db.fields.lookup (k, f)) d).toOption.map fun n ↦ ((k, f), itoa n)
  | _ => none

/-- The field that a node is about to write. -/
def pendingField (db : Redis) : KvProg β → Option ((Bytes × Bytes) × Bytes)
  | .act (.query c) _ => written db c
  | _ => none

/-- The field that a command deletes. -/
def deleted : Cmd → Option (Bytes × Bytes)
  | .hdel k f => some (k, f)
  | _ => none

/-- The field that a node is about to delete. -/
def pendingDelete : KvProg β → Option (Bytes × Bytes)
  | .act (.query c) _ => deleted c
  | _ => none

/-- The reply that says nothing. -/
def emptyReply : (a : Act Cmd) → a.Reply fun _ ↦ Resp
  | .cacheGet _ _ => none
  | .cachePut _ _ _ _ | .cacheDel _ | .bump _ => ()
  | .pending _ => none
  | .pendingEntry _ => 0
  | .drain _ => []
  | .query _ => {}

/-- The fields that a node is bound to delete: those it deletes even if the server has nothing more
to say. -/
def dooms : KvProg β → List (Bytes × Bytes)
  | .ret _ => []
  | .act a k =>
    (match a with
      | .query c => (deleted c).toList
      | _ => []) ++ dooms (k (emptyReply a))

/-- The condition: what is written to a field that a janitor is bound to delete had expired when
that janitor read the clock. -/
def Undisturbed (P : RequestPool ι) : Label (Asked ι) Moment → Prop
  | .start _ => True
  | .step i _ => ∀ th ∈ P.threads[i]?, ∀ w ∈ pendingField P.shared.2 th.prog,
      ∀ th' ∈ P.threads, th'.call.req.isSweep → w.1 ∈ dooms th'.prog →
        expiredValue (th'.call.clk 0) w.2

/-- Time does not go back: it is not before the time that a janitor has read. -/
def Onward (P : RequestPool ι) : Label (Asked ι) Moment → Prop
  | .start _ => True
  | .step i t => ∀ th ∈ P.threads[i]?, th.call.req.isSweep → th.call.clk 0 ≤ t.now

/-- A field that a janitor is about to delete holds nothing, or a row that has expired. -/
def SweepsExpired (P : RequestPool ι) : Label (Asked ι) Moment → Prop
  | .start _ => True
  | .step i t => ∀ th ∈ P.threads[i]?, th.call.req.isSweep → ∀ w ∈ pendingDelete th.prog,
      ∀ v ∈ P.shared.2.fields.lookup w, expiredValue t.now v

instance (P : RequestPool ι) : DecidablePred (Undisturbed P)
  | .start _ => inferInstanceAs (Decidable True)
  | .step _ _ => inferInstanceAs (Decidable (∀ th ∈ _, ∀ w ∈ _, ∀ th' ∈ _, _ → _ → _))

instance (P : RequestPool ι) : DecidablePred (Onward P)
  | .start _ => inferInstanceAs (Decidable True)
  | .step _ _ => inferInstanceAs (Decidable (∀ th ∈ _, _ → _))

instance (P : RequestPool ι) : DecidablePred (SweepsExpired P)
  | .start _ => inferInstanceAs (Decidable True)
  | .step _ _ => inferInstanceAs (Decidable (∀ th ∈ _, _ → ∀ w ∈ _, ∀ v ∈ _, _))

/-! ## The janitor's program -/

/-- What is left is the deletion of fields. -/
def Deletes : List (Bytes × Bytes) → KvProg β → Prop
  | [], p => ∃ b, p = .ret b
  | w :: ws, p => ∃ k, p = .act (.query (.hdel w.1 w.2)) k ∧ ∀ r, Deletes ws (k r)

/-- The names that the janitor takes from the reply for a bucket. -/
def dead (now : Int64) (b : Bytes) (r : Resp) : List (Bytes × Bytes) :=
  ((pairs r.scanned).filter fun p ↦ !(lit "h:" <+: p.1) && expiredValue now p.2).map fun p ↦ (b, p.1)

/-- What is left is the iteration over buckets, and the deletion of what was collected. -/
def Collects (now : Int64) : List Bytes → List (Bytes × Bytes) → KvProg β → Prop
  | [], ws, p => Deletes ws p
  | b :: bs, ws, p => ∃ k, p = .act (.query (.hscan b)) k ∧
      ∀ r : Resp, Collects now bs (ws ++ dead now b r) (k r)

theorem deletes_pipe (ws : List (Bytes × Bytes)) {g : List Resp → KvProg β}
    (hg : ∀ rs, ∃ b, g rs = .ret b) : Deletes ws (pipe (ws.map fun w ↦ .hdel w.1 w.2) >>= g) := by
  induction ws generalizing g with
  | nil => exact hg []
  | cons w ws ih =>
    refine ⟨_, rfl, fun r ↦ ?_⟩
    change Deletes ws ((pipe _ >>= fun rs ↦ .ret (r :: rs)) >>= g)
    rw [Prog.bind_assoc]
    exact ih fun rs ↦ hg (r :: rs)

theorem collects_sweepBuckets {now : Int64} (bs : List Bytes) (ws : List (Bytes × Bytes))
    {g : List Cmd → KvProg β} (hg : ∀ ws, Deletes ws (g (ws.map fun w ↦ .hdel w.1 w.2))) :
    Collects now bs ws (sweepBuckets now bs (ws.map fun w ↦ .hdel w.1 w.2) >>= g) := by
  induction bs generalizing ws with
  | nil => exact hg ws
  | cons b bs ih =>
    refine ⟨_, rfl, fun r ↦ ?_⟩
    have hnext := ih (ws ++ dead now b r)
    rw [List.map_append, dead, List.map_map] at hnext
    exact hnext

/-- What is left of a janitor's request: it is yet to ask for the buckets, or iterates over them. -/
def Sweeping (now : Int64) (ws : List (Bytes × Bytes)) (p : KvProg β) : Prop :=
  (ws = [] ∧ ∃ k, p = .act (.query (.scan (lit "l:"))) k ∧ ∀ r, ∃ bs, Collects now bs [] (k r)) ∨
    ∃ bs, Collects now bs ws p

theorem sweeping_sweepExpired (b : β) : Sweeping (clk 0) [] (sweepExpired clk >>= fun _ ↦ .ret b) := by
  refine .inl ⟨rfl, _, rfl, fun r ↦ ⟨r.scanned.map Resp.str, ?_⟩⟩
  change Collects (clk 0) _ [] ((sweepBuckets (clk 0) (r.scanned.map Resp.str) [] >>= fun dels ↦
    pipe dels >>= fun _ ↦ .ret ()) >>= fun _ ↦ .ret b)
  rw [Prog.bind_assoc]
  refine collects_sweepBuckets _ [] fun ws ↦ ?_
  rw [Prog.bind_assoc]
  exact deletes_pipe ws fun _ ↦ ⟨b, rfl⟩

theorem dooms_of_deletes {ws : List (Bytes × Bytes)} {p : KvProg β} (h : Deletes ws p) :
    dooms p = ws := by
  induction ws generalizing p with
  | nil =>
    obtain ⟨b, rfl⟩ := h
    rfl
  | cons w ws ih =>
    obtain ⟨k, rfl, hk⟩ := h
    exact congrArg (w :: ·) (ih (hk _))

theorem dooms_of_collects {now : Int64} {bs : List Bytes} {ws : List (Bytes × Bytes)} {p : KvProg β}
    (h : Collects now bs ws p) : dooms p = ws := by
  induction bs generalizing ws p with
  | nil => exact dooms_of_deletes h
  | cons b bs ih =>
    obtain ⟨k, rfl, hk⟩ := h
    have hnext := ih (hk {})
    rwa [show dead now b {} = [] from rfl, List.append_nil] at hnext

/-- A janitor is bound to delete what it has collected. -/
theorem Sweeping.dooms_eq {now : Int64} {ws : List (Bytes × Bytes)} {p : KvProg β}
    (h : Sweeping now ws p) : dooms p = ws := by
  obtain ⟨rfl, k, rfl, hk⟩ | ⟨bs, h⟩ := h
  · obtain ⟨bs, h⟩ := hk {}
    change dooms (k {}) = []
    exact dooms_of_collects h
  · exact dooms_of_collects h

/-! ## Steps -/

/-- The fields hold nothing, or rows that have expired. -/
def Stale (now : Int64) (db : Redis) (ws : List (Bytes × Bytes)) : Prop :=
  ∀ w ∈ ws, ∀ v ∈ db.fields.lookup w, expiredValue now v

/-- What a field holds after a command, it held before, or the command has written it. -/
theorem lookup_of_exec {b : UInt32} {c : Cmd} (hc : (Layout.hash b).Sends c) {w : Bytes × Bytes}
    {v : Bytes} (h : (db.exec t c).2.fields.lookup w = some v) :
    db.fields.lookup w = some v ∨ written db c = some (w, v) := by
  have hset {k f v' : Bytes} (h : (db.setField k f v').fields.lookup w = some v) :
      db.fields.lookup w = some v ∨ ((k, f), v') = (w, v) := by
    by_cases hw : w = (k, f)
    · rw [hw, Redis.setField, AList.lookup_insert, Option.some.injEq] at h
      exact .inr (by rw [hw, h])
    · rw [Redis.setField, AList.lookup_insert_ne hw] at h
      exact .inl h
  cases c with
  | hget k f =>
    rw [Redis.exec] at h
    split_ifs at h
    · exact .inl h
    · exact .inl h
  | hsetnx k f v' =>
    rw [Redis.exec] at h
    split_ifs at h with hstring hfield
    · exact .inl h
    · exact .inl h
    · refine (hset h).imp_right fun heq ↦ ?_
      rw [written, if_neg hfield, heq]
  | hset k f v' =>
    rw [Redis.exec] at h
    split_ifs at h
    · exact .inl h
    · exact (hset h).imp_right (congrArg some)
    · exact (hset h).imp_right (congrArg some)
  | hdel k f =>
    rw [Redis.exec] at h
    split_ifs at h
    · exact .inl h
    · by_cases hw : w = (k, f)
      · rw [hw, Redis.eraseField, AList.lookup_erase] at h
        cases h
      · rw [Redis.eraseField, AList.lookup_erase_ne hw] at h
        exact .inl h
    · exact .inl h
  | hincrby k f d =>
    rw [Redis.exec] at h
    split_ifs at h
    · exact .inl h
    · rw [written]
      cases hplus : Redis.plus (db.fields.lookup (k, f)) d with
      | error msg =>
        rw [hplus] at h
        exact .inl h
      | ok n =>
        rw [hplus] at h
        exact (hset h).imp_right (congrArg some)
  | scan start => exact .inl h
  | hscan k =>
    rw [exec_hscan_snd] at h
    exact .inl h
  | get _ | set _ _ _ _ | del _ | incrby _ _ => exact hc.elim

/-- A janitor that takes a step goes on with fields of that kind: what it adds to them has expired.
-/
theorem Sweeping.act {now : Int64} {ws : List (Bytes × Bytes)} {a : Act Cmd}
    {k : a.Reply (fun _ ↦ Resp) → KvProg β} (h : Sweeping now ws (.act a k)) (hstale : Stale now db ws)
    (cfg : Config) (n : Node) : ∃ ws', Sweeping now ws' (k (step cfg t a (n, db)).1) ∧
      Stale now (step cfg t a (n, db)).2.2 ws' := by
  obtain ⟨rfl, k', hk', hcollects⟩ | ⟨bs, h⟩ := h
  · obtain ⟨rfl, hk⟩ := Prog.act.inj hk'
    obtain rfl := eq_of_heq hk
    exact ⟨[], .inr (hcollects _), fun w hw ↦ absurd hw List.not_mem_nil⟩
  · cases bs with
    | nil =>
      cases ws with
      | nil =>
        obtain ⟨b, hb⟩ := h
        cases hb
      | cons w ws =>
        obtain ⟨k', hk', hdeletes⟩ := h
        obtain ⟨rfl, hk⟩ := Prog.act.inj hk'
        obtain rfl := eq_of_heq hk
        refine ⟨ws, .inr ⟨[], hdeletes _⟩, fun w' hw' v hv ↦ ?_⟩
        rcases @lookup_of_exec db t 0 (.hdel w.1 w.2) trivial w' v hv with hv | hv
        · exact hstale w' (List.mem_cons_of_mem _ hw') v hv
        · cases hv
    | cons b bs =>
      obtain ⟨k', hk', hcollects⟩ := h
      obtain ⟨rfl, hk⟩ := Prog.act.inj hk'
      obtain rfl := eq_of_heq hk
      refine ⟨_, .inr ⟨bs, hcollects _⟩, fun w hw v hv ↦ ?_⟩
      change v ∈ (db.exec t (.hscan b)).2.fields.lookup w at hv
      rw [exec_hscan_snd] at hv
      rcases List.mem_append.mp hw with hw | hw
      · exact hstale w hw v hv
      · obtain ⟨p, hp, rfl⟩ := List.mem_map.mp hw
        obtain ⟨hmem, hdead⟩ := List.mem_filter.mp hp
        obtain rfl := Option.some.inj ((lookup_of_mem_hscan hmem).symm.trans hv)
        exact (Bool.and_eq_true_iff.mp hdead).2

/-! ## Runs -/

/-- The fields that a janitor has collected hold nothing, or rows that have expired. -/
def CollectsStale (db : Redis) (th : RequestThread ι) : Prop :=
  th.call.req.isSweep → ∃ ws, Sweeping (th.call.clk 0) ws th.prog ∧ Stale (th.call.clk 0) db ws

/-- What a field holds after a step, it held before, or a node was about to write it. -/
theorem lookup_of_step {b : UInt32} {P P' : RequestPool ι} {l : Label (Asked ι) Moment}
    (hP : P.Within fun c ↦ c.req.Performs (.hash b) c.clk)
    (hstep : requestStep cfg (.hash b) P l = some P') {w : Bytes × Bytes} {v : Bytes}
    (h : P'.shared.2.fields.lookup w = some v) : P.shared.2.fields.lookup w = some v ∨
      ∃ i t, l = .step i t ∧ ∃ th ∈ P.threads[i]?, pendingField P.shared.2 th.prog = some (w, v) := by
  obtain ⟨c, rfl, rfl⟩ | ⟨i, t, th, a, k, rfl, hth, hprog, rfl⟩ := Pool.step_cases hstep
  · exact .inl h
  · have ha := performs_of_within hP hth hprog
    cases a with
    | query c =>
      refine (lookup_of_exec ha.sends h).imp_right fun hw ↦ ⟨i, t, rfl, th, hth, ?_⟩
      rw [hprog]
      exact hw
    | cacheGet _ _ | cachePut _ _ _ _ | cacheDel _ | bump _ | pending _ | pendingEntry _ | drain _ =>
      exact .inl h

theorem collectsStale_of_step {b : UInt32} {P P' : RequestPool ι} {l : Label (Asked ι) Moment}
    (hP : P.Within fun c ↦ c.req.Performs (.hash b) c.clk)
    (h : ∀ (j : ℕ) th, P.threads[j]? = some th → CollectsStale P.shared.2 th) (hok : Undisturbed P l)
    (hstep : requestStep cfg (.hash b) P l = some P') :
    ∀ (j : ℕ) th, P'.threads[j]? = some th → CollectsStale P'.shared.2 th := by
  refine Pool.forall_threads_of_step hstep h ?_ ?_ ?_
  · rintro ⟨i, req, clk⟩ - - hreq
    cases req with
    | sweep => exact ⟨[], sweeping_sweepExpired _, fun w hw ↦ absurd hw List.not_mem_nil⟩
    | shorten _ _ _ _ | shortenMany _ _ | resolve _ | update _ _ _ _ | remove _ => cases hreq
  · rintro i t th a k - - hprog hth rfl hreq
    obtain ⟨ws, hsweeping, hstale⟩ := hth hreq
    rw [hprog] at hsweeping
    exact hsweeping.act hstale _ _
  · rintro j th hj hth - hreq
    obtain ⟨ws, hsweeping, hstale⟩ := hth hreq
    refine ⟨ws, hsweeping, fun w hw v hv ↦ ?_⟩
    rcases lookup_of_step hP hstep hv with hv | ⟨i, t, rfl, th', hth', hpending⟩
    · exact hstale w hw v hv
    · exact hok th' hth' _ hpending th (List.mem_of_getElem? hj) hreq (hsweeping.dooms_eq ▸ hw)

theorem mem_dooms_of_mem_pendingDelete {p : KvProg β} {w : Bytes × Bytes} (h : w ∈ pendingDelete p) :
    w ∈ dooms p := by
  cases p with
  | ret b => cases h
  | act a k =>
    cases a with
    | query c => exact List.mem_append_left _ (Option.mem_toList.mpr h)
    | cacheGet _ _ | cachePut _ _ _ _ | cacheDel _ | bump _ | pending _ | pendingEntry _ | drain _ =>
      cases h

/-- A link that lives for 5 ms is created. At 10 the janitor collects it, and before it is deleted,
it is changed, with or without a new time to live. -/
def changedWhileSwept (hasTtl : Bool) : List (Label (Asked Unit) Moment) :=
  [.start ⟨(), .shorten (lit "u") (some (lit "a")) [] 5, fun _ ↦ 0⟩, .step 0 { now := 0 },
   .start ⟨(), .sweep, fun _ ↦ 10⟩, .step 1 { now := 10 }, .step 1 { now := 10 },
   .start ⟨(), .update (lit "a") (lit "v") 100 hasTtl, fun _ ↦ 10⟩, .step 2 { now := 10 },
   .step 2 { now := 10 }, .step 1 { now := 11 }]

end Shrt.Kv
