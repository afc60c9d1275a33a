import Shrt.Cluster.Followers
import Shrt.Lib.Turns

/-!
# Siblings that converge

When no more calls are made, every instance has flushed and every instance has polled after that, do
all of them have the same links? An instance takes an alias when it does not know it itself, and the
row that it reads last wins. So two instances that create one alias at a time end up with each
other's row (`links_crossed`).

They agree about a code when its creators take turns (`TakesTurn`): whoever creates it does so while
nothing about it is on its way from others. An instance that opens late reads whole logs, one after
the other, in any order; for it the lines about the code have to be all in one log.
-/

namespace Shrt

open LastWrite (Write Silent replay)
open Replication (Action act Agreeing)
open Transition (run Meets Reaches)

namespace Cluster

/-- Nothing about the code is on its way from an instance: neither is it in the buffer, nor has a
sibling yet to read it in the log. -/
def Delivered (s : Cluster) (c : Bytes) (i : InstanceId) : Prop :=
  Silent c (writesOf (s.buf i)) ∧
    ∀ k, k ≠ i → (s.nodes k).isSome = true → Silent c (writesOf (s.unread k i))

/-- The rows and tombstones of the code are all written by one instance. -/
def InOneLog (s : Cluster) (c : Bytes) : Prop :=
  ∀ i j, ¬ Silent c (writesOf (s.log i) ++ writesOf (s.buf i)) →
    ¬ Silent c (writesOf (s.log j) ++ writesOf (s.buf j)) → i = j

/-- The creators of the code take turns: a step that creates it does so while nothing about it is on
its way from others, and an instance opens while all about it is in one log. -/
def TakesTurn (c : Bytes) (s : Cluster) (l : Label) : Prop :=
  (c ∈ s.codes l → s.links l.node c = none → ∀ i, i ≠ l.node → s.Delivered c i) ∧
    (l.boots = true → s.InOneLog c)

/-- The calls that bring the instances together: a flush or a poll. -/
def Label.settles : Label → Bool
  | call _ (.flush _) | call _ (.pollTails _) => true
  | _ => false

section Decide

variable (s : Cluster) (c : Bytes)

instance decidableSilent (ws : List (Write Bytes LinkRow)) : Decidable (Silent c ws) :=
  inferInstanceAs (Decidable (∀ w ∈ ws, w.key ≠ c))

instance decidableDelivered (i : InstanceId) : Decidable (s.Delivered c i) :=
  inferInstanceAs (Decidable (_ ∧ ∀ k, k ≠ i → (s.nodes k).isSome = true → Silent c _))

instance decidableInOneLog : Decidable (s.InOneLog c) :=
  inferInstanceAs (Decidable (∀ i j, ¬ Silent c _ → ¬ Silent c _ → i = j))

instance decidableTakesTurn (l : Label) : Decidable (TakesTurn c s l) :=
  inferInstanceAs (Decidable ((_ → _ → ∀ i, i ≠ l.node → s.Delivered c i) ∧ (_ → s.InOneLog c)))

end Decide

/-- A cluster that has not compacted, on its way to agree on a code. -/
structure Shared (c : Bytes) (s : Cluster) : Prop where
  formed : Formed s
  within : Within s
  fresh : ∀ i, s.abs.snap i = []
  agreeing : Agreeing Owns c s.abs

variable {s s' : Cluster} {l : Label} {c : Bytes} {k i : InstanceId}

theorem shared_empty : Shared c empty where
  formed := formed_empty
  within := within_empty
  fresh := fun _ ↦ rfl
  agreeing := .inl ⟨fun _ ↦ ⟨LastWrite.silent_nil c, LastWrite.silent_nil c,
    fun _ ↦ LastWrite.silent_nil c⟩, fun _ ↦ rfl⟩

/-- In a step by which creators take turns, each action is fair. -/
theorem Explains.fair {σ : Nodes} {a : Action InstanceId Bytes LinkRow} (h : Explains s l σ a)
    (hs : Formed s) (hfresh : ∀ i, σ.snap i = []) (hno : l.compacts = false) (hturn : TakesTurn c s l) :
    a.Fair Owns c σ := by
  obtain ⟨henabled, h⟩ := h
  cases a with
  | push m ws =>
    obtain ⟨rfl, rfl, hkeys⟩ := h
    obtain ⟨hal, hsigned, hfree⟩ := henabled
    intro hws
    obtain ⟨w, hw, rfl⟩ := LastWrite.not_silent.mp hws
    refine ⟨hal, hsigned w.key, (hfree w hw).symm.imp_right fun hnone ↦ ?_⟩
    exact ⟨hnone, hturn.1 (hkeys w hw) hnone⟩
  | flush m => trivial
  | read k j n => exact henabled
  | compact m rows => exact nomatch hno.symm.trans h.2.2
  | join k v =>
    obtain ⟨rfl, hboots⟩ := h
    obtain ⟨-, hlog, hbuf, hunread, is, -, rfl⟩ := henabled
    -- There are no snapshots to start from.
    have hsnaps : is.flatMap s.abs.snap = [] := List.flatMap_eq_nil_iff.mpr fun i _ ↦ hfresh i
    refine ⟨?_, hunread, hlog, hbuf, fun i v hv ↦ (hs.isLog_log i).owner_of_mem hv, hturn.2 hboots⟩
    rw [hsnaps]
    rfl

theorem Shared.of_step (h : Shared c s) (hno : l.compacts = false) (hturn : TakesTurn c s l)
    (hstep : s.step l = some s') : Shared c s' := by
  obtain ⟨hs', hreach, hwithin⟩ := reaches_step h.formed (Label.io_of_not_compacts hno)
    (h.within.steady l) hstep
  have hinv := hreach.invariant (P := fun σ ↦ Agreeing Owns c σ ∧ ∀ i, σ.snap i = [])
    (fun σ a σ' hσ ha hact ↦ ?_) ⟨h.agreeing, h.fresh⟩
  · exact ⟨hs', hwithin hno h.within, hinv.2, hinv.1⟩
  · obtain rfl := Option.some.inj hact
    refine ⟨hσ.1.act owns_unique (ha.fair h.formed hσ.2 hno hturn), fun i ↦ ?_⟩
    rw [Replication.snap_act (ha.compacts hno)]
    exact hσ.2 i

/-! ## Coming to rest -/

theorem Label.compacts_of_settles (h : l.settles = true) : l.compacts = false := by
  cases l with
  | call k call =>
    cases call with
    | compact env => exact nomatch h
    | _ => rfl
  | boot | glimpse => rfl

theorem codes_of_settles (h : l.settles = true) : s.codes l = [] := by
  cases l with
  | call k call =>
    cases call with
    | flush | pollTails => exact codes_call_eq_nil (fun _ ↦ rfl) s k
    | _ => exact nomatch h
  | boot | glimpse => exact nomatch h

theorem takesTurn_of_settles (h : l.settles = true) : TakesTurn c s l := by
  refine ⟨fun hc ↦ ?_, fun hboots ↦ ?_⟩
  · rw [codes_of_settles h] at hc
    exact absurd hc List.not_mem_nil
  · cases l with
    | boot => exact nomatch h
    | call | glimpse => exact nomatch hboots

theorem Shared.of_settles (h : Shared c s) (hl : l.settles = true) (hstep : s.step l = some s') :
    Shared c s' :=
  h.of_step (Label.compacts_of_settles hl) (takesTurn_of_settles hl) hstep

/-- What is silent about the code stays so. -/
theorem Shared.silent_settles (h : Shared c s) (hl : l.settles = true) (hstep : s.step l = some s')
    (hbuf : Silent c (s.abs.buffer i)) : Silent c (s'.abs.buffer i) ∧
      ∀ k, Silent c (s.abs.unread k i) → Silent c (s'.abs.unread k i) := by
  have hno := Label.compacts_of_settles hl
  obtain ⟨-, hreach, -⟩ := reaches_step h.formed (Label.io_of_not_compacts hno) (h.within.steady l) hstep
  refine hreach.invariant (P := fun σ ↦ Silent c (σ.buffer i) ∧
    ∀ k, Silent c (s.abs.unread k i) → Silent c (σ.unread k i)) (fun σ a σ' hσ ha hact ↦ ?_)
    ⟨hbuf, fun _ ↦ id⟩
  obtain rfl := Option.some.inj hact
  refine ⟨ha.silent_buffer ?_ hσ.1, fun k hun ↦ Replication.silent_unread_act hσ.1 (hσ.2 k hun)⟩
  rw [codes_of_settles hl]
  exact List.not_mem_nil

/-- An instance that has not opened has nothing on its way. -/
theorem Formed.delivered_of_absent (hs : Formed s) (hi : (s.nodes i).isSome = false) (c : Bytes) :
    s.Delivered c i := by
  have hnone := Option.isNone_iff_eq_none.mp (Option.isSome_eq_false_iff.mp hi)
  refine ⟨?_, fun k _ _ ↦ ?_⟩
  · rw [buf, hnone, Option.elim_none, writesOf_nil]
    exact LastWrite.silent_nil c
  · rw [unread, (hs.absent hnone).1, TailReader.unread_nil (hs.sound k i), writesOf_nil]
    exact LastWrite.silent_nil c

/-- When all have flushed and polled, nothing about the code is on its way. -/
theorem Shared.delivered {ms ms' : List Label} {t : Cluster} (h : Shared c s)
    (hms : ∀ l ∈ ms ++ ms', l.settles = true) (ht : run step s (ms ++ ms') = some t)
    (hflush : ∀ i, (t.nodes i).isSome = true → ∃ env, .call i (.flush env) ∈ ms)
    (hpoll : ∀ k, (t.nodes k).isSome = true → ∃ env, .call k (.pollTails env) ∈ ms') :
    Shared c t ∧ ∀ i, t.Delivered c i := by
  obtain ⟨u, hu, ht⟩ := Transition.run_append_eq_some.mp ht
  have hms₁ : Meets step (fun _ l ↦ l.settles = true) s ms :=
    Transition.meets_of_forall (fun l hl ↦ hms l (List.mem_append_left _ hl)) s
  have hms₂ : Meets step (fun _ l ↦ l.settles = true) u ms' :=
    Transition.meets_of_forall (fun l hl ↦ hms l (List.mem_append_right _ hl)) u
  have hsettle : ∀ s l s', Shared c s → l.settles = true → s.step l = some s' → Shared c s' :=
    fun _ _ _ h hl hstep ↦ h.of_settles hl hstep
  have hu' : Shared c u := Transition.run_invariant hsettle h hms₁ hu
  have ht' : Shared c t := Transition.run_invariant hsettle hu' hms₂ ht
  refine ⟨ht', fun i ↦ ?_⟩
  cases hi : (t.nodes i).isSome with
  | false => exact ht'.formed.delivered_of_absent hi c
  | true =>
    -- The flush empties the buffer, and nothing about the code comes in afterwards.
    obtain ⟨env, henv⟩ := hflush i hi
    have hbuf : Silent c (u.abs.buffer i) := by
      refine Transition.run_of_mem hsettle (fun _ _ _ h hq hl hstep ↦ (h.silent_settles hl hstep hq).1)
        (fun s s' h hstep ↦ ?_) h hms₁ henv hu
      have hempty : s'.abs.buffer i = [] :=
        (congrArg writesOf (buf_flush h.formed hstep)).trans writesOf_nil
      rw [hempty]
      exact LastWrite.silent_nil c
    have hkeep : ∀ s l s', Shared c s ∧ Silent c (s.abs.buffer i) → l.settles = true →
        s.step l = some s' → Shared c s' ∧ Silent c (s'.abs.buffer i) :=
      fun _ _ _ h hl hstep ↦ ⟨h.1.of_settles hl hstep, (h.1.silent_settles hl hstep h.2).1⟩
    refine ⟨(Transition.run_invariant hkeep ⟨hu', hbuf⟩ hms₂ ht).2, fun k hki hk ↦ ?_⟩
    -- The poll leaves nothing to read, and nothing is appended afterwards.
    obtain ⟨env', henv'⟩ := hpoll k hk
    refine Transition.run_of_mem (Q := fun s ↦ Silent c (s.abs.unread k i)) hkeep
      (fun _ _ _ h hq hl hstep ↦ (h.1.silent_settles hl hstep h.2).2 k hq) (fun s s' h hstep ↦ ?_)
      ⟨hu', hbuf⟩ hms₂ henv' ht
    obtain ⟨-, -, -, hunread⟩ := reaches_pollTails h.1.formed hstep
    rw [hunread i (Ne.symm hki)]
    exact LastWrite.silent_nil c

/-- **Siblings converge.** Take any run without compaction in which the creators of a code take
turns. When after it only flushes and polls happen, first among them a flush by every instance and
then a poll by every instance, all instances have the same link for the code, or none. -/
theorem links_converge {ls ms ms' : List Label} {t : Cluster} (hrun : run step empty ls = some s)
    (hno : ∀ l ∈ ls, l.compacts = false) (hturn : Meets step (TakesTurn c) empty ls)
    (hms : ∀ l ∈ ms ++ ms', l.settles = true) (ht : run step s (ms ++ ms') = some t)
    (hflush : ∀ i, (t.nodes i).isSome = true → ∃ env, .call i (.flush env) ∈ ms)
    (hpoll : ∀ k, (t.nodes k).isSome = true → ∃ env, .call k (.pollTails env) ∈ ms')
    (hi : (t.nodes i).isSome = true) (hk : (t.nodes k).isSome = true) : t.links i c = t.links k c := by
  have h : Shared c s := Transition.run_invariant (fun _ _ _ h hok hstep ↦ h.of_step hok.1 hok.2 hstep)
    shared_empty ((Transition.meets_of_forall hno empty).and hturn) hrun
  obtain ⟨h', hdelivered⟩ := h.delivered hms ht hflush hpoll
  exact h'.agreeing.view_eq hdelivered hi hk

/-- An alias is removed by the instance that created it; a sibling that knows creates it again. -/
def takenInTurn : List Label :=
  [.boot 0 fun _ ↦ 0, .boot 1 fun _ ↦ 0,
    .call 0 (.shorten (lit "u0") (some ⟨lit "a", codeOk_a⟩) 0 {}), .call 0 (.remove (lit "a")),
    .call 0 (.flush {}), .call 1 (.pollTails {}),
    .call 1 (.shorten (lit "u1") (some ⟨lit "a", codeOk_a⟩) 0 {})]

/-- Two instances create an alias before either has read the other's log. -/
def takenAtOnce : List Label :=
  [.boot 0 fun _ ↦ 0, .boot 1 fun _ ↦ 0,
    .call 0 (.shorten (lit "u0") (some ⟨lit "a", codeOk_a⟩) 0 {}),
    .call 1 (.shorten (lit "u1") (some ⟨lit "a", codeOk_a⟩) 0 {})]

/-- All flush. -/
def flushAll (ks : List InstanceId) : List Label := ks.map fun k ↦ .call k (.flush {})

/-- All poll. -/
def pollAll (ks : List InstanceId) : List Label := ks.map fun k ↦ .call k (.pollTails {})

theorem links_converge_takenInTurn : ∃ s t, run step empty takenInTurn = some s ∧
    run step s (flushAll [0, 1] ++ pollAll [1, 0]) = some t ∧
    t.links 0 (lit "a") = t.links 1 (lit "a") ∧
    (t.links 1 (lit "a")).map LinkRow.u = some (lit "u1") := by
  obtain ⟨t, ht, hopen, hlink⟩ : ∃ t, run step empty (takenInTurn
      ++ (flushAll [0, 1] ++ pollAll [1, 0])) = some t ∧
      (∀ k, (t.nodes k).isSome = true ↔ k ∈ ([0, 1] : List InstanceId)) ∧
      (t.links 1 (lit "a")).map LinkRow.u = some (lit "u1") := by
    decide +kernel
  obtain ⟨s, hs, ht⟩ := Transition.run_append_eq_some.mp ht
  have hno : ∀ l ∈ takenInTurn, l.compacts = false := by decide
  have hturn : Meets step (TakesTurn (lit "a")) empty takenInTurn := by decide +kernel
  have hall : ∀ k ∈ ([0, 1] : List InstanceId), k ∈ ([1, 0] : List InstanceId) := by decide
  refine ⟨s, t, hs, ht, links_converge hs hno hturn (by decide) ht (fun i hi ↦ ⟨{}, ?_⟩)
    (fun k hk ↦ ⟨{}, ?_⟩) ((hopen 0).mpr ?_) ((hopen 1).mpr ?_), hlink⟩
  · exact List.mem_map_of_mem ((hopen i).mp hi)
  · exact List.mem_map_of_mem (hall k ((hopen k).mp hk))
  · decide
  · decide

/-- **Links crossed.** Each of the two has the row of the other. -/
theorem links_crossed : ∃ t,
    run step empty (takenAtOnce ++ (flushAll [0, 1] ++ pollAll [0, 1])) = some t ∧
    (t.links 0 (lit "a")).map LinkRow.u = some (lit "u1") ∧
    (t.links 1 (lit "a")).map LinkRow.u = some (lit "u0") := by
  decide +kernel

end Cluster

end Shrt
