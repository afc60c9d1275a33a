import Shrt.Machine.Counters

/-!
# Hit counts of a code that is used again

`remove` takes a link out of the index and leaves its pending hits where they are. The next flush
writes them behind the tombstone, and a restart parks them there for whatever link takes the code
next. So the hits of a link can be credited to its successor. They are not when every link is made
at a moment at which no hits wait for it (`hits_of_successor`).
-/

namespace Shrt

open WriteBehind (Counter Counted Gone Step)
open Transition (run Meets withGhost ghost)

/-- The counter of a code: exact while the code has a link, and with hits that may wait for the next
one while it has none. -/
structure Exact (R : ℕ) (v : Counter Int64) : Prop where
  counted : v.present = true → Counted hitsHom R v
  gone : v.present = false → Gone v

theorem Exact.of_counted {R : ℕ} {v : Counter Int64} (h : Counted hitsHom R v) : Exact R v :=
  ⟨fun _ ↦ h, Gone.of_counted h⟩

theorem Exact.of_gone {R : ℕ} {v : Counter Int64} (h : Gone v) : Exact R v := by
  refine ⟨fun hp ↦ ?_, fun _ ↦ h⟩
  rw [h.absent] at hp
  exact nomatch hp

/-! ## Calls -/

/-- Whether a call makes a link with this code. -/
def Call.creates (c : Bytes) (st : Store) : Call → Bool
  | shorten url al ttl env =>
    (st.shorten url (al.map Subtype.val) ttl env.clk env.rng).map Prod.snd = some (some c)
  | _ => false

/-- The hits on a code since its link was made. -/
def hitsSince (c : Bytes) (R : ℕ) (st : Store) (call : Call) : ℕ :=
  if call.creates c st then 0 else R + call.hits c st

/-- A call that creates, resolves, removes or flushes, or a restart. -/
def Call.recycles : Call → Bool
  | shorten .. | resolve .. | remove _ | flush _ | reopen _ => true
  | _ => false

/-- A link is made when no hits wait for it: none are pending on its code, and the last line about
the code in the files is not a hit line. -/
def Call.Unawaited (st : Store) : Call → Prop
  | shorten url al ttl env => ∀ p ∈ st.shorten url (al.map Subtype.val) ttl env.clk env.rng,
      ∀ c ∈ p.2, (st.counter c).Clear
  | _ => True

instance Call.decidableUnawaited (st : Store) : ∀ call : Call, Decidable (call.Unawaited st)
  | shorten url al ttl env => inferInstanceAs (Decidable
      (∀ p ∈ st.shorten url (al.map Subtype.val) ttl env.clk env.rng,
        ∀ c ∈ p.2, (st.counter c).Clear))
  | shortenMany .. | resolve .. | update .. | remove .. | flush .. | pollTails .. | compact ..
  | reopen .. => isTrue trivial

/-- A restart leaves the hits of a removed link waiting. -/
theorem Backed.gone_reopen {st : Store} (hb : Backed st) (ord : Order) {c : Bytes}
    (h : Gone (st.counter c)) : Gone ((st.reopen ord).counter c) := by
  have habsent : st.inner.find c = none :=
    Option.isNone_iff_eq_none.mp (Option.isSome_eq_false_iff.mp h.absent)
  have hnone : (st.reopen ord).inner.find c = none := by
    have hlinks : (st.reopen ord).inner.links c = none := by
      rw [hb.solo.links_reopen, hb.links, Inner.links, habsent]
      rfl
    exact Option.map_eq_none_iff.mp hlinks
  have hcounter : (st.reopen ord).counter c
      = { (st.counter c).write (st.counter c).todo with pending := none } := by
    rw [hb.solo.counter_reopen_files, Store.ownHits, hnone, Counter.write, h.absent, h.own]
    rfl
  rw [hcounter]
  exact h.write_todo

/-- **One call.** -/
theorem exact_call {call : Call} {st st' : Store} {c : Bytes} {R : ℕ} (hb : Backed st)
    (hcall : call.recycles = true) (hok : call.Unawaited st) (h : call.run st = some st')
    (hex : Exact R (st.counter c)) : Exact (hitsSince c R st call) (st'.counter c) := by
  have hs := hb.solo
  cases call with
  | shorten url al ttl env =>
    obtain ⟨p, hp, rfl⟩ := Option.map_eq_some_iff.mp h
    have hcreates : (Call.shorten url al ttl env).creates c st = decide (p.2 = some c) := by
      rw [Call.creates, hp]
      exact decide_eq_decide.mpr Option.some_inj
    rw [hitsSince, hcreates]
    rcases hs.counter_shorten hp with ⟨hcode, habsent, heq⟩ | ⟨hcode, heq⟩
    · -- Nothing waits, so the new link counts from zero.
      have hclear := hok p hp c hcode
      rw [if_pos (decide_eq_true hcode), heq]
      exact Exact.of_counted (((hex.gone habsent).counted hclear).step (Step.create habsent))
    · rw [if_neg (by rw [decide_eq_true_iff]; exact hcode), heq]
      exact hex
  | resolve code env =>
    obtain rfl := Option.some.inj h
    rw [hitsSince, if_neg (by simp [Call.creates]), Call.hits]
    rcases hs.counter_resolve code env.clk env.track env.ord with ⟨hcond, hp, heq⟩ | ⟨hcond, heq⟩
    · rw [if_pos hcond, heq]
      exact Exact.of_counted ((hex.counted hp).step (Step.hit hp))
    · rw [if_neg hcond, heq]
      exact hex
  | remove code =>
    obtain rfl := Option.some.inj h
    rw [hs.counter_remove]
    split_ifs with hc
    · obtain ⟨rfl, hp⟩ := hc
      exact Exact.of_gone (Gone.delete (hex.counted hp))
    · exact hex
  | flush env =>
    obtain rfl := Option.some.inj h
    rw [hs.counter_flushLocked]
    exact ⟨fun hp ↦ (hex.counted hp).step Step.flush, fun hp ↦ (hex.gone hp).write_todo⟩
  | reopen ord =>
    obtain rfl := Option.some.inj h
    cases hp : (st.counter c).present with
    | true =>
      have hcount := hex.counted hp
      rw [hs.counter_reopen ord hcount.settled_files_todo]
      exact Exact.of_counted (hcount.step Step.restart)
    | false => exact Exact.of_gone (hb.gone_reopen ord (hex.gone hp))
  | _ => exact absurd hcall Bool.false_ne_true

/-- **Hits belong to the link they were made on.** Take any sequence of creations, resolves,
removals, flushes and restarts in which every link is made when no hits wait for it. In every state
on the way `stats` reports, for a code that has a link, the resolves that succeeded since the link
was made, and so it does after a further restart. -/
theorem hits_of_successor {inst : InstanceId} {calls : List Call} {st : Store}
    (h : run Call.run (openEmpty inst) calls = some st)
    (hcalls : ∀ call ∈ calls, call.recycles = true)
    (hok : Meets Call.run (fun st call ↦ call.Unawaited st) (openEmpty inst) calls) (c : Bytes) :
    ((st.stats c).isSome = true → (st.stats c).map Store.Link.hits
      = some (hitsHom (ghost Call.run (hitsSince c) 0 (openEmpty inst) calls))) ∧
    ∀ ord, ((st.reopen ord).stats c).map Store.Link.hits = (st.stats c).map Store.Link.hits := by
  have hrun : run (withGhost Call.run (hitsSince c)) (openEmpty inst, 0) calls
      = some (st, ghost Call.run (hitsSince c) 0 (openEmpty inst) calls) :=
    Transition.run_withGhost h 0
  have hmeets : Meets Call.run (fun st call ↦ call.recycles = true ∧ call.Unawaited st)
      (openEmpty inst) calls := (Transition.meets_of_forall hcalls _).and hok
  have hinv : Backed st ∧ Exact (ghost Call.run (hitsSince c) 0 (openEmpty inst) calls)
      (st.counter c) := by
    refine Transition.run_invariant (P := fun p : Store × ℕ ↦ Backed p.1 ∧ Exact p.2 (p.1.counter c))
      ?_ ⟨backed_openEmpty inst, Exact.of_counted (counted_openEmpty inst c)⟩
      (Transition.meets_withGhost hmeets) hrun
    rintro ⟨st, R⟩ call ⟨st', R'⟩ ⟨hb, hex⟩ ⟨hrec, hun⟩ hstep
    obtain ⟨hcall, rfl⟩ := Transition.withGhost_eq_some.mp hstep
    have hio : call.io = {} := by
      cases call with
      | compact env => exact absurd hrec Bool.false_ne_true
      | _ => rfl
    exact ⟨backed_call hb hio hcall, exact_call hb hrec hun hcall hex⟩
  obtain ⟨hb, hex⟩ := hinv
  have hs := hb.solo
  constructor
  · intro hsome
    have hp : (st.counter c).present = true := by
      rwa [Store.stats, Option.isSome_map] at hsome
    rw [hs.hits_stats, if_pos hp, (hex.counted hp).own]
  · intro ord
    cases hp : (st.counter c).present with
    | true =>
      have hcount := hex.counted hp
      rw [hs.hits_stats_reopen ord hcount.settled_files_todo, hs.hits_stats, hcount.outcome_eq]
    | false =>
      have hgone := hb.gone_reopen ord (hex.gone hp)
      rw [(hs.reopen ord).hits_stats, hs.hits_stats, hgone.absent, hp]
      rfl

/-- A link that is hit, flushed and removed before its successor is made. -/
def flushedFirst : List Call :=
  [.shorten (lit "u0") (some ⟨lit "a", codeOk_a⟩) 0 {}, .resolve (lit "a") {},
    .resolve (lit "a") {}, .flush {}, .remove (lit "a"),
    .shorten (lit "u1") (some ⟨lit "a", codeOk_a⟩) 0 {}, .resolve (lit "a") {},
    .reopen fun _ ↦ 0]

theorem hits_of_successor_flushedFirst :
    ∃ st, run Call.run (openEmpty 0) flushedFirst = some st ∧
      ghost Call.run (hitsSince (lit "a")) 0 (openEmpty 0) flushedFirst = 1 ∧
      (st.stats (lit "a")).map Store.Link.hits = some 1 ∧
      ∀ ord, ((st.reopen ord).stats (lit "a")).map Store.Link.hits = some 1 := by
  obtain ⟨st, hrun, hsome⟩ : ∃ st, run Call.run (openEmpty 0) flushedFirst = some st ∧
      (st.stats (lit "a")).isSome = true := by
    decide +kernel
  have hghost : ghost Call.run (hitsSince (lit "a")) 0 (openEmpty 0) flushedFirst = 1 := by
    decide +kernel
  have hok : Meets Call.run (fun st call ↦ call.Unawaited st) (openEmpty 0) flushedFirst := by
    decide +kernel
  obtain ⟨hhits, hreopen⟩ := hits_of_successor hrun (by decide) hok (lit "a")
  have hone := hhits hsome
  rw [hghost] at hone
  exact ⟨st, hrun, hghost, hone, fun ord ↦ (hreopen ord).trans hone⟩

/-- A link that is hit and removed; its successor is made before the next flush. -/
def flushedLate : List Call :=
  [.shorten (lit "u0") (some ⟨lit "a", codeOk_a⟩) 0 {}, .resolve (lit "a") {}, .remove (lit "a"),
    .shorten (lit "u1") (some ⟨lit "a", codeOk_a⟩) 0 {}]

theorem hits_inherited : ∃ st, run Call.run (openEmpty 0) flushedLate = some st ∧
    (st.stats (lit "a")).map Store.Link.hits = some 0 ∧
    ((st.reopen fun _ ↦ 0).stats (lit "a")).map Store.Link.hits = some 1 := by
  decide +kernel

end Shrt
