import Shrt.App.Kqueue

/-!
# Replies in order

A client may send requests without waiting for the replies, and nothing in a reply says which
request it is for: the client counts. So the replies must come in the order of the requests, one for
each request, whole and with nothing between them, although requests arrive in pieces, several at a
time, and the socket takes the replies in pieces of its own.

The bytes that the socket took are at any moment the first part of what the handler answered to the
calls that were made (`answers`), laid end to end, and of the refusals of a body above the limit
behind them, as often as the loop came back to it. Nothing is lost unless the peer is gone, the
handler throws, or a malformed request makes the frontend drop what waits in its output
(`replies_in_order`, `replies_in_order_connLoop`).
-/

namespace Shrt

open Incremental (drain)
open Transition (Meets)

variable {σ : Type}

/-! ## Answers -/

section Answers

variable (F : Frontend σ)

/-- One more request is answered, unless the handler throws. -/
def answer (q : σ × List Reply) (r : Request) : σ × List Reply := match F.handle q.1 r with
  | none => q
  | some (st, a) => (st, q.2 ++ [a])

/-- The state and the replies of a handler that is called for one request after another. -/
def answers (st : σ) (calls : List Request) : σ × List Reply := calls.foldl (answer F) (st, [])

/-- The bytes that a client is to be sent: those of the replies, and of refusals behind them. -/
def onWire (as : List Reply) (k : ℕ) : Bytes :=
  (as ++ List.replicate k tooLarge).flatMap (writeReply F.origin)

variable {F}

theorem answers_append (st : σ) (calls : List Request) (r : Request) :
    answers F st (calls ++ [r]) = answer F (answers F st calls) r := by
  rw [answers, List.foldl_append]
  rfl

theorem onWire_append (as : List Reply) (a : Reply) :
    onWire F (as ++ [a]) 0 = onWire F as 0 ++ writeReply F.origin a := by
  rw [onWire, onWire, List.replicate_zero, List.append_nil, List.append_nil,
    List.flatMap_append, List.flatMap_singleton]

theorem onWire_succ (as : List Reply) (k : ℕ) :
    onWire F as (k + 1) = onWire F as k ++ writeReply F.origin tooLarge := by
  rw [onWire, onWire, List.replicate_succ', ← List.append_assoc,
    List.flatMap_append, List.flatMap_singleton]

end Answers

/-! ## The output -/

section Output

variable (F : Frontend σ) (st₀ : σ)

/-- What was sent and what waits in the output are the replies to the calls. -/
structure Queued (sent : Bytes) (v : Served σ) (as : List Reply) (k : ℕ) : Prop where
  state : answers F st₀ v.calls = (v.st, as)
  queue : sent ++ v.out = onWire F as k

variable {F st₀}

theorem queued_init : Queued F st₀ [] { st := st₀ } [] 0 := ⟨rfl, rfl⟩

theorem Queued.sent_prefix {sent : Bytes} {v : Served σ} {as : List Reply} {k : ℕ}
    (h : Queued F st₀ sent v as k) : sent <+: onWire F as k := ⟨v.out, h.queue⟩

/-- A request that is handled has its reply behind the others. -/
theorem Queued.take {sent : Bytes} {v : Served σ} {as : List Reply}
    (h : Queued F st₀ sent v as 0) (b : Request × Bool) :
    ∃ as', Queued F st₀ sent (v.take F b).1 as' 0 := by
  rw [Served.take, Served.call]
  cases hr : F.handle v.st b.1 with
  | none =>
    refine ⟨as, ?_, h.queue⟩
    rw [answers_append, h.state, answer, hr]
  | some p =>
    refine ⟨as ++ [p.2], ?_, ?_⟩
    · rw [answers_append, h.state, answer, hr]
    · rw [onWire_append, ← h.queue, List.append_assoc]

/-- Handling a request ends the loop only for the last one of a connection, or when it throws. -/
theorem take_stop (v : Served σ) (b : Request × Bool) : (v.take F b).2 ≠ some .tooLarge := by
  rw [Served.take, Served.call]
  cases F.handle v.st b.1 with
  | none => exact fun h ↦ absurd (Option.some.inj h) (by decide)
  | some p =>
    change (if b.2 then none else some Stop.close) ≠ some .tooLarge
    cases b.2 <;> decide

/-- **What the loop over the requests adds.** Behind a refusal there is nothing more: the loop comes
back to the same body. -/
theorem Queued.requests {sent buf : Bytes} {v : Served σ} {as : List Reply} {k : ℕ}
    (h : Queued F st₀ sent v as k) (hstuck : k ≠ 0 → next F buf = .stop .tooLarge)
    (hB : buf.length < sizeBound) :
    (∃ as', Queued F st₀ sent (requests F buf (buf.length + 1) 0 v).1 as' k) ∧
    (k ≠ 0 → (Shrt.requests F buf (buf.length + 1) 0 v).2.2 = some .tooLarge) ∧
    ((Shrt.requests F buf (buf.length + 1) 0 v).2.2 = some .tooLarge →
      next F (buf.drop (Shrt.requests F buf (buf.length + 1) 0 v).2.1) = .stop .tooLarge) := by
  -- The loop over positions is the loop over what is left.
  obtain ⟨pos, hpos, heq⟩ := requests_eq F buf (buf.length + 1) 0 v
  rw [List.drop_zero, ← drain] at hpos heq
  rw [heq]
  simp only [hpos]
  by_cases hk : k = 0
  · subst hk
    refine ⟨?_, fun hne ↦ absurd rfl hne, fun hlarge ↦ ?_⟩
    · refine Incremental.drain_invariant (P := fun v ↦ ∃ as', Queued F st₀ sent v as' 0) ?_ buf
        ⟨as, h⟩
      rintro v b ⟨as', hv⟩
      exact hv.take b
    · have hends := @Incremental.drain_ends _ _ _ _ _ (Served.take F) _ (stable_next F) v _ hB
      rcases hends.2 with
        ⟨hnone, -⟩ | ⟨e, he, hnext⟩ | ⟨r, b, n, v', e, -, -, hact, -, he⟩
      · rw [hnone] at hlarge
        contradiction
      · rw [he] at hlarge
        rw [hnext, Option.some.inj hlarge]
      · rw [he] at hlarge
        exact absurd (hact.trans hlarge) (take_stop v' b)
  · rw [Incremental.drain_of_stop (hstuck hk)]
    exact ⟨⟨as, h⟩, fun _ ↦ rfl, fun _ ↦ hstuck hk⟩

end Output

/-! ## One connection of the evented frontend -/

namespace KqConn

variable (F : Frontend σ) (st₀ : σ)

/-- What the socket takes at an event. -/
def taken (c : KqConn σ) : Event → Bytes
  | .write false (some n) => if c.closed then [] else c.v.out.take n
  | _ => []

/-- An event, with all that the socket took so far. -/
def transmit (s : KqConn σ × Bytes) (e : Event) : KqConn σ × Bytes :=
  (s.1.event F e, s.2 ++ s.1.taken e)

/-- Event after event. -/
def transmits (s : KqConn σ × Bytes) (es : List Event) : KqConn σ × Bytes :=
  es.foldl (transmit F) s

/-- Why the loop over the requests ends at a read. -/
def stopOf (c : KqConn σ) (data : Bytes) : Option Stop :=
  (requests F (c.rbuf ++ data) ((c.rbuf ++ data).length + 1) 0 c.v).2.2

/-- The peer is gone, a request is malformed, or the handler throws. -/
def Breaks (c : KqConn σ) : Event → Prop
  | .read _ data _ => c.stopOf F data = some .malformed ∨ c.stopOf F data = some .thrown
  | .write eof taken => eof = true ∨ taken = none

instance decidableBreaks (c : KqConn σ) : ∀ e : Event, Decidable (Breaks F c e)
  | .read _ _ _ => inferInstanceAs (Decidable (_ ∨ _))
  | .write _ _ => inferInstanceAs (Decidable (_ ∨ _))

/-- What was sent and what waits are the replies, and behind a refusal the loop is stuck. -/
structure InOrder (c : KqConn σ) (sent : Bytes) (as : List Reply) (k : ℕ) : Prop where
  queued : Queued F st₀ sent c.v as k
  stuck : k ≠ 0 → next F c.rbuf = .stop .tooLarge

/-- What holds when an event is over. A connection that is open goes on in order, and one that is
closed has sent all there was, if `ok` says that nothing broke it. -/
structure Kept (ok : Prop) (s : KqConn σ × Bytes) (as : List Reply) (k : ℕ) : Prop where
  state : answers F st₀ s.1.v.calls = (s.1.v.st, as)
  sent : s.2 <+: onWire F as k
  going : s.1.closed = false → InOrder F st₀ s.1 s.2 as k
  all : ok → s.1.closed = true → s.2 = onWire F as k

variable {F st₀} {c : KqConn σ} {sent : Bytes} {as : List Reply} {k : ℕ} {ok : Prop}

theorem InOrder.kept (h : InOrder F st₀ c sent as k) (hall : c.closed = true → c.v.out = []) :
    Kept F st₀ ok (c, sent) as k := by
  refine ⟨h.queued.state, h.queued.sent_prefix, fun _ ↦ h, fun _ hclosed ↦ ?_⟩
  have hqueue : sent ++ c.v.out = onWire F as k := h.queued.queue
  rw [← hqueue, hall hclosed, List.append_nil]

/-- A connection that is closed with output left was broken. -/
theorem kept_of_closed (hstate : answers F st₀ c.v.calls = (c.v.st, as))
    (hsent : sent <+: onWire F as k) (hclosed : c.closed = true) (hok : ¬ ok) :
    Kept F st₀ ok (c, sent) as k :=
  ⟨hstate, hsent, fun hopen ↦ absurd (hopen.symm.trans hclosed) Bool.false_ne_true,
    fun h ↦ absurd h hok⟩

/-- Settling closes a connection only when all is sent. -/
theorem InOrder.settle (h : InOrder F st₀ c sent as k) (hopen : c.closed = false) :
    Kept F st₀ ok (c.settle, sent) as k := by
  obtain ⟨hv, hrbuf⟩ := core_settle c
  refine InOrder.kept ⟨hv ▸ h.queued, hrbuf ▸ h.stuck⟩ fun hclosed ↦ ?_
  rw [KqConn.settle] at hclosed ⊢
  split_ifs at hclosed ⊢ with hdone
  · rw [Bool.and_eq_true, List.isEmpty_iff] at hdone
    exact hdone.2
  · exact absurd (hopen.symm.trans hclosed) Bool.false_ne_true

/-- A connection that is broken is closed at the end of the event. -/
theorem kept_settle (hstate : answers F st₀ c.v.calls = (c.v.st, as))
    (hsent : sent <+: onWire F as k)
    (hend : c.closed = true ∨ c.closeAfter = true ∧ c.v.out = []) (hok : ¬ ok) :
    Kept F st₀ ok (c.settle, sent) as k := by
  refine kept_of_closed ?_ hsent ?_ hok
  · rw [(core_settle c).1]
    exact hstate
  · rw [KqConn.settle]
    split_ifs with hdone
    · rfl
    · refine hend.resolve_right fun hout ↦ hdone ?_
      rw [hout.1, hout.2]
      rfl

/-- **Receiving.** -/
theorem InOrder.receive (h : InOrder F st₀ c sent as k) (hopen : c.closed = false) (eof fin : Bool)
    (data : Bytes) (hB : (c.rbuf ++ data).length < sizeBound) :
    ∃ as' k', Kept F st₀ (¬ Breaks F c (.read eof data fin))
      ((c.receive F data fin).settle, sent) as' k' := by
  have hstuck : k ≠ 0 → next F (c.rbuf ++ data) = .stop .tooLarge := by
    intro hk
    have hne : next F c.rbuf ≠ .wait := by
      rw [h.stuck hk]
      rintro ⟨⟩
    rw [(stable_next F).append data hB hne, h.stuck hk]
  obtain ⟨⟨as', hqueued⟩, hloop, hrest⟩ := h.queued.requests hstuck hB
  rw [Breaks, stopOf, KqConn.receive, handleAll]
  generalize requests F (c.rbuf ++ data) ((c.rbuf ++ data).length + 1) 0 c.v = q
    at hqueued hloop hrest ⊢
  obtain ⟨v, parsed, o⟩ := q
  have hzero : o ≠ some .tooLarge → k = 0 := fun ho ↦ not_not.mp fun hk ↦ ho (hloop hk)
  -- The five ways in which the loop over the requests ends.
  cases o with
  | none =>
    obtain rfl := hzero (by decide)
    exact ⟨as', 0, InOrder.settle ⟨hqueued, fun hk ↦ absurd rfl hk⟩ hopen⟩
  | some e =>
    cases e with
    | close =>
      obtain rfl := hzero (by decide)
      exact ⟨as', 0, InOrder.settle ⟨hqueued, fun hk ↦ absurd rfl hk⟩ hopen⟩
    | tooLarge =>
      refine ⟨as', k + 1, InOrder.settle ⟨⟨hqueued.state, ?_⟩, fun _ ↦ hrest rfl⟩ hopen⟩
      rw [onWire_succ, ← hqueued.queue, List.append_assoc]
    | malformed => exact ⟨as', k, kept_settle hqueued.state hqueued.sent_prefix (.inr ⟨rfl, rfl⟩)
        (not_not.mpr (.inl rfl))⟩
    | thrown => exact ⟨as', k, kept_settle hqueued.state hqueued.sent_prefix (.inl rfl)
        (not_not.mpr (.inr rfl))⟩

/-- **One event.** -/
theorem InOrder.transmit (h : InOrder F st₀ c sent as k) (hopen : c.closed = false) {e : Event}
    (hB : (c.rbuf ++ e.data).length < sizeBound) :
    ∃ as' k', Kept F st₀ (¬ Breaks F c e) (transmit F (c, sent) e) as' k' := by
  rw [KqConn.transmit]
  cases e with
  | read eof data fin =>
    have hnone : sent ++ c.taken (.read eof data fin) = sent := List.append_nil sent
    rw [hnone, event_read hopen]
    split_ifs with hlost
    · rw [Bool.and_eq_true, List.isEmpty_iff] at hlost
      exact ⟨as, k, InOrder.kept ⟨h.queued, h.stuck⟩ fun _ ↦ hlost.2⟩
    · exact h.receive hopen eof fin data hB
  | write eof n =>
    have hopen' : ¬ c.closed = true := Bool.eq_false_iff.mp hopen
    have hbroken : Breaks F c (.write eof n) → ∃ as' k', Kept F st₀ (¬ Breaks F c (.write eof n))
        ({ c with closed := true }, sent ++ []) as' k' := by
      intro hb
      rw [List.append_nil]
      exact ⟨as, k, kept_of_closed h.queued.state h.queued.sent_prefix rfl (not_not.mpr hb)⟩
    rw [event.eq_def, if_neg hopen']
    cases eof with
    | true => exact hbroken (.inl rfl)
    | false =>
      simp only [Bool.false_eq_true, if_false]
      split_ifs with hout
      · have hnone : sent ++ c.taken (.write false n) = sent := by
          cases n with
          | none => exact List.append_nil sent
          | some m => rw [taken, if_neg hopen', List.isEmpty_iff.mp hout, List.take_nil,
            List.append_nil]
        rw [hnone]
        exact ⟨as, k, h.settle hopen⟩
      · cases n with
        | none => exact hbroken (.inr rfl)
        | some m =>
          refine ⟨as, k, InOrder.settle ⟨⟨h.queued.state, ?_⟩, h.stuck⟩ hopen⟩
          rw [taken, if_neg hopen', List.append_assoc, List.take_append_drop]
          exact h.queued.queue

/-! ## All events -/

/-- Conditions along a run concern the next event and the rest of them. -/
theorem meets_step_cons {ok : KqConn σ → Event → Prop} {e : Event} {es : List Event} :
    Meets (step F) ok c (e :: es) ↔ ok c e ∧ Meets (step F) ok (c.event F e) es :=
  and_congr_right fun _ ↦ ⟨fun h ↦ h _ rfl, fun h _ heq ↦ Option.some.inj heq ▸ h⟩

theorem transmits_closed {s : KqConn σ × Bytes} (h : s.1.closed = true) (es : List Event) :
    transmits F s es = s := by
  induction es with
  | nil => rfl
  | cons e es ih =>
    have htaken : s.1.taken e = [] := by
      rw [taken.eq_def]
      split
      · rw [if_pos h]
      · rfl
    have hfirst : KqConn.transmit F s e = s := by
      rw [KqConn.transmit, event_closed h, htaken, List.append_nil]
    rw [transmits, List.foldl_cons, hfirst]
    exact ih

/-- All is kept along the events that break nothing. -/
theorem Kept.transmits {es : List Event} : ∀ {ok : Prop} {s : KqConn σ × Bytes} {as : List Reply}
    {k : ℕ}, Kept F st₀ ok s as k → (s.1.rbuf ++ streamOf es).length < sizeBound →
    ∃ as' k', Kept F st₀ (ok ∧ Meets (step F) (fun c e ↦ ¬ Breaks F c e) s.1 es)
      (transmits F s es) as' k' := by
  induction es with
  | nil => exact fun h _ ↦ ⟨_, _, h.state, h.sent, h.going, fun hok ↦ h.all hok.1⟩
  | cons e es ih =>
    intro ok s as k h hB
    obtain ⟨hrest, hnow⟩ := fits_event (F := F) hB
    by_cases hclosed : s.1.closed = true
    · rw [transmits_closed hclosed]
      exact ⟨as, k, h.state, h.sent, h.going, fun hok ↦ h.all hok.1⟩
    · have hopen : s.1.closed = false := Bool.eq_false_iff.mpr hclosed
      obtain ⟨as₁, k₁, hfirst⟩ := (h.going hopen).transmit hopen hnow
      obtain ⟨as', k', hlast⟩ := ih hfirst hrest
      refine ⟨as', k', hlast.state, hlast.sent, hlast.going, fun hok ↦ hlast.all ?_⟩
      exact meets_step_cons.mp hok.2

end KqConn

/-- **Replies come in order.** Take any events of a connection of the evented frontend, in which the
stream arrives and the socket takes output in any pieces. The bytes that the socket took are the
first part of the handler's replies to the calls that were made, end to end in the order of the
calls, and then of refusals of a body above the limit. If no event breaks the connection, and the
connection was closed or nothing waits in its output, they are all of it. -/
theorem replies_in_order (F : Frontend σ) (st₀ : σ) {es : List Event} {c : KqConn σ} {sent : Bytes}
    (hfits : (streamOf es).length < sizeBound)
    (hrun : KqConn.transmits F ({ v := { st := st₀ } }, []) es = (c, sent)) :
    ∃ k, sent <+: onWire F (answers F st₀ c.v.calls).2 k ∧
      (Meets (KqConn.step F) (fun c e ↦ ¬ KqConn.Breaks F c e) { v := { st := st₀ } } es →
        c.closed = true ∨ c.v.out = [] → sent = onWire F (answers F st₀ c.v.calls).2 k) := by
  have hinit : KqConn.Kept F st₀ True ({ v := { st := st₀ } }, []) [] 0 :=
    KqConn.InOrder.kept ⟨queued_init, fun hk ↦ absurd rfl hk⟩ fun _ ↦ rfl
  obtain ⟨as, k, hkept⟩ := hinit.transmits hfits
  rw [hrun] at hkept
  rw [hkept.state]
  refine ⟨k, hkept.sent, fun hmeets hdone ↦ ?_⟩
  by_cases hclosed : c.closed = true
  · exact hkept.all ⟨trivial, hmeets⟩ hclosed
  · have hqueue : sent ++ c.v.out = onWire F as k :=
      (hkept.going (Bool.eq_false_iff.mpr hclosed)).queued.queue
    rw [← hqueue, hdone.resolve_left hclosed, List.append_nil]

/-- Two requests at once, of which the second is the last one of the connection, and a socket that
takes a few bytes at a time. -/
def slowSocket : List Event :=
  [.read false (KqConn.getLine "/a" "keep-alive" ++ KqConn.getLine "/api/health" "close") false,
    .write false (some 100), .write false (some 1), .write false (some 1000)]

theorem replies_in_order_slowSocket : ∃ c sent,
    KqConn.transmits plainFrontend ({ v := { st := openMemory } }, []) slowSocket = (c, sent) ∧
    (answers plainFrontend openMemory c.v.calls).2.map Reply.status = [404, 200] ∧
    ∃ k, sent = onWire plainFrontend (answers plainFrontend openMemory c.v.calls).2 k := by
  have hfits : (streamOf slowSocket).length < sizeBound := by decide +kernel
  have hmeets : Meets (KqConn.step plainFrontend) (fun c e ↦ ¬ KqConn.Breaks plainFrontend c e)
      { v := { st := openMemory } } slowSocket := by
    decide +kernel
  obtain ⟨⟨c, sent⟩, hrun⟩ : ∃ q, KqConn.transmits plainFrontend ({ v := { st := openMemory } }, [])
      slowSocket = q := ⟨_, rfl⟩
  obtain ⟨hstatus, hclosed⟩ :
      (answers plainFrontend openMemory c.v.calls).2.map Reply.status = [404, 200] ∧
        c.closed = true := by
    obtain rfl := congrArg Prod.fst hrun
    decide +kernel
  obtain ⟨k, -, hall⟩ := replies_in_order plainFrontend openMemory hfits hrun
  exact ⟨c, sent, hrun, hstatus, k, hall hmeets (.inl hclosed)⟩

/-! ## The threaded frontend -/

section Threaded

variable {F : Frontend σ} {st₀ : σ}

/-- What is left of the order by the loop in a thread. -/
structure Told (F : Frontend σ) (st₀ : σ) (c : Conn σ) (stop : Option Stop) (as : List Reply)
    (k : ℕ) : Prop where
  state : answers F st₀ c.v.calls = (c.v.st, as)
  once : k ≤ 1
  sent : c.sent <+: onWire F as k
  all : stop ≠ some .malformed → stop ≠ some .thrown → c.sent = onWire F as k

theorem Told.whole {c : Conn σ} {stop : Option Stop} {as : List Reply} {k : ℕ}
    (hstate : answers F st₀ c.v.calls = (c.v.st, as)) (hk : k ≤ 1)
    (hsent : c.sent = onWire F as k) : Told F st₀ c stop as k :=
  ⟨hstate, hk, hsent ▸ List.prefix_refl _, fun _ _ ↦ hsent⟩

/-- What one round leaves of the order, and what the next one starts with. -/
theorem told_round {c : Conn σ} {as : List Reply} (hqueued : Queued F st₀ c.sent c.v as 0)
    (hB : c.buf.length < sizeBound) :
    (∃ as' k, Told F st₀ (c.round F).1 (drain (next F) (callOn F) c.v.core c.buf).2.2 as' k) ∧
    ((c.round F).2 = true → (c.round F).1.v.out = [] ∧
      ∃ as', Queued F st₀ (c.round F).1.sent (c.round F).1.v as' 0) := by
  obtain ⟨⟨as', hqueued⟩, -, -⟩ := hqueued.requests (fun hk ↦ absurd rfl hk) hB
  rw [← (requests_spec F hB c.v).2.2, Conn.round]
  generalize requests F c.buf (c.buf.length + 1) 0 c.v = q at hqueued ⊢
  obtain ⟨v, parsed, o⟩ := q
  have hqueue : c.sent ++ v.out = onWire F as' 0 := hqueued.queue
  have hprefix : c.sent <+: onWire F as' 0 := ⟨v.out, hqueue⟩
  cases o with
  | none =>
    exact ⟨⟨as', 0, .whole hqueued.state zero_le_one hqueue⟩,
      fun _ ↦ ⟨rfl, as', hqueued.state, (List.append_nil _).trans hqueue⟩⟩
  | some e =>
    refine ⟨?_, fun hgoes ↦ ?_⟩
    · cases e with
      | close => exact ⟨as', 0, .whole hqueued.state zero_le_one hqueue⟩
      | tooLarge =>
        have hlarge : c.sent ++ v.out ++ writeReply F.origin tooLarge = onWire F as' 1 := by
          rw [onWire_succ, ← hqueue]
        exact ⟨as', 1, .whole hqueued.state le_rfl hlarge⟩
      | malformed => exact ⟨as', 0, hqueued.state, zero_le_one, hprefix, fun hne ↦ absurd rfl hne⟩
      | thrown => exact ⟨as', 0, hqueued.state, zero_le_one, hprefix, fun _ hne ↦ absurd rfl hne⟩
    · cases e <;> contradiction

/-- The loop ends for the reason for which the stream ends. -/
theorem told_connLoop {pieces : List Bytes} : ∀ {c : Conn σ} {as : List Reply},
    Queued F st₀ c.sent c.v as 0 → c.v.out = [] → next F c.buf = .wait →
    (c.buf ++ pieces.flatten).length < sizeBound →
    ∃ as' k, Told F st₀ (connLoop F pieces c)
      (drain (next F) (callOn F) c.v.core (c.buf ++ pieces.flatten)).2.2 as' k := by
  induction pieces with
  | nil =>
    intro c as hqueued hout _ hB
    rw [List.flatten_nil, List.append_nil] at hB ⊢
    rw [connLoop]
    split_ifs with hbuf
    · have hqueue : c.sent ++ c.v.out = onWire F as 0 := hqueued.queue
      have hsent : c.sent = onWire F as 0 := by
        rw [← hqueue, hout, List.append_nil]
      exact ⟨as, 0, .whole hqueued.state zero_le_one hsent⟩
    · exact (told_round hqueued hB).1
  | cons piece pieces ih =>
    intro c as hqueued hout hwait hB
    rw [List.flatten_cons, ← List.append_assoc] at hB ⊢
    have hpiece : (c.buf ++ piece).length < sizeBound := by
      rw [List.length_append] at hB
      omega
    obtain ⟨htold, hmore⟩ := told_round (c := { c with buf := c.buf ++ piece }) hqueued hpiece
    obtain ⟨hcore, hgoes, hbuf⟩ := round_spec F (c := { c with buf := c.buf ++ piece }) hpiece
    have hsuffix : (drain (next F) (callOn F) c.v.core (c.buf ++ piece)).2.1 <:+ c.buf ++ piece :=
      Incremental.suffix_drain (stable_next F) hpiece
    have hidle : (drain (next F) (callOn F) c.v.core (c.buf ++ piece)).2.2 = none →
        next F (drain (next F) (callOn F) c.v.core (c.buf ++ piece)).2.1 = .wait :=
      Incremental.next_of_drain (stable_next F) hpiece
    rw [Incremental.drain_append (stable_next F) hB, connLoop]
    generalize Conn.round F { c with buf := c.buf ++ piece } = q at htold hmore hcore hgoes hbuf ⊢
    simp only at htold hcore hgoes hbuf
    generalize drain (next F) (callOn F) c.v.core (c.buf ++ piece) = d
      at htold hcore hgoes hbuf hsuffix hidle ⊢
    obtain ⟨c', go⟩ := q
    obtain ⟨q', r, o⟩ := d
    cases o with
    | none =>
      obtain rfl : go = true := hgoes.mpr rfl
      obtain rfl : c'.buf = r := hbuf rfl
      obtain rfl : c'.v.core = q' := hcore
      obtain ⟨hout', as', hqueued'⟩ := hmore rfl
      refine ih hqueued' hout' (hidle rfl) ?_
      have hle := hsuffix.length_le
      rw [List.length_append] at hB ⊢
      simp only at hle
      omega
    | some e =>
      obtain rfl : go = false := by
        rw [← Bool.not_eq_true, hgoes]
        rintro ⟨⟩
      exact htold

/-- **Replies come in order, in a thread.** Take any pieces in which a stream arrives at the
threaded frontend. The bytes that were sent are the first part of the handler's replies to the calls
that were made, end to end, and then of the refusal of a body above the limit. They are all of it,
unless the stream ends in a malformed request, or the handler throws. -/
theorem replies_in_order_connLoop (F : Frontend σ) (st₀ : σ) {pieces : List Bytes} {c : Conn σ}
    (hfits : pieces.flatten.length < sizeBound)
    (hrun : connLoop F pieces { v := { st := st₀ } } = c) :
    ∃ k ≤ 1, c.sent <+: onWire F (answers F st₀ c.v.calls).2 k ∧
      ((drain (next F) (callOn F) (st₀, []) pieces.flatten).2.2 ≠ some .malformed →
        (drain (next F) (callOn F) (st₀, []) pieces.flatten).2.2 ≠ some .thrown →
        c.sent = onWire F (answers F st₀ c.v.calls).2 k) := by
  obtain ⟨as, k, htold⟩ := told_connLoop (c := { v := { st := st₀ } }) queued_init rfl
    (next_nil F) hfits
  rw [hrun] at htold
  rw [htold.state]
  exact ⟨k, htold.once, htold.sent, htold.all⟩

theorem replies_in_order_connLoop_twoRequests : ∃ c,
    connLoop plainFrontend twoRequests { v := { st := openMemory } } = c ∧
    (answers plainFrontend openMemory c.v.calls).2.map Reply.status = [404, 400] ∧
    ∃ k ≤ 1, c.sent = onWire plainFrontend (answers plainFrontend openMemory c.v.calls).2 k := by
  have hfits : twoRequests.flatten.length < sizeBound := by decide +kernel
  obtain ⟨hmalformed, hthrown, hstatus⟩ :
      (drain (next plainFrontend) (callOn plainFrontend) (openMemory, []) twoRequests.flatten).2.2
        ≠ some .malformed ∧
      (drain (next plainFrontend) (callOn plainFrontend) (openMemory, []) twoRequests.flatten).2.2
        ≠ some .thrown ∧
      (answers plainFrontend openMemory (connLoop plainFrontend twoRequests
        { v := { st := openMemory } }).v.calls).2.map Reply.status = [404, 400] := by
    decide +kernel
  obtain ⟨k, hk, -, hall⟩ := replies_in_order_connLoop plainFrontend openMemory hfits rfl
  exact ⟨_, rfl, hstatus, k, hk, hall hmalformed hthrown⟩

end Threaded

end Shrt
