import Shrt.App.Conn
import Shrt.Lib.Transition

/-!
# One thread, many connections

The evented frontend keeps a record per connection and is called for each readiness event. Its loop
over the complete requests is that of the threaded one, and it differs in two things. A connection
that is to be closed is closed only when its output has been taken, and is read from and served
until then. And an event that announces the end of the stream closes a connection with no output at
once, without reading what the event also announces.

So requests behind the last one of a connection may be handled, and requests in front of the end of
the stream may be lost (`calls_differ`). These are the only differences: the frontends handle the
same requests exactly when neither happens (`calls_eq_iff_careful`).
-/

namespace Shrt

open Incremental (drain)
open Transition (Meets)

/-! ## The loop -/

/-- `KqConn`. The output waits in `v`, and `parsed` is zero between events. -/
structure KqConn (σ : Type) where
  v : Served σ
  rbuf : Bytes := []
  closeAfter : Bool := false
  wantWrite : Bool := false
  /-- The connection is closed and forgotten. -/
  closed : Bool := false

/-- A readiness event of one connection. -/
inductive Event where
  /-- Bytes to read. `eof` is what the event says of the end of the stream, and `fin` is whether `recv`
  reaches it behind the bytes. -/
  | read (eof : Bool) (data : Bytes) (fin : Bool)
  /-- Room to write; `send` takes some bytes, none when it would block, or fails. -/
  | write (eof : Bool) (taken : Option ℕ)

/-- The bytes of the stream that an event is about. -/
def Event.data : Event → Bytes
  | read _ data _ => data
  | write _ _ => []

namespace KqConn

variable {σ : Type} (F : Frontend σ)

/-- Handle the complete requests. -/
def handleAll (c : KqConn σ) : KqConn σ :=
  match requests F c.rbuf (c.rbuf.length + 1) 0 c.v with
  | (v, parsed, none) => { c with v, rbuf := c.rbuf.drop parsed }
  | (v, parsed, some .close) => { c with v, rbuf := c.rbuf.drop parsed, closeAfter := true }
  | (v, parsed, some .tooLarge) =>
    { c with
      v := { v with out := v.out ++ writeReply F.origin tooLarge }
      rbuf := c.rbuf.drop parsed
      closeAfter := true }
  | (v, parsed, some .malformed) =>
    { c with v := { v with out := [] }, rbuf := c.rbuf.drop parsed, closeAfter := true }
  | (v, _, some .thrown) => { c with v, closed := true }

/-- Receive all there is and handle it. -/
def receive (c : KqConn σ) (data : Bytes) (fin : Bool) : KqConn σ :=
  let c := { c with rbuf := c.rbuf ++ data, closeAfter := c.closeAfter || fin }.handleAll F
  { c with wantWrite := c.wantWrite || !c.v.out.isEmpty }

/-- The end of an event: close what is to be closed and has no output left. -/
def settle (c : KqConn σ) : KqConn σ :=
  if c.closeAfter && c.v.out.isEmpty then { c with closed := true } else c

/-- `serve_kq`, for one event of one connection. -/
def event (c : KqConn σ) (e : Event) : KqConn σ :=
  if c.closed then c
  else match e with
    | .read eof data fin =>
      if eof && c.v.out.isEmpty then { c with closed := true }
      else (c.receive F data fin).settle
    | .write eof taken =>
      if eof then { c with closed := true }
      else if c.v.out.isEmpty then c.settle
      else match taken with
        | none => { c with closed := true }
        | some n =>
          let out := c.v.out.drop n
          { c with v := { c.v with out }, wantWrite := c.wantWrite && !out.isEmpty }.settle

/-- Event after event. -/
def events (c : KqConn σ) (es : List Event) : KqConn σ := es.foldl (event F) c

/-- The same, as a step. -/
def step (c : KqConn σ) (e : Event) : Option (KqConn σ) := some (c.event F e)

/-! ## What an event does -/

/-- A request is complete at the front of a buffer. -/
def complete (s : Bytes) : Bool := match next F s with
  | .item _ _ => true
  | _ => false

/-- No request is complete when the connection is read from after it was to be closed, or is closed
without being read from. -/
def Careful (c : KqConn σ) : Event → Prop
  | .read eof data _ => c.closed = false → c.closeAfter = true ∨ (eof && c.v.out.isEmpty) = true →
      complete F (c.rbuf ++ data) = false
  | .write _ _ => True

instance decidableCareful (c : KqConn σ) : ∀ e : Event, Decidable (Careful F c e)
  | .read eof data _ => inferInstanceAs (Decidable (c.closed = false →
      c.closeAfter = true ∨ (eof && c.v.out.isEmpty) = true → complete F (c.rbuf ++ data) = false))
  | .write _ _ => isTrue trivial

/-- The connection is served. -/
structure Serving (c : KqConn σ) : Prop where
  closed : c.closed = false
  closeAfter : c.closeAfter = false
  wait : next F c.rbuf = .wait

/-- The connection is closed, or is to be closed and has output left. -/
def Shut (c : KqConn σ) : Prop := c.closed = true ∨ c.closeAfter = true ∧ c.v.out ≠ []

variable {F}

theorem settle_of_open {c : KqConn σ} (h : c.closeAfter = false) : c.settle = c := by
  rw [settle, if_neg]
  rw [h]
  exact nofun

theorem core_settle (c : KqConn σ) : c.settle.v = c.v ∧ c.settle.rbuf = c.rbuf := by
  rw [settle]
  split_ifs <;> exact ⟨rfl, rfl⟩

/-- A connection that is to be closed is shut when the event ends. -/
theorem shut_settle {c : KqConn σ} (h : c.closeAfter = true ∨ c.closed = true) : c.settle.Shut := by
  rw [settle]
  split_ifs with hdone
  · exact .inl rfl
  · rcases h with h | h
    · refine .inr ⟨h, fun hout ↦ hdone ?_⟩
      rw [h, hout]
      rfl
    · exact .inl h

/-- What receiving leaves of a connection. -/
theorem receive_spec {c : KqConn σ} {data : Bytes} (fin : Bool)
    (hB : (c.rbuf ++ data).length < sizeBound) :
    (c.receive F data fin).v.core = (drain (next F) (callOn F) c.v.core (c.rbuf ++ data)).1 ∧
    ((drain (next F) (callOn F) c.v.core (c.rbuf ++ data)).2.2 = none →
      (c.receive F data fin).rbuf = (drain (next F) (callOn F) c.v.core (c.rbuf ++ data)).2.1 ∧
      (c.receive F data fin).closeAfter = (c.closeAfter || fin) ∧
      (c.receive F data fin).closed = c.closed) ∧
    ((drain (next F) (callOn F) c.v.core (c.rbuf ++ data)).2.2 ≠ none →
      (c.receive F data fin).closeAfter = true ∨ (c.receive F data fin).closed = true) ∧
    ((c.closeAfter || fin) = true → (c.receive F data fin).closeAfter = true) := by
  obtain ⟨hcore, hrest, hstop⟩ := requests_spec F hB c.v
  rw [← hcore, ← hrest, ← hstop, receive, handleAll]
  generalize requests F (c.rbuf ++ data) ((c.rbuf ++ data).length + 1) 0 c.v = q
  obtain ⟨v, parsed, o⟩ := q
  cases o with
  | none => exact ⟨rfl, fun _ ↦ ⟨rfl, rfl, rfl⟩, fun h ↦ absurd rfl h, id⟩
  | some e =>
    cases e with
    | thrown => exact ⟨rfl, nofun, fun _ ↦ .inr rfl, id⟩
    | _ => exact ⟨rfl, nofun, fun _ ↦ .inl rfl, fun _ ↦ rfl⟩

theorem event_closed {c : KqConn σ} (h : c.closed = true) (e : Event) : c.event F e = c := by
  rw [event.eq_def, if_pos h]

theorem event_read {c : KqConn σ} (h : c.closed = false) (eof fin : Bool) (data : Bytes) :
    c.event F (.read eof data fin) = if eof && c.v.out.isEmpty then { c with closed := true }
      else (c.receive F data fin).settle := by
  rw [event.eq_def, if_neg (by rw [h]; exact nofun)]

/-- Writing changes the output only. -/
theorem event_write (c : KqConn σ) (eof : Bool) (taken : Option ℕ) :
    (c.event F (.write eof taken)).v.core = c.v.core ∧
    (c.event F (.write eof taken)).rbuf = c.rbuf ∧
    (c.Shut → (c.event F (.write eof taken)).Shut) := by
  rw [event.eq_def]
  simp only
  split_ifs with hclosed heof hout
  · exact ⟨rfl, rfl, id⟩
  · exact ⟨rfl, rfl, fun _ ↦ .inl rfl⟩
  · refine ⟨congrArg Served.core (core_settle c).1, (core_settle c).2, fun h ↦ shut_settle ?_⟩
    exact h.elim .inr fun h ↦ .inl h.1
  · cases taken with
    | none => exact ⟨rfl, rfl, fun _ ↦ .inl rfl⟩
    | some n =>
      have hsettle := core_settle { c with
        v := { c.v with out := c.v.out.drop n }
        wantWrite := c.wantWrite && !(c.v.out.drop n).isEmpty }
      refine ⟨(congrArg Served.core hsettle.1).trans rfl, hsettle.2, fun h ↦ shut_settle ?_⟩
      exact h.elim .inr fun h ↦ .inl h.1

/-! ## Requests are only added -/

theorem prefix_callOn (F : Frontend σ) (q : σ × List Request) (b : Request × Bool) :
    ∃ r, (callOn F q b).1.2 = q.2 ++ [r] := by
  rw [callOn]
  split <;> exact ⟨b.1, rfl⟩

theorem prefix_drain {s : Bytes} (hB : s.length < sizeBound) (q : σ × List Request) :
    q.2 <+: (drain (next F) (callOn F) q s).1.2 := by
  refine Incremental.drain_induction (callOn F) (stable_next F)
    (P := fun q s ↦ q.2 <+: (drain (next F) (callOn F) q s).1.2) ?_ hB
  intro q s hB ih
  rcases Incremental.round_cases (callOn F) (next F) q s with
    hnext | ⟨e, hnext⟩ | ⟨b, n, q', hnext, hact⟩ | ⟨b, n, q', e, hnext, hact⟩
  · rw [Incremental.drain_of_wait hnext]
  · rw [Incremental.drain_of_stop hnext]
  · obtain ⟨r, hr⟩ := prefix_callOn F q b
    rw [hact] at hr
    rw [Incremental.drain_of_item (stable_next F) hB hnext hact]
    exact List.IsPrefix.trans ⟨[r], hr.symm⟩ (ih b n q' hnext hact)
  · obtain ⟨r, hr⟩ := prefix_callOn F q b
    rw [hact] at hr
    rw [Incremental.drain_of_last hnext hact]
    exact ⟨[r], hr.symm⟩

/-- The loop handles nothing exactly when nothing is complete. -/
theorem drain_calls_iff {s : Bytes} (hB : s.length < sizeBound) (q : σ × List Request) :
    (drain (next F) (callOn F) q s).1.2.length = q.2.length ↔ complete F s = false := by
  rw [complete]
  rcases Incremental.round_cases (callOn F) (next F) q s with
    hnext | ⟨e, hnext⟩ | ⟨b, n, q', hnext, hact⟩ | ⟨b, n, q', e, hnext, hact⟩
  · rw [Incremental.drain_of_wait hnext, hnext]
    exact iff_of_true rfl rfl
  · rw [Incremental.drain_of_stop hnext, hnext]
    exact iff_of_true rfl rfl
  all_goals
    obtain ⟨r, hr⟩ := prefix_callOn F q b
    rw [hact] at hr
    have hlen : q'.2.length = q.2.length + 1 := by
      rw [hr, List.length_append, List.length_singleton]
  · have hlt := (stable_next F).length_drop_lt hB hnext
    have hmore := (prefix_drain (F := F) (hlt.trans hB) q').length_le
    rw [Incremental.drain_of_item (stable_next F) hB hnext hact, hnext]
    exact iff_of_false (by omega) nofun
  · rw [Incremental.drain_of_last hnext hact, hnext]
    exact iff_of_false (by rw [hlen]; omega) nofun

theorem prefix_event {c : KqConn σ} {e : Event} (hB : (c.rbuf ++ e.data).length < sizeBound) :
    c.v.calls <+: (c.event F e).v.calls := by
  cases e with
  | write eof taken =>
    have hcore := congrArg Prod.snd (event_write (F := F) c eof taken).1
    rw [show (c.event F (.write eof taken)).v.calls = c.v.calls from hcore]
  | read eof data fin =>
    by_cases hclosed : c.closed = true
    · rw [event_closed hclosed]
    · rw [event_read (Bool.eq_false_iff.mpr hclosed)]
      split_ifs
      · exact List.prefix_refl _
      · have hcore := congrArg Prod.snd (receive_spec (F := F) fin hB).1
        have hcalls : (c.receive F data fin).settle.v.calls
            = (drain (next F) (callOn F) c.v.core (c.rbuf ++ data)).1.2 := by
          rw [(core_settle _).1]
          exact hcore
        rw [hcalls]
        exact prefix_drain hB c.v.core

theorem length_rbuf_receive (c : KqConn σ) (data : Bytes) (fin : Bool) :
    (c.receive F data fin).rbuf.length ≤ (c.rbuf ++ data).length := by
  rw [receive, handleAll]
  generalize requests F (c.rbuf ++ data) ((c.rbuf ++ data).length + 1) 0 c.v = q
  obtain ⟨v, parsed, o⟩ := q
  have hdrop : ((c.rbuf ++ data).drop parsed).length ≤ (c.rbuf ++ data).length := by
    rw [List.length_drop]
    omega
  cases o with
  | none => exact hdrop
  | some e =>
    cases e with
    | thrown => exact le_rfl
    | _ => exact hdrop

/-- What is kept of the input was received. -/
theorem length_rbuf_event (c : KqConn σ) (e : Event) :
    (c.event F e).rbuf.length ≤ (c.rbuf ++ e.data).length := by
  have hle : c.rbuf.length ≤ (c.rbuf ++ e.data).length := by
    rw [List.length_append]
    omega
  by_cases hclosed : c.closed = true
  · rw [event_closed hclosed]
    exact hle
  · cases e with
    | write eof taken => rw [(event_write c eof taken).2.1]; exact hle
    | read eof data fin =>
      rw [event_read (Bool.eq_false_iff.mpr hclosed)]
      split_ifs
      · exact hle
      · rw [(core_settle _).2]
        exact length_rbuf_receive c data fin

end KqConn

/-! ## The two frontends -/

/-- The bytes of the stream. -/
def streamOf (es : List Event) : Bytes := es.flatMap Event.data

/-- An event behind which nothing more comes. -/
def Event.isLast : Event → Bool
  | read eof _ fin => eof || fin
  | write _ _ => false

/-- An event that finds the peer reading. -/
def Event.isOrdinary : Event → Bool
  | read _ _ _ => true
  | write eof taken => !eof && taken.isSome

/-- The events of a connection: the peer takes what it is sent, and no bytes follow the end of the
stream. -/
structure Schedule (es : List Event) : Prop where
  ordinary : ∀ e ∈ es, e.isOrdinary = true
  last : es.Pairwise fun e e' ↦ e.isLast = true → e'.data = []

theorem streamOf_cons (e : Event) (es : List Event) : streamOf (e :: es) = e.data ++ streamOf es :=
  List.flatMap_cons

theorem streamOf_of_last {e : Event} {es : List Event} (h : Schedule (e :: es))
    (hlast : e.isLast = true) : streamOf es = [] := by
  rw [streamOf, List.flatMap_eq_nil_iff]
  exact fun e' he' ↦ List.rel_of_pairwise_cons h.last he' hlast

theorem Schedule.tail {e : Event} {es : List Event} (h : Schedule (e :: es)) : Schedule es :=
  ⟨fun e' he' ↦ h.ordinary e' (List.mem_cons_of_mem _ he'), h.last.of_cons⟩

namespace KqConn

variable {σ : Type} {F : Frontend σ}

/-- After an event there is room for the rest of the stream. -/
theorem fits_event {c : KqConn σ} {e : Event} {es : List Event}
    (hB : (c.rbuf ++ streamOf (e :: es)).length < sizeBound) :
    ((c.event F e).rbuf ++ streamOf es).length < sizeBound ∧
      (c.rbuf ++ e.data).length < sizeBound := by
  have hle := length_rbuf_event (F := F) c e
  rw [streamOf_cons] at hB
  simp only [List.length_append] at hB hle ⊢
  omega

theorem meets_cons_iff {c : KqConn σ} {e : Event} {es : List Event} :
    Meets (step F) (Careful F) c (e :: es) ↔
      Careful F c e ∧ Meets (step F) (Careful F) (c.event F e) es :=
  and_congr_right fun _ ↦ ⟨fun h ↦ h _ rfl, fun h _ heq ↦ Option.some.inj heq ▸ h⟩

theorem prefix_events {es : List Event} : ∀ {c : KqConn σ},
    (c.rbuf ++ streamOf es).length < sizeBound → c.v.calls <+: (c.events F es).v.calls := by
  induction es with
  | nil => exact fun _ ↦ List.prefix_refl _
  | cons e es ih =>
    intro c hB
    obtain ⟨hrest, hnow⟩ := fits_event (F := F) hB
    exact (prefix_event hnow).trans (ih hrest)

/-- An event of a connection that is shut adds a call exactly when it is not careful. -/
theorem Shut.event {c : KqConn σ} {e : Event} (h : c.Shut)
    (hB : (c.rbuf ++ e.data).length < sizeBound) : (c.event F e).Shut ∧
      ((c.event F e).v.calls.length = c.v.calls.length ↔ Careful F c e) := by
  cases e with
  | write eof taken =>
    obtain ⟨hcore, -, hshut⟩ := event_write (F := F) c eof taken
    have hcalls : (c.event F (.write eof taken)).v.calls = c.v.calls := congrArg Prod.snd hcore
    exact ⟨hshut h, iff_of_true (congrArg List.length hcalls) trivial⟩
  | read eof data fin =>
    rcases h with hclosed | ⟨hclose, hout⟩
    · rw [event_closed hclosed]
      exact ⟨.inl hclosed, iff_of_true rfl fun hopen ↦ nomatch hclosed.symm.trans hopen⟩
    by_cases hclosed : c.closed = true
    · rw [event_closed hclosed]
      exact ⟨.inl hclosed, iff_of_true rfl fun hopen ↦ nomatch hclosed.symm.trans hopen⟩
    rw [Bool.not_eq_true] at hclosed
    have hread : ¬ (eof && c.v.out.isEmpty) = true := by
      rw [Bool.and_eq_true, List.isEmpty_iff]
      exact fun hboth ↦ hout hboth.2
    rw [event_read hclosed, if_neg hread]
    obtain ⟨hcore, -, -, hkeeps⟩ := receive_spec (F := F) fin hB
    have hcalls : (c.receive F data fin).settle.v.calls
        = (drain (next F) (callOn F) c.v.core (c.rbuf ++ data)).1.2 := by
      rw [(core_settle _).1]
      exact congrArg Prod.snd hcore
    refine ⟨shut_settle (.inl (hkeeps (by rw [hclose]; rfl))), ?_⟩
    rw [hcalls]
    refine (drain_calls_iff hB c.v.core).trans ?_
    exact ⟨fun hno _ _ ↦ hno, fun hcareful ↦ hcareful hclosed (.inl hclose)⟩

/-- A connection that is shut has no more calls exactly when all events are careful. -/
theorem Shut.events_iff {es : List Event} : ∀ {c : KqConn σ}, c.Shut →
    (c.rbuf ++ streamOf es).length < sizeBound →
    ((c.events F es).v.calls = c.v.calls ↔ Meets (step F) (Careful F) c es) := by
  induction es with
  | nil => exact fun _ _ ↦ iff_of_true rfl trivial
  | cons e es ih =>
    intro c h hB
    obtain ⟨hrest, hnow⟩ := fits_event (F := F) hB
    obtain ⟨hshut, hiff⟩ := h.event (F := F) hnow
    have hfirst : c.v.calls <+: (c.event F e).v.calls := prefix_event hnow
    have hlater : (c.event F e).v.calls <+: ((c.event F e).events F es).v.calls := prefix_events hrest
    rw [meets_cons_iff, ← hiff, ← ih hshut hrest]
    constructor
    · intro heq
      have heq : ((c.event F e).events F es).v.calls = c.v.calls := heq
      rw [heq] at hlater ⊢
      have hsame := hlater.eq_of_length (le_antisymm hlater.length_le hfirst.length_le)
      exact ⟨congrArg List.length hsame, hsame.symm⟩
    · rintro ⟨hlen, heq⟩
      exact heq.trans (hfirst.eq_of_length hlen.symm).symm

/-- What is handled of the rest of the stream if the connection goes on. -/
def ahead (F : Frontend σ) (c : KqConn σ) (s : Bytes) : List Request :=
  (drain (next F) (callOn F) c.v.core (c.rbuf ++ s)).1.2

/-- Writing keeps a connection served. -/
theorem Serving.write {c : KqConn σ} {eof : Bool} {taken : Option ℕ} (h : c.Serving F)
    (hord : (Event.write eof taken).isOrdinary = true) : (c.event F (.write eof taken)).Serving F := by
  rw [Event.isOrdinary, Bool.and_eq_true, Bool.not_eq_true', Option.isSome_iff_exists] at hord
  obtain ⟨rfl, n, rfl⟩ := hord
  have hrbuf := (event_write (F := F) c false (some n)).2.1
  suffices hflags : (c.event F (.write false (some n))).closed = false ∧
      (c.event F (.write false (some n))).closeAfter = false from
    ⟨hflags.1, hflags.2, hrbuf ▸ h.wait⟩
  rw [event.eq_def, if_neg (by rw [h.closed]; exact nofun)]
  simp only [Bool.false_eq_true, if_false]
  have hflags : ∀ {c' : KqConn σ}, c'.closed = false → c'.closeAfter = false →
      c'.settle.closed = false ∧ c'.settle.closeAfter = false := by
    intro c' hclosed hclose
    rw [settle_of_open hclose]
    exact ⟨hclosed, hclose⟩
  split_ifs
  · exact hflags h.closed h.closeAfter
  · exact hflags h.closed h.closeAfter

/-- What becomes of a served connection that is read from. It is served on when the loop ends for
want of more and there may be more, and is shut when the loop ends for another reason or there is no
more. -/
theorem Serving.read {c : KqConn σ} {eof : Bool} {data : Bytes} (h : c.Serving F) (fin : Bool)
    (hread : ¬ (eof && c.v.out.isEmpty) = true) (hB : (c.rbuf ++ data).length < sizeBound) :
    (c.event F (.read eof data fin)).v.core
        = (drain (next F) (callOn F) c.v.core (c.rbuf ++ data)).1 ∧
    ((drain (next F) (callOn F) c.v.core (c.rbuf ++ data)).2.2 = none ∧ fin = false →
      (c.event F (.read eof data fin)).Serving F ∧ (c.event F (.read eof data fin)).rbuf
        = (drain (next F) (callOn F) c.v.core (c.rbuf ++ data)).2.1) ∧
    ((drain (next F) (callOn F) c.v.core (c.rbuf ++ data)).2.2 ≠ none ∨ fin = true →
      (c.event F (.read eof data fin)).Shut) := by
  rw [event_read h.closed, if_neg hread, (core_settle _).1, (core_settle _).2]
  obtain ⟨hcore, hmore, hstop, hfin⟩ := receive_spec (F := F) fin hB
  refine ⟨hcore, ?_, ?_⟩
  · rintro ⟨hnone, rfl⟩
    obtain ⟨hrbuf, hclose, hclosed⟩ := hmore hnone
    rw [h.closeAfter] at hclose
    rw [settle_of_open hclose]
    refine ⟨⟨hclosed.trans h.closed, hclose, ?_⟩, hrbuf⟩
    rw [hrbuf]
    exact Incremental.next_of_drain (stable_next F) hB hnone
  · rintro (hsome | rfl)
    · exact shut_settle (hstop hsome)
    · exact shut_settle (.inl (hfin (Bool.or_true _)))

theorem events_closed {c : KqConn σ} (h : c.closed = true) (es : List Event) : c.events F es = c := by
  induction es with
  | nil => rfl
  | cons e es ih =>
    have hfirst : c.events F (e :: es) = (c.event F e).events F es := rfl
    rw [hfirst, event_closed h, ih]

theorem meets_closed {c : KqConn σ} (h : c.closed = true) (es : List Event) :
    Meets (step F) (Careful F) c es := by
  induction es with
  | nil => trivial
  | cons e es ih =>
    rw [meets_cons_iff, event_closed h]
    refine ⟨?_, ih⟩
    cases e with
    | write eof taken => trivial
    | read eof data fin => exact fun hopen ↦ nomatch h.symm.trans hopen

/-- **The rule of the loop**, from a connection that is served. -/
theorem Serving.events_iff {es : List Event} : ∀ {c : KqConn σ}, c.Serving F → Schedule es →
    (c.rbuf ++ streamOf es).length < sizeBound →
    ((c.events F es).v.calls = c.ahead F (streamOf es) ↔ Meets (step F) (Careful F) c es) := by
  induction es with
  | nil =>
    intro c h _ hB
    refine iff_of_true ?_ trivial
    rw [ahead, streamOf, List.flatMap_nil, List.append_nil, Incremental.drain_of_wait h.wait]
    rfl
  | cons e es ih =>
    intro c h hsched hB
    obtain ⟨hrest, hnow⟩ := fits_event (F := F) hB
    have hevents : c.events F (e :: es) = (c.event F e).events F es := rfl
    rw [meets_cons_iff, hevents]
    cases e with
    | write eof taken =>
      obtain ⟨hcore, hrbuf, -⟩ := event_write (F := F) c eof taken
      have hserving := h.write (hsched.ordinary _ List.mem_cons_self)
      have hahead : c.ahead F (streamOf (.write eof taken :: es))
          = (c.event F (.write eof taken)).ahead F (streamOf es) := by
        rw [ahead, ahead, hcore, hrbuf]
        rfl
      rw [hahead, ih hserving hsched.tail hrest]
      exact (and_iff_right trivial).symm
    | read eof data fin =>
      have hnow : (c.rbuf ++ data).length < sizeBound := hnow
      have hstream : streamOf (.read eof data fin :: es) = data ++ streamOf es := streamOf_cons _ _
      rw [hstream] at hB
      by_cases hlost : (eof && c.v.out.isEmpty) = true
      · -- The connection is closed, and what would have been handled is lost.
        have hlast : (Event.read eof data fin).isLast = true := by
          rw [Bool.and_eq_true] at hlost
          rw [Event.isLast, hlost.1, Bool.true_or]
        have hcareful : Careful F c (.read eof data fin) ↔ complete F (c.rbuf ++ data) = false :=
          ⟨fun hc ↦ hc h.closed (.inr hlost), fun hno _ _ ↦ hno⟩
        have hcalls : c.v.calls <+: (drain (next F) (callOn F) c.v.core (c.rbuf ++ data)).1.2 :=
          prefix_drain hnow c.v.core
        rw [event_read h.closed, if_pos hlost, events_closed rfl, ahead, hstream,
          streamOf_of_last hsched hlast, List.append_nil, and_iff_left (meets_closed rfl es), hcareful,
          ← drain_calls_iff hnow c.v.core]
        exact ⟨fun heq ↦ (congrArg List.length heq).symm, fun hlen ↦ hcalls.eq_of_length hlen.symm⟩
      · obtain ⟨hcore, hserved, hshut⟩ := h.read fin hlost hnow
        have hcareful : Careful F c (.read eof data fin) := by
          rintro - (hclose | hlost')
          · exact nomatch h.closeAfter.symm.trans hclose
          · exact absurd hlost' hlost
        rw [and_iff_right hcareful, ahead, hstream, ← List.append_assoc]
        rw [← List.append_assoc] at hB
        rw [Incremental.drain_append (stable_next F) hB]
        -- The loop goes on with what is left, or the connection is shut and nothing is left to do.
        by_cases hgoes : (drain (next F) (callOn F) c.v.core (c.rbuf ++ data)).2.2 = none ∧ fin = false
        · obtain ⟨hserving, hrbuf⟩ := hserved hgoes
          rw [← ih hserving hsched.tail hrest, ahead, hcore, hrbuf]
          generalize drain (next F) (callOn F) c.v.core (c.rbuf ++ data) = d at hgoes ⊢
          obtain ⟨q, r, o⟩ := d
          obtain rfl : o = none := hgoes.1
          exact Iff.rfl
        · rw [not_and_or, Bool.not_eq_false] at hgoes
          rw [← (hshut hgoes).events_iff hrest]
          have hidle : (drain (next F) (callOn F) c.v.core (c.rbuf ++ data)).2.2 = none →
              next F (drain (next F) (callOn F) c.v.core (c.rbuf ++ data)).2.1 = .wait :=
            Incremental.next_of_drain (stable_next F) hnow
          have hcalls := congrArg Prod.snd hcore
          generalize drain (next F) (callOn F) c.v.core (c.rbuf ++ data) = d at hgoes hidle hcalls ⊢
          obtain ⟨q, r, o⟩ := d
          have hcalls : (c.event F (.read eof data fin)).v.calls = q.2 := hcalls
          rw [hcalls]
          cases o with
          | some e => exact Iff.rfl
          | none =>
            have hlast : (Event.read eof data fin).isLast = true := by
              rw [Event.isLast, hgoes.resolve_left (fun hne ↦ hne rfl), Bool.or_true]
            simp only [streamOf_of_last hsched hlast, List.append_nil,
              Incremental.drain_of_wait (hidle rfl)]

/-- **When the frontends handle the same requests.** Take any stream, the events of a connection
that bring it, in any pieces and any order with the events of writing, and any pieces in which it
arrives at the threaded frontend. The frontends pass the same requests to the handler exactly when
no request is complete at any event that is read from after the connection was to be closed, or that
closes the connection without reading from it. -/
theorem calls_eq_iff_careful (F : Frontend σ) (st : σ) {es : List Event} {pieces : List Bytes}
    (hsched : Schedule es) (hpieces : pieces.flatten = streamOf es)
    (hfits : (streamOf es).length < sizeBound) :
    (events F { v := { st } } es).v.calls = (connLoop F pieces { v := { st } }).v.calls ↔
      Meets (step F) (Careful F) { v := { st } } es := by
  have hcalls : (connLoop F pieces { v := { st } }).v.calls
      = (handled F st (streamOf es)).2 := by
    rw [← hpieces] at hfits ⊢
    exact congrArg Prod.snd (core_connLoop_eq_handled F st hfits)
  rw [hcalls]
  exact Serving.events_iff ⟨rfl, rfl, next_nil F⟩ hsched hfits

/-- A request, and whether it is the last one of its connection. -/
def getLine (path conn : String) : Bytes :=
  lit "GET " ++ lit path ++ lit " HTTP/1.1\r\nConnection: " ++ lit conn ++ lit "\r\n\r\n"

/-- A request in two pieces with room to write in between, and the last one with the end of the
stream. -/
def inTurn : List Event :=
  [.read false (getLine "/a" "keep-alive" ++ lit "GET ") false, .write false (some 40),
    .read true ((getLine "/b" "close").drop 4) true, .write false (some 1000)]

theorem calls_eq_iff_careful_inTurn :
    (events plainFrontend { v := { st := openMemory } } inTurn).v.calls
      = (connLoop plainFrontend [streamOf inTurn] { v := { st := openMemory } }).v.calls := by
  have hsched : Schedule inTurn := ⟨by decide, by decide⟩
  refine (calls_eq_iff_careful plainFrontend openMemory hsched List.flatten_singleton ?_).mpr ?_
  · decide +kernel
  · decide +kernel

/-- More than the last request of a connection, and more to read before the reply has been taken. -/
def overrunEvents : List Event :=
  [.read false (getLine "/a" "close" ++ getLine "/b" "close") false, .read false [] false]

/-- A request that comes with the end of the stream. -/
def lostEvents : List Event := [.read true (getLine "/a" "close") true]

theorem calls_differ :
    Schedule overrunEvents ∧
    ((events plainFrontend { v := { st := openMemory } } overrunEvents).v.calls.map Request.path,
      (connLoop plainFrontend [streamOf overrunEvents] { v := { st := openMemory } }).v.calls.map
        Request.path) = ([lit "/a", lit "/b"], [lit "/a"]) ∧
    Schedule lostEvents ∧
    ((events plainFrontend { v := { st := openMemory } } lostEvents).v.calls.map Request.path,
      (connLoop plainFrontend [streamOf lostEvents] { v := { st := openMemory } }).v.calls.map
        Request.path) = ([], [lit "/a"]) := by
  refine ⟨⟨by decide, by decide⟩, ?_, ⟨by decide, by decide⟩, ?_⟩
  · decide +kernel
  · decide +kernel

end KqConn

end Shrt
