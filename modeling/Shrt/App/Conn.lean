import Shrt.App.Response
import Shrt.Lib.Incremental

/-!
# One connection, one thread

The loop that serves a connection in a thread of its own: receive, handle the complete requests in
the buffer, send the replies. The parser is run again from the start of what is left each time more
arrives.

What the parser finds at the front of a buffer is stable (`stable_next`), whatever the request says
its length is. So the requests that are handled do not depend on how the stream was cut into pieces
(`calls_connLoop`).
-/

namespace Shrt

open Incremental (Next Stable drain drainFor)

/-! ## Complete requests -/

/-- `MAX_BODY`. -/
def MAX_BODY : UInt64 := 4096

/-- `MAX_BULK_BODY`. -/
def MAX_BULK_BODY : UInt64 := 1048576

/-- `body_limit`. -/
def bodyLimit (path : Bytes) : UInt64 :=
  if path.takeWhile (· ≠ 63) = lit "/api/shorten/bulk" then MAX_BULK_BODY else MAX_BODY

/-- The answer to a body above the limit. -/
def tooLarge : Reply := mk 413 (lit "\x7b\"error\":\"body too large\"\x7d")

/-- What a connection is served with. The handler is any state machine over what the process keeps:
its state may hold what other connections do in between, and it may throw. -/
structure Frontend (σ : Type) where
  /-- `handle`; nothing when it throws. -/
  handle : σ → Request → Option (σ × Reply)
  /-- `CORS_ORIGIN`. -/
  origin : Bytes := []
  /-- `TRUST_PROXY`. -/
  trustProxy : Bool := false
  /-- The address of the peer. -/
  peer : Bytes := []

/-- Why no more requests of a connection are handled. -/
inductive Stop where
  /-- The head is no request. -/
  | malformed
  /-- The body is above the limit. -/
  | tooLarge
  /-- The request was the last one of the connection. -/
  | close
  /-- The handler threw, which ends the process. -/
  | thrown
  deriving DecidableEq

/-- What has been done for a connection. -/
structure Served (σ : Type) where
  /-- The handler's state. -/
  st : σ
  /-- The requests that were passed to the handler. -/
  calls : List Request := []
  /-- Replies that are not sent yet. -/
  out : Bytes := []

section Frontend

variable {σ : Type} (F : Frontend σ)

/-- Whether a request is refused for its size. -/
def ReqInfo.oversized (ri : ReqInfo) : Bool :=
  needsBody ri.method && bodyLimit ri.path < ri.bodyLen

/-- A call of the handler and, unless it throws, its reply; `alive` tells whether the connection is
kept. -/
def Served.call (v : Served σ) (r : Request) (alive : Bool) : Served σ × Option Stop :=
  match F.handle v.st r with
  | none => ({ v with calls := v.calls ++ [r] }, some .thrown)
  | some (st, a) =>
    ({ st, calls := v.calls ++ [r], out := v.out ++ writeReply F.origin a },
      if alive then none else some .close)

/-- The loop over the complete requests of a buffer, from a position on. Both frontends have it. A
round moves the position, so that there are no more rounds than bytes. -/
def requests (buf : Bytes) : ℕ → ℕ → Served σ → Served σ × ℕ × Option Stop
  | 0, parsed, v => (v, parsed, none)
  | k + 1, parsed, v =>
    let ri := parseReq buf parsed
    if ri.total = 0 then (v, parsed, none)
    else if ri.total = SIZE_MAX then (v, parsed, some .malformed)
    else if ri.oversized then (v, parsed, some .tooLarge)
    else match v.call F (ri.request buf F.trustProxy F.peer) ri.alive with
      | (v, none) => requests buf k (parsed + ri.total.toNat) v
      | (v, some e) => (v, parsed + ri.total.toNat, some e)

/-- What stands at the front of a buffer. -/
def next (s : Bytes) : Next (Request × Bool) Stop :=
  let ri := parseReq s 0
  if ri.total = 0 then .wait
  else if ri.total = SIZE_MAX then .stop .malformed
  else if ri.oversized then .stop .tooLarge
  else .item (ri.request s F.trustProxy F.peer, ri.alive) ri.total.toNat

/-- A call for a request that was found. -/
def Served.take (v : Served σ) (b : Request × Bool) : Served σ × Option Stop := v.call F b.1 b.2

end Frontend

/-! ## What is found does not change -/

/-- Parsing at a position is parsing what stands there. -/
theorem parseReq_drop (buf : Bytes) (pos : ℕ) : parseReq buf pos =
    { parseReq (buf.drop pos) 0 with
      bodyOff := if (parseReq (buf.drop pos) 0).bodyOff = 0 then 0
        else pos + (parseReq (buf.drop pos) 0).bodyOff } := by
  rw [parseReq, parseReq, List.drop_zero]
  cases hcut : cutAt (CRLF ++ CRLF) (buf.drop pos) with
  | none => rfl
  | some p =>
    obtain ⟨head, rest⟩ := p
    cases hhead : parseHead head with
    | none => simp [hhead]
    | some q => simp [hhead, List.length_drop, add_assoc]

theorem request_parseReq_drop (buf : Bytes) (pos : ℕ) (trustProxy : Bool) (peer : Bytes) :
    (parseReq buf pos).request buf trustProxy peer
      = (parseReq (buf.drop pos) 0).request (buf.drop pos) trustProxy peer := by
  by_cases hoff : (parseReq (buf.drop pos) 0).bodyOff = 0
  · -- Nothing was parsed, and a request without a method has no body.
    have hmethod : (parseReq (buf.drop pos) 0).method = [] := by
      rw [parseReq, List.drop_zero] at hoff ⊢
      split at hoff
      · rfl
      · split at hoff
        · rfl
        · simp at hoff
    rw [parseReq_drop, ReqInfo.request, ReqInfo.request]
    simp only [hmethod]
    rfl
  · rw [parseReq_drop, ReqInfo.request, ReqInfo.request]
    simp only [if_neg hoff, List.drop_drop]
    rfl

/-- The sizes of a `std::string` are below this. -/
def sizeBound : ℕ := 2 ^ 63

theorem toNat_ofNat_of_lt {n : ℕ} (h : n < sizeBound) : (UInt64.ofNat n).toNat = n :=
  UInt64.toNat_ofNat_of_lt' (h.trans (by decide))

/-- The parser, once the head is there and is a request. -/
theorem parseReq_of_head {s head rest : Bytes} {ri : ReqInfo} {cl : UInt64}
    (hcut : cutAt (CRLF ++ CRLF) s = some (head, rest)) (hhead : parseHead head = some (ri, cl)) :
    parseReq s 0 =
      let bodyLen := if needsBody ri.method then cl else 0
      let total := UInt64.ofNat (head.length + 4) + bodyLen
      { ri with
        bodyOff := head.length + 4
        bodyLen
        total := if UInt64.ofNat s.length < total then 0 else total } := by
  simp only [parseReq, List.drop_zero, hcut, hhead, Nat.sub_zero, zero_add]

/-- A request that is all there has a head. -/
theorem head_of_total {s : Bytes} (hne : (parseReq s 0).total ≠ 0) :
    ∃ head rest, cutAt (CRLF ++ CRLF) s = some (head, rest) := by
  cases hcut : cutAt (CRLF ++ CRLF) s with
  | none =>
    simp only [parseReq, List.drop_zero, hcut] at hne
    exact absurd rfl hne
  | some p => exact ⟨p.1, p.2, rfl⟩

/-- **A request that is all there is parsed in the same way when more follows.** -/
theorem parseReq_append {s : Bytes} (t : Bytes) (hB : (s ++ t).length < sizeBound)
    (hne : (parseReq s 0).total ≠ 0) : parseReq (s ++ t) 0 = parseReq s 0 := by
  obtain ⟨head, rest, hcut⟩ := head_of_total hne
  cases hhead : parseHead head with
  | none => simp only [parseReq, List.drop_zero, cutAt_append t hcut, hcut, hhead]
  | some q =>
    obtain ⟨ri, cl⟩ := q
    rw [parseReq_of_head hcut hhead] at hne ⊢
    rw [parseReq_of_head (cutAt_append t hcut) hhead]
    simp only at hne ⊢
    generalize (if needsBody ri.method then cl else 0) = len at hne ⊢
    split_ifs at hne with hshort
    · exact absurd rfl hne
    · have hle : s.length ≤ (s ++ t).length := by
        rw [List.length_append]
        omega
      have hs : s.length < sizeBound := hle.trans_lt hB
      have hlong : ¬ UInt64.ofNat (s ++ t).length < UInt64.ofNat (head.length + 4) + len := by
        rw [UInt64.lt_iff_toNat_lt, toNat_ofNat_of_lt hs] at hshort
        rw [UInt64.lt_iff_toNat_lt, toNat_ofNat_of_lt hB]
        omega
      rw [if_neg hlong, if_neg hshort]

/-- A request that is all there and is not refused lies in the buffer, head and body. -/
theorem bounds_of_total {s : Bytes} (hs : s.length < sizeBound) (hne : (parseReq s 0).total ≠ 0)
    (hmax : (parseReq s 0).total ≠ SIZE_MAX) (hsmall : (parseReq s 0).oversized = false) :
    4 ≤ (parseReq s 0).bodyOff ∧
    (parseReq s 0).bodyOff + (parseReq s 0).bodyLen.toNat = (parseReq s 0).total.toNat ∧
    (parseReq s 0).total.toNat ≤ s.length := by
  obtain ⟨head, rest, hcut⟩ := head_of_total hne
  have hlen : head.length + 4 ≤ s.length := by
    have h := congrArg List.length (cutAt_eq_some hcut)
    have hpat : (CRLF ++ CRLF).length = 4 := rfl
    rw [List.length_append, List.length_append, hpat] at h
    omega
  cases hhead : parseHead head with
  | none =>
    simp only [parseReq, List.drop_zero, hcut, hhead] at hmax
    exact absurd rfl hmax
  | some q =>
    obtain ⟨ri, cl⟩ := q
    rw [parseReq_of_head hcut hhead] at hne hsmall ⊢
    simp only [ReqInfo.oversized] at hne hsmall ⊢
    -- A body within the limit is too short to make the sum wrap.
    have hlimit : (if needsBody ri.method then cl else 0).toNat ≤ 2 ^ 20 := by
      split_ifs at hsmall ⊢ with hbody
      · rw [hbody, Bool.true_and, decide_eq_false_iff_not, UInt64.lt_iff_toNat_lt, not_lt] at hsmall
        refine hsmall.trans ?_
        rw [bodyLimit]
        split_ifs <;> decide
      · exact Nat.zero_le _
    generalize (if needsBody ri.method then cl else 0) = len at hne hlimit ⊢
    split_ifs at hne with hshort
    · exact absurd rfl hne
    have hadd : (UInt64.ofNat (head.length + 4) + len).toNat = head.length + 4 + len.toNat := by
      rw [UInt64.toNat_add, toNat_ofNat_of_lt (hlen.trans_lt hs), Nat.mod_eq_of_lt]
      rw [sizeBound] at hs
      omega
    rw [if_neg hshort]
    rw [UInt64.lt_iff_toNat_lt, toNat_ofNat_of_lt hs, not_lt] at hshort
    exact ⟨Nat.le_add_left 4 _, hadd.symm, hshort⟩

variable {σ : Type}

/-- **What stands at the front of a buffer does not change.** -/
theorem stable_next (F : Frontend σ) : Stable sizeBound (next F) where
  size := by
    intro s b n hs h
    rw [next] at h
    split_ifs at h with hzero hmax hover
    obtain ⟨-, rfl⟩ := Next.item.inj h
    refine ⟨?_, (bounds_of_total hs hzero hmax (Bool.eq_false_iff.mpr hover)).2.2⟩
    exact Nat.pos_of_ne_zero fun h0 ↦ hzero (UInt64.toNat_inj.mp h0)
  append := by
    intro s t hB h
    have hs : s.length < sizeBound := by
      rw [List.length_append] at hB
      omega
    have hne : (parseReq s 0).total ≠ 0 := by
      intro hzero
      rw [next] at h
      exact h (if_pos hzero)
    rw [next, next, parseReq_append t hB hne, if_neg hne, if_neg hne]
    split_ifs with hmax hover
    · rfl
    · rfl
    · rw [Bool.not_eq_true] at hover
      obtain ⟨-, hbody, hle⟩ := bounds_of_total hs hne hmax hover
      have hreq : (parseReq s 0).request (s ++ t) F.trustProxy F.peer
          = (parseReq s 0).request s F.trustProxy F.peer := by
        rw [ReqInfo.request, ReqInfo.request]
        by_cases hneeds : needsBody (parseReq s 0).method = true
        · rw [List.drop_append_of_le_length (by omega), List.take_append_of_le_length]
          rw [List.length_drop]
          omega
        · rw [if_neg hneeds, if_neg hneeds]
      rw [hreq]

/-- The loop over positions takes what stands at the front of what is left. -/
theorem requests_eq (F : Frontend σ) (buf : Bytes) : ∀ (k pos : ℕ) (v : Served σ),
    ∃ pos', buf.drop pos' = (drainFor (next F) (Served.take F) k v (buf.drop pos)).2.1 ∧
      requests F buf k pos v = ((drainFor (next F) (Served.take F) k v (buf.drop pos)).1, pos',
        (drainFor (next F) (Served.take F) k v (buf.drop pos)).2.2) := by
  intro k
  induction k with
  | zero => exact fun pos v ↦ ⟨pos, rfl, rfl⟩
  | succ k ih =>
    intro pos v
    have htotal : (parseReq buf pos).total = (parseReq (buf.drop pos) 0).total := by
      rw [parseReq_drop]
    have hover : (parseReq buf pos).oversized = (parseReq (buf.drop pos) 0).oversized := by
      rw [parseReq_drop]
      rfl
    have halive : (parseReq buf pos).alive = (parseReq (buf.drop pos) 0).alive := by
      rw [parseReq_drop]
    rw [requests, drainFor, next, request_parseReq_drop buf pos, htotal, hover, halive]
    split_ifs with hzero hmax hbig
    · exact ⟨pos, rfl, rfl⟩
    · exact ⟨pos, rfl, rfl⟩
    · exact ⟨pos, rfl, rfl⟩
    · simp only [Served.take, List.drop_drop]
      generalize (parseReq (buf.drop pos) 0).total.toNat = n
      cases hcall : v.call F ((parseReq (buf.drop pos) 0).request (buf.drop pos) F.trustProxy F.peer)
          (parseReq (buf.drop pos) 0).alive with
      | mk v' o =>
        cases o with
        | none => exact ih (pos + n) v'
        | some e => exact ⟨pos + n, rfl, rfl⟩

/-- The handler's state and the requests that were passed to it. -/
def Served.core (v : Served σ) : σ × List Request := (v.st, v.calls)

/-- A call of the handler, without the reply. -/
def callOn (F : Frontend σ) (q : σ × List Request) (b : Request × Bool) :
    (σ × List Request) × Option Stop :=
  match F.handle q.1 b.1 with
  | none => ((q.1, q.2 ++ [b.1]), some .thrown)
  | some (st, _) => ((st, q.2 ++ [b.1]), if b.2 then none else some .close)

theorem core_take (F : Frontend σ) (v : Served σ) (b : Request × Bool) :
    callOn F v.core b = ((v.take F b).1.core, (v.take F b).2) := by
  rw [callOn, Served.take, Served.call, Served.core]
  split <;> rename_i hb <;> simp only [hb] <;> rfl

/-- What the loop over positions does to the handler's state and the calls, where it stops in the
buffer, and why. -/
theorem requests_spec (F : Frontend σ) {buf : Bytes} (hB : buf.length < sizeBound) (v : Served σ) :
    (requests F buf (buf.length + 1) 0 v).1.core = (drain (next F) (callOn F) v.core buf).1 ∧
    buf.drop (requests F buf (buf.length + 1) 0 v).2.1
      = (drain (next F) (callOn F) v.core buf).2.1 ∧
    (requests F buf (buf.length + 1) 0 v).2.2 = (drain (next F) (callOn F) v.core buf).2.2 := by
  obtain ⟨pos, hpos, heq⟩ := requests_eq F buf (buf.length + 1) 0 v
  rw [List.drop_zero] at hpos heq
  rw [Incremental.drain_map (stable_next F) Served.core (core_take F) hB, heq]
  exact ⟨rfl, hpos, rfl⟩

/-! ## The loop -/

/-- A connection. -/
structure Conn (σ : Type) where
  /-- What has been done for it. -/
  v : Served σ
  /-- What has been received and not been parsed. -/
  buf : Bytes := []
  /-- What has been sent. -/
  sent : Bytes := []

/-- Handle the complete requests in the buffer and send the replies; `true` when the loop goes on.
The socket takes all that is sent. -/
def Conn.round (F : Frontend σ) (c : Conn σ) : Conn σ × Bool :=
  match requests F c.buf (c.buf.length + 1) 0 c.v with
  | (v, parsed, none) =>
    ({ v := { v with out := [] }, buf := c.buf.drop parsed, sent := c.sent ++ v.out }, true)
  | (v, parsed, some .close) =>
    ({ v := { v with out := [] }, buf := c.buf.drop parsed, sent := c.sent ++ v.out }, false)
  | (v, _, some .tooLarge) =>
    ({ c with
        v := { v with out := [] }
        sent := c.sent ++ v.out ++ writeReply F.origin tooLarge }, false)
  -- The replies to earlier requests of the same piece are lost.
  | (v, _, some .malformed) => ({ c with v }, false)
  | (v, _, some .thrown) => ({ c with v }, false)

/-- `conn_loop`: the pieces are what `recv` returns until it returns nothing. -/
def connLoop (F : Frontend σ) : List Bytes → Conn σ → Conn σ
  | [], c => if c.buf = [] then c else (c.round F).1
  | piece :: pieces, c => match ({ c with buf := c.buf ++ piece } : Conn σ).round F with
    | (c, true) => connLoop F pieces c
    | (c, false) => c

/-- One round handles what is complete in the buffer. It goes on when it ends for want of more, and
keeps what is left then. -/
theorem round_spec (F : Frontend σ) {c : Conn σ} (hB : c.buf.length < sizeBound) :
    (c.round F).1.v.core = (drain (next F) (callOn F) c.v.core c.buf).1 ∧
    ((c.round F).2 = true ↔ (drain (next F) (callOn F) c.v.core c.buf).2.2 = none) ∧
    ((c.round F).2 = true →
      (c.round F).1.buf = (drain (next F) (callOn F) c.v.core c.buf).2.1) := by
  obtain ⟨hcore, hrest, hstop⟩ := requests_spec F hB c.v
  rw [← hcore, ← hrest, ← hstop, Conn.round]
  generalize requests F c.buf (c.buf.length + 1) 0 c.v = q
  obtain ⟨v, parsed, o⟩ := q
  cases o with
  | none => exact ⟨rfl, iff_of_true rfl rfl, fun _ ↦ rfl⟩
  | some e => cases e <;> exact ⟨rfl, iff_of_false nofun nofun, nofun⟩

/-- What is handled of a stream. -/
theorem core_connLoop (F : Frontend σ) {pieces : List Bytes} :
    ∀ {c : Conn σ}, next F c.buf = .wait → (c.buf ++ pieces.flatten).length < sizeBound →
      (connLoop F pieces c).v.core
        = (drain (next F) (callOn F) c.v.core (c.buf ++ pieces.flatten)).1 := by
  induction pieces with
  | nil =>
    intro c hwait hB
    rw [List.flatten_nil, List.append_nil] at hB ⊢
    rw [connLoop]
    split_ifs with hbuf
    · rw [Incremental.drain_of_wait hwait]
    · exact (round_spec F hB).1
  | cons piece pieces ih =>
    intro c hwait hB
    rw [List.flatten_cons, ← List.append_assoc] at hB ⊢
    have hpiece : (c.buf ++ piece).length < sizeBound := by
      rw [List.length_append] at hB
      omega
    obtain ⟨hcore, hgoes, hbuf⟩ := round_spec F (c := { c with buf := c.buf ++ piece }) hpiece
    rw [Incremental.drain_append (stable_next F) hB, connLoop]
    have hsuffix : (drain (next F) (callOn F) c.v.core (c.buf ++ piece)).2.1 <:+ c.buf ++ piece :=
      Incremental.suffix_drain (stable_next F) hpiece
    have hidle : (drain (next F) (callOn F) c.v.core (c.buf ++ piece)).2.2 = none →
        next F (drain (next F) (callOn F) c.v.core (c.buf ++ piece)).2.1 = .wait :=
      Incremental.next_of_drain (stable_next F) hpiece
    generalize Conn.round F { c with buf := c.buf ++ piece } = q at hcore hgoes hbuf ⊢
    simp only at hcore hgoes hbuf
    generalize drain (next F) (callOn F) c.v.core (c.buf ++ piece) = d
      at hcore hgoes hbuf hsuffix hidle ⊢
    obtain ⟨c', go⟩ := q
    obtain ⟨q', r, o⟩ := d
    cases o with
    | none =>
      obtain rfl : go = true := hgoes.mpr rfl
      obtain rfl : c'.buf = r := hbuf rfl
      obtain rfl : c'.v.core = q' := hcore
      refine ih (hidle rfl) ?_
      have hle := hsuffix.length_le
      rw [List.length_append] at hB ⊢
      simp only at hle
      omega
    | some e =>
      obtain rfl : go = false := by
        rw [← Bool.not_eq_true, hgoes]
        exact nofun
      exact hcore

/-- What is handled of a stream that begins with a connection. -/
def handled (F : Frontend σ) (st : σ) (stream : Bytes) : σ × List Request :=
  (drain (next F) (callOn F) (st, []) stream).1

theorem next_nil (F : Frontend σ) : next F [] = .wait := by
  have htotal : (parseReq [] 0).total = 0 := rfl
  rw [next, if_pos htotal]

theorem core_connLoop_eq_handled (F : Frontend σ) (st : σ) {pieces : List Bytes}
    (hfits : pieces.flatten.length < sizeBound) :
    (connLoop F pieces { v := { st } }).v.core = handled F st pieces.flatten :=
  core_connLoop F (next_nil F) hfits

/-- **How a stream is cut does not matter.** Whatever the stream, the requests that the loop passes
to the handler, and the state in which the handler is left, are those of the same stream when it
arrives at once. -/
theorem calls_connLoop (F : Frontend σ) (st : σ) (pieces : List Bytes)
    (hfits : pieces.flatten.length < sizeBound) :
    (connLoop F pieces { v := { st } }).v.calls
        = (connLoop F [pieces.flatten] { v := { st } }).v.calls ∧
      (connLoop F pieces { v := { st } }).v.st
        = (connLoop F [pieces.flatten] { v := { st } }).v.st := by
  have hone : [pieces.flatten].flatten = pieces.flatten := List.flatten_singleton
  have hcore : (connLoop F pieces { v := { st } }).v.core
      = (connLoop F [pieces.flatten] { v := { st } }).v.core := by
    rw [core_connLoop_eq_handled F st hfits, core_connLoop_eq_handled F st (by rwa [hone]), hone]
  exact ⟨congrArg Prod.snd hcore, congrArg Prod.fst hcore⟩

/-- A frontend over a store in memory, at one moment. -/
def plainFrontend : Frontend Store where
  handle st r := (handle {} st r).toOption

/-- Two requests, the second with a body and the last one of the connection, cut inside the head of
the first, inside the body of the second, and followed by more. -/
def twoRequests : List Bytes :=
  [lit "GET /a HT",
    lit "TP/1.1\r\nHost: h\r\n\r\nPOST /api/shorten HTTP/1.1\r\nContent-Length: 2\r",
    lit "\nConnection: close\r\n\r\n\x7b", lit "\x7dGET /b HTTP/1.1\r\n\r\n"]

theorem calls_connLoop_twoRequests :
    (connLoop plainFrontend twoRequests { v := { st := openMemory } }).v.calls.map
        (fun r ↦ (r.method, r.path, r.body))
      = [(lit "GET", lit "/a", []), (lit "POST", lit "/api/shorten", lit "\x7b\x7d")] := by
  rw [(calls_connLoop plainFrontend openMemory twoRequests (by decide +kernel)).1]
  decide +kernel

end Shrt
