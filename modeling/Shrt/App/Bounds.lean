import Shrt.App.Kqueue

/-!
# The bounds of a connection

A request that the parser returns lies in the buffer, whatever its content length, so that the loop
over the complete requests moves on and ends (`parse_in_bounds`).

What a connection keeps of its stream is bounded for clients that keep to the limits of heads and
bodies (`buffers_bounded`). The server enforces neither before it has the whole request: the length
of a head is never looked at, and that of a body only when all of it has been received. A head
without an end is kept whatever its size (`endless_head_kept`).
-/

namespace Shrt

open Incremental (Next Reaches drain)

variable {σ : Type}

/-! ## Requests in a buffer -/

/-- A request at a position of a buffer, unless it is incomplete, malformed or refused. -/
theorem bounds_of_parseReq {buf : Bytes} {pos : ℕ} (hfits : buf.length < sizeBound)
    (hpos : pos ≤ buf.length) (hne : (parseReq buf pos).total ≠ 0)
    (hmax : (parseReq buf pos).total ≠ SIZE_MAX) (hsmall : (parseReq buf pos).oversized = false) :
    4 ≤ (parseReq buf pos).total.toNat ∧
    (parseReq buf pos).bodyOff + (parseReq buf pos).bodyLen.toNat
      = pos + (parseReq buf pos).total.toNat ∧
    pos + (parseReq buf pos).total.toNat ≤ buf.length := by
  have hlen : (buf.drop pos).length = buf.length - pos := List.length_drop
  rw [parseReq_drop] at hne hmax hsmall ⊢
  obtain ⟨hoff, hsum, hle⟩ := bounds_of_total (by omega) hne hmax hsmall
  simp only
  rw [if_neg (by omega)]
  refine ⟨?_, ?_, ?_⟩ <;> omega

theorem oversized_eq_false_iff {ri : ReqInfo} : ri.oversized = false ↔
    needsBody ri.method = false ∨ ri.bodyLen ≤ bodyLimit ri.path := by
  rw [ReqInfo.oversized, Bool.and_eq_false_iff, decide_eq_false_iff_not, UInt64.not_lt]

/-- The loop over the complete requests ends, and it does not matter how many rounds it may take. -/
theorem requests_ends (F : Frontend σ) {buf : Bytes} (hfits : buf.length < sizeBound) :
    ∀ (m : ℕ) {pos : ℕ} (v : Served σ), pos ≤ buf.length → buf.length - pos < m →
      ∃ r, (∀ k, buf.length - pos < k → requests F buf k pos v = r) ∧
        pos ≤ r.2.1 ∧ r.2.1 ≤ buf.length ∧ (r.2.2 = none → (parseReq buf r.2.1).total = 0) := by
  intro m
  induction m with
  | zero => exact fun _ _ h ↦ absurd h (Nat.not_lt_zero _)
  | succ m ih =>
    intro pos v hpos hm
    have hround : ∀ k, buf.length - pos < k → ∃ k', k = k' + 1 :=
      fun k hk ↦ Nat.exists_eq_succ_of_ne_zero (by omega)
    have hends {e : Stop} {P : Prop} : some e = none → P := fun h ↦ absurd h (Option.some_ne_none e)
    by_cases hzero : (parseReq buf pos).total = 0
    · refine ⟨(v, pos, none), fun k hk ↦ ?_, le_rfl, hpos, fun _ ↦ hzero⟩
      obtain ⟨k, rfl⟩ := hround k hk
      rw [requests, if_pos hzero]
    by_cases hmax : (parseReq buf pos).total = SIZE_MAX
    · refine ⟨(v, pos, some .malformed), fun k hk ↦ ?_, le_rfl, hpos, hends⟩
      obtain ⟨k, rfl⟩ := hround k hk
      rw [requests, if_neg hzero, if_pos hmax]
    by_cases hover : (parseReq buf pos).oversized = true
    · refine ⟨(v, pos, some .tooLarge), fun k hk ↦ ?_, le_rfl, hpos, hends⟩
      obtain ⟨k, rfl⟩ := hround k hk
      rw [requests, if_neg hzero, if_neg hmax, if_pos hover]
    obtain ⟨hfour, -, hle⟩ :=
      bounds_of_parseReq hfits hpos hzero hmax (Bool.eq_false_iff.mpr hover)
    cases hcall : v.call F ((parseReq buf pos).request buf F.trustProxy F.peer)
        (parseReq buf pos).alive with
    | mk v' o =>
      cases o with
      | some e =>
        refine ⟨(v', pos + (parseReq buf pos).total.toNat, some e), fun k hk ↦ ?_,
          Nat.le_add_right _ _, hle, hends⟩
        obtain ⟨k, rfl⟩ := hround k hk
        simp only [requests, if_neg hzero, if_neg hmax, if_neg hover, hcall]
      | none =>
        obtain ⟨r, hr, hfrom, hto, hwait⟩ := ih v' hle (by omega)
        refine ⟨r, fun k hk ↦ ?_, by omega, hto, hwait⟩
        obtain ⟨k, rfl⟩ := hround k hk
        simp only [requests, if_neg hzero, if_neg hmax, if_neg hover, hcall]
        exact hr k (by omega)

/-- **Parsing stays in bounds and makes progress.** Take a buffer that fits a `std::string` and a
position in it. A request that the parser returns there as neither incomplete nor malformed, and
that has no body or one within its limit, has at least four bytes, its body is the end of them, and
all of them are in the buffer. The loop over the requests from this position on ends: with more
rounds than there are bytes, their number does not matter, and without a reason to stop the parser
waits for more. -/
theorem parse_in_bounds (F : Frontend σ) {buf : Bytes} {pos : ℕ} (hfits : buf.length < sizeBound)
    (hpos : pos ≤ buf.length) :
    ((parseReq buf pos).total ≠ 0 → (parseReq buf pos).total ≠ SIZE_MAX →
      needsBody (parseReq buf pos).method = false ∨
        (parseReq buf pos).bodyLen ≤ bodyLimit (parseReq buf pos).path →
      4 ≤ (parseReq buf pos).total.toNat ∧
      (parseReq buf pos).bodyOff + (parseReq buf pos).bodyLen.toNat
        = pos + (parseReq buf pos).total.toNat ∧
      pos + (parseReq buf pos).total.toNat ≤ buf.length) ∧
    ∀ v : Served σ, ∃ r, (∀ k, buf.length - pos < k → requests F buf k pos v = r) ∧
      pos ≤ r.2.1 ∧ r.2.1 ≤ buf.length ∧ (r.2.2 = none → (parseReq buf r.2.1).total = 0) :=
  ⟨fun hne hmax hsmall ↦ bounds_of_parseReq hfits hpos hne hmax (oversized_eq_false_iff.mpr hsmall),
    fun v ↦ requests_ends F hfits _ v hpos (Nat.lt_succ_self _)⟩

/-- A request behind another one, with a body, in a buffer that holds more. -/
def pipelined : Bytes :=
  lit "GET /a HTTP/1.1\r\n\r\nPOST /api/shorten HTTP/1.1\r\nContent-Length: 2\r\n\r\n\x7b\x7dGET"

theorem parse_in_bounds_pipelined : (parseReq pipelined 19).total.toNat = 51 ∧
    (parseReq pipelined 19).bodyOff + (parseReq pipelined 19).bodyLen.toNat = 19 + 51 := by
  have htotal : (parseReq pipelined 19).total = 51 := by decide +kernel
  have hbounds := @parse_in_bounds _ plainFrontend pipelined 19 (by decide +kernel)
    (by decide +kernel)
  have h := (hbounds.1 (by rw [htotal]; decide) (by rw [htotal]; decide)
    (.inr (by decide +kernel))).2.1
  rw [htotal] at h
  exact ⟨by rw [htotal]; rfl, h⟩

/-! ## Clients that keep to the limits -/

/-- `MAX_HEADERS_LINE`. -/
def MAX_HEADERS_LINE : ℕ := 64 <<< 10

/-- `READ_CAP`, which is also the most that one `recv` returns. -/
def READ_CAP : ℕ := 64 <<< 10

/-- The most that a connection is meant to keep of its stream. -/
def bufferLimit : ℕ := MAX_HEADERS_LINE + MAX_BULK_BODY.toNat + READ_CAP

/-- The request at the front of a stream keeps to the limits: its head, or what there is of it, and
the body that the head declares. -/
def Modest (s : Bytes) : Prop := match cutAt (CRLF ++ CRLF) s with
  | none => s.length ≤ MAX_HEADERS_LINE
  | some (head, _) =>
    head.length + 4 ≤ MAX_HEADERS_LINE ∧ (parseReq s 0).bodyLen ≤ MAX_BULK_BODY

instance decidableModest (s : Bytes) : Decidable (Modest s) :=
  match h : cutAt (CRLF ++ CRLF) s with
  | none => decidable_of_iff (s.length ≤ MAX_HEADERS_LINE) (by rw [Modest, h])
  | some (head, _) =>
    decidable_of_iff (head.length + 4 ≤ MAX_HEADERS_LINE ∧ (parseReq s 0).bodyLen ≤ MAX_BULK_BODY)
      (by rw [Modest, h])

/-- If the request at the front of a stream is the last one of its connection, or is refused, then
not more than the limit is left of the stream. -/
def EndsSoon (F : Frontend σ) (s : Bytes) : Prop :=
  (∀ b n, next F s = .item b n → b.2 = false → (s.drop n).length ≤ bufferLimit) ∧
    (next F s = .stop .tooLarge → s.length ≤ bufferLimit)

/-- **While the parser waits for a request that keeps to the limits, there is no more than such a
request.** -/
theorem length_le_of_wait {F : Frontend σ} {s t : Bytes} (hB : (s ++ t).length < sizeBound)
    (hwait : next F s = .wait) (hmodest : Modest (s ++ t)) :
    s.length ≤ MAX_HEADERS_LINE + MAX_BULK_BODY.toNat := by
  have hle : s.length ≤ (s ++ t).length := by
    rw [List.length_append]
    exact Nat.le_add_right _ _
  cases hcut : cutAt (CRLF ++ CRLF) s with
  | none =>
    refine le_trans ?_ (Nat.le_add_right _ _)
    rw [Modest] at hmodest
    cases hlonger : cutAt (CRLF ++ CRLF) (s ++ t) with
    | none =>
      rw [hlonger] at hmodest
      exact hle.trans hmodest
    | some p =>
      -- The head ends behind what is there, or its end would have been found.
      rw [hlonger] at hmodest
      refine le_trans (le_of_not_gt fun hlt ↦ not_infix_of_cutAt hcut ?_) hmodest.1
      have hpre : p.1 ++ (CRLF ++ CRLF) <+: s ++ t := ⟨p.2, (cutAt_eq_some hlonger).symm⟩
      have hin : p.1 ++ (CRLF ++ CRLF) <+: s := by
        refine List.prefix_of_prefix_length_le hpre (List.prefix_append s t) ?_
        rw [List.length_append]
        exact hlt.le
      exact (List.suffix_append _ _).isInfix.trans hin.isInfix
  | some p =>
    obtain ⟨head, rest⟩ := p
    rw [Modest, cutAt_append t hcut] at hmodest
    obtain ⟨hhead, hbody⟩ := hmodest
    have htotal : (parseReq s 0).total = 0 := by
      rw [next] at hwait
      split_ifs at hwait with hzero
      exact hzero
    cases hparse : parseHead head with
    | none =>
      simp only [parseReq, List.drop_zero, hcut, hparse] at htotal
      exact absurd htotal (by decide)
    | some q =>
      obtain ⟨ri, cl⟩ := q
      rw [parseReq_of_head (cutAt_append t hcut) hparse] at hbody
      rw [parseReq_of_head hcut hparse] at htotal
      simp only at hbody htotal
      generalize (if needsBody ri.method then cl else 0) = len at hbody htotal
      have hlen : len.toNat ≤ MAX_BULK_BODY.toNat := UInt64.le_iff_toNat_le.mp hbody
      have hsmall : head.length + 4 + MAX_BULK_BODY.toNat < sizeBound :=
        (Nat.add_le_add_right hhead _).trans_lt (by decide)
      have hadd : (UInt64.ofNat (head.length + 4) + len).toNat = head.length + 4 + len.toNat := by
        rw [UInt64.toNat_add, toNat_ofNat_of_lt (by omega), Nat.mod_eq_of_lt]
        rw [sizeBound] at hsmall
        omega
      split_ifs at htotal with hshort
      · rw [UInt64.lt_iff_toNat_lt, toNat_ofNat_of_lt (hle.trans_lt hB), hadd] at hshort
        omega
      · rw [htotal] at hadd
        exact absurd hadd (by change 0 ≠ _; omega)

/-! ## A thread's buffer -/

/-- The buffer of `conn_loop` after each `recv`, which is when it is longest. -/
def recvBufs (F : Frontend σ) : List Bytes → Conn σ → List Bytes
  | [], c => [c.buf]
  | piece :: pieces, c =>
    (c.buf ++ piece) :: match ({ c with buf := c.buf ++ piece } : Conn σ).round F with
      | (c, true) => recvBufs F pieces c
      | (_, false) => []

/-- A round that goes on leaves a buffer that was reached and in which the parser waits. -/
theorem round_goes_on (F : Frontend σ) {c : Conn σ} (hB : c.buf.length < sizeBound)
    (hgoes : (c.round F).2 = true) :
    Reaches (next F) c.buf (c.round F).1.buf ∧ next F (c.round F).1.buf = .wait := by
  obtain ⟨-, hiff, hbuf⟩ := round_spec F hB
  rw [hbuf hgoes]
  exact ⟨(Incremental.drain_ends (stable_next F) hB).1,
    Incremental.next_of_drain (stable_next F) hB (hiff.mp hgoes)⟩

theorem length_recvBufs (F : Frontend σ) {pieces : List Bytes} : ∀ {c : Conn σ},
    next F c.buf = .wait → (c.buf ++ pieces.flatten).length < sizeBound →
    (∀ r, Reaches (next F) (c.buf ++ pieces.flatten) r → Modest r) →
    (∀ piece ∈ pieces, piece.length ≤ READ_CAP) →
    ∀ b ∈ recvBufs F pieces c, b.length ≤ bufferLimit := by
  induction pieces with
  | nil =>
    intro c hwait hB hmodest _ b hb
    obtain rfl := List.mem_singleton.mp hb
    exact (length_le_of_wait hB hwait (hmodest _ (.refl _))).trans (Nat.le_add_right _ _)
  | cons piece pieces ih =>
    intro c hwait hB hmodest hcap b hb
    have hleft := length_le_of_wait hB hwait (hmodest _ (.refl _))
    rw [List.flatten_cons, ← List.append_assoc] at hB hmodest
    have hpiece : (c.buf ++ piece).length < sizeBound := by
      rw [List.length_append] at hB
      omega
    rw [recvBufs] at hb
    rcases List.mem_cons.mp hb with rfl | hb
    · rw [List.length_append]
      exact Nat.add_le_add hleft (hcap piece List.mem_cons_self)
    · have hround := round_goes_on F (c := { c with buf := c.buf ++ piece }) hpiece
      generalize Conn.round F { c with buf := c.buf ++ piece } = q at hb hround
      obtain ⟨c', go⟩ := q
      cases go with
      | false => exact absurd hb List.not_mem_nil
      | true =>
        obtain ⟨hreach, hwait'⟩ := hround rfl
        have hlonger := hreach.append (stable_next F) hB
        refine ih hwait' ?_ (fun r hr ↦ hmodest r (hlonger.trans hr))
          (fun p hp ↦ hcap p (List.mem_cons_of_mem _ hp)) b hb
        exact hlonger.suffix.length_le.trans_lt hB

/-! ## The buffer of an evented connection -/

namespace KqConn

variable {F : Frontend σ}

/-- A connection that is not closed by what it received has kept what the loop left. -/
theorem rbuf_receive {c : KqConn σ} {data : Bytes} (fin : Bool)
    (hB : (c.rbuf ++ data).length < sizeBound) : (c.receive F data fin).settle.closed = true ∨
    (c.receive F data fin).settle.rbuf
        = (drain (next F) (callOn F) c.v.core (c.rbuf ++ data)).2.1 ∧
      (drain (next F) (callOn F) c.v.core (c.rbuf ++ data)).2.2 ≠ some .malformed ∧
      (drain (next F) (callOn F) c.v.core (c.rbuf ++ data)).2.2 ≠ some .thrown := by
  obtain ⟨-, hrest, hstop⟩ := requests_spec F hB c.v
  rw [← hrest, ← hstop, (core_settle _).2, receive, handleAll]
  generalize requests F (c.rbuf ++ data) ((c.rbuf ++ data).length + 1) 0 c.v = q
  obtain ⟨v, parsed, o⟩ := q
  cases o with
  | none => exact .inr ⟨rfl, (Option.some_ne_none _).symm, (Option.some_ne_none _).symm⟩
  | some e =>
    cases e with
    | malformed => exact .inl rfl
    | tooLarge => exact .inr ⟨rfl, by simp, by simp⟩
    | close => exact .inr ⟨rfl, by simp, by simp⟩
    | thrown =>
      left
      rw [settle]
      split_ifs <;> rfl

/-- The handler ends the loop by throwing, or with the last request of the connection. -/
theorem callOn_ends {q : σ × List Request} {b : Request × Bool} {e : Stop}
    (h : (callOn F q b).2 = some e) : e = .thrown ∨ b.2 = false := by
  rw [callOn] at h
  split at h
  · exact .inl (Option.some.inj h).symm
  · right
    split_ifs at h with halive
    exact Bool.eq_false_iff.mpr halive

theorem next_eq_stop {s : Bytes} {e : Stop} (h : next F s = .stop e) :
    e = .malformed ∨ e = .tooLarge := by
  rw [next] at h
  split_ifs at h
  · exact .inl (Next.stop.inj h).symm
  · exact .inr (Next.stop.inj h).symm

/-- What the loop leaves of a stream that keeps to the limits, unless the connection is closed. -/
theorem length_drain_le {s t : Bytes} (hB : (s ++ t).length < sizeBound)
    (hmodest : ∀ r, Reaches (next F) (s ++ t) r → Modest r)
    (hends : ∀ r, Reaches (next F) (s ++ t) r → EndsSoon F r) (q : σ × List Request)
    (hmalformed : (drain (next F) (callOn F) q s).2.2 ≠ some .malformed)
    (hthrown : (drain (next F) (callOn F) q s).2.2 ≠ some .thrown) :
    (drain (next F) (callOn F) q s).2.1.length ≤ bufferLimit := by
  have hs : s.length < sizeBound := by
    rw [List.length_append] at hB
    omega
  -- What is found in what has been received is found in the stream.
  have hfound : ∀ {r : Bytes}, Reaches (next F) s r → Reaches (next F) (s ++ t) (r ++ t) ∧
      (r ++ t).length < sizeBound ∧ (next F r ≠ .wait → next F (r ++ t) = next F r) := by
    intro r hr
    have hlonger := hr.append (stable_next F) hB
    have hlt := hlonger.suffix.length_le.trans_lt hB
    exact ⟨hlonger, hlt, (stable_next F).append t hlt⟩
  obtain ⟨hreach, hend⟩ := @Incremental.drain_ends _ _ _ _ _ (callOn F) _ (stable_next F) q s hs
  rcases hend with ⟨-, hwait⟩ | ⟨e, he, hstop⟩ | ⟨r, b, n, q', e, hr, hitem, hact, hleft, he⟩
  · obtain ⟨hlonger, hlt, -⟩ := hfound hreach
    exact (length_le_of_wait hlt hwait (hmodest _ hlonger)).trans (Nat.le_add_right _ _)
  · obtain ⟨hlonger, -, hsame⟩ := hfound hreach
    rcases next_eq_stop hstop with rfl | rfl
    · exact absurd he hmalformed
    · rw [hstop] at hsame
      have hle := (hends _ hlonger).2 (hsame nofun)
      rw [List.length_append] at hle
      omega
  · obtain ⟨hlonger, -, hsame⟩ := hfound hr
    rcases callOn_ends hact with rfl | hlast
    · exact absurd he hthrown
    · rw [hitem] at hsame
      have hle := (hends _ hlonger).1 b n (hsame nofun) hlast
      rw [hleft]
      rw [List.length_drop, List.length_append] at hle
      rw [List.length_drop]
      omega

/-- One event: what a connection keeps was reached, and is within the limit. -/
theorem event_keeps {c : KqConn σ} {e : Event} {t : Bytes} (hlimit : c.rbuf.length ≤ bufferLimit)
    (hB : (c.rbuf ++ (e.data ++ t)).length < sizeBound)
    (hmodest : ∀ r, Reaches (next F) (c.rbuf ++ (e.data ++ t)) r → Modest r)
    (hends : ∀ r, Reaches (next F) (c.rbuf ++ (e.data ++ t)) r → EndsSoon F r) :
    (c.event F e).closed = true ∨ (c.event F e).rbuf.length ≤ bufferLimit ∧
      Reaches (next F) (c.rbuf ++ (e.data ++ t)) ((c.event F e).rbuf ++ t) := by
  cases e with
  | write eof taken =>
    rw [(event_write c eof taken).2.1]
    exact .inr ⟨hlimit, .refl _⟩
  | read eof data fin =>
    rw [← List.append_assoc] at hB hmodest hends ⊢
    have hdata : (c.rbuf ++ data).length < sizeBound := by
      rw [List.length_append] at hB
      exact (Nat.le_add_right _ _).trans_lt hB
    by_cases hclosed : c.closed = true
    · rw [event_closed hclosed]
      exact .inl hclosed
    rw [event_read (Bool.eq_false_iff.mpr hclosed)]
    split_ifs
    · exact .inl rfl
    · refine (rbuf_receive fin hdata).imp_right ?_
      rintro ⟨hrbuf, hmalformed, hthrown⟩
      rw [hrbuf]
      exact ⟨length_drain_le hB hmodest hends c.v.core hmalformed hthrown,
        (Incremental.drain_ends (stable_next F) hdata).1.append (stable_next F) hB⟩

/-- Event after event. -/
theorem length_rbuf_events {es : List Event} : ∀ {c : KqConn σ} {t : Bytes},
    c.rbuf.length ≤ bufferLimit → (c.rbuf ++ (streamOf es ++ t)).length < sizeBound →
    (∀ r, Reaches (next F) (c.rbuf ++ (streamOf es ++ t)) r → Modest r) →
    (∀ r, Reaches (next F) (c.rbuf ++ (streamOf es ++ t)) r → EndsSoon F r) →
    (c.events F es).closed = true ∨ (c.events F es).rbuf.length ≤ bufferLimit := by
  induction es with
  | nil => exact fun hlimit _ _ _ ↦ .inr hlimit
  | cons e es ih =>
    intro c t hlimit hB hmodest hends
    rw [streamOf_cons, List.append_assoc] at hB hmodest hends
    change ((c.event F e).events F es).closed = true ∨ _
    rcases event_keeps hlimit hB hmodest hends with hclosed | ⟨hlimit, hreach⟩
    · rw [events_closed hclosed]
      exact .inl hclosed
    · exact ih hlimit (hreach.suffix.length_le.trans_lt hB)
        (fun r hr ↦ hmodest r (hreach.trans hr)) fun r hr ↦ hends r (hreach.trans hr)

end KqConn

/-! ## What connections keep -/

/-- **The buffers of connections are bounded for clients that keep to the limits.** Take a stream in
which every head, or what there is of it, and every declared body are within their limits. However
it is cut into pieces, a thread's buffer is within the limit after each `recv`. If moreover no more
than the limit is left of the stream where a connection is to be closed, then what an evented
connection keeps is within the limit after each event, until it is closed. -/
theorem buffers_bounded (F : Frontend σ) (st : σ) {stream : Bytes} (hfits : stream.length < sizeBound)
    (hmodest : ∀ r, Reaches (next F) stream r → Modest r) :
    (∀ pieces : List Bytes, pieces.flatten = stream → (∀ piece ∈ pieces, piece.length ≤ READ_CAP) →
      ∀ b ∈ recvBufs F pieces { v := { st } }, b.length ≤ bufferLimit) ∧
    ((∀ r, Reaches (next F) stream r → EndsSoon F r) →
      ∀ es₁ es₂ : List Event, streamOf (es₁ ++ es₂) = stream →
        (KqConn.events F { v := { st } } es₁).closed = false →
        (KqConn.events F { v := { st } } es₁).rbuf.length ≤ bufferLimit) := by
  constructor
  · rintro pieces rfl hcap
    exact length_recvBufs F (next_nil F) hfits hmodest hcap
  · rintro hends es₁ es₂ rfl hopen
    rw [streamOf, List.flatMap_append] at hfits hmodest hends
    have hkept := @KqConn.length_rbuf_events _ F es₁ { v := { st } } _ (Nat.zero_le _) hfits hmodest
      hends
    rw [hopen] at hkept
    exact hkept.resolve_left Bool.false_ne_true

/-- A stream of one request, and two events that bring it. -/
def oneRequest : Bytes := lit "GET /a HTTP/1.1\r\n\r\n"

theorem reaches_oneRequest {r : Bytes} (h : Reaches (next plainFrontend) oneRequest r) :
    r = oneRequest ∨ r = [] := by
  have htotal : (parseReq oneRequest 0).total = 19 := by decide +kernel
  cases h with
  | refl => exact .inl rfl
  | @item _ _ b n hnext hrest =>
    rw [next, if_neg (by rw [htotal]; decide), if_neg (by rw [htotal]; decide),
      if_neg (by decide +kernel), htotal] at hnext
    obtain ⟨-, rfl⟩ := Next.item.inj hnext
    cases hrest with
    | refl => exact .inr rfl
    | item hnil _ =>
      have hdrop : oneRequest.drop (19 : UInt64).toNat = [] := by decide +kernel
      rw [hdrop, next_nil] at hnil
      exact nomatch hnil

theorem buffers_bounded_oneRequest :
    ([oneRequest.take 7, oneRequest.drop 7].flatten = oneRequest ∧
      ∀ b ∈ recvBufs plainFrontend [oneRequest.take 7, oneRequest.drop 7]
        { v := { st := openMemory } }, b.length ≤ bufferLimit) ∧
    (KqConn.events plainFrontend { v := { st := openMemory } }
      [.read false oneRequest false]).rbuf.length ≤ bufferLimit := by
  have hmodest : ∀ r, Reaches (next plainFrontend) oneRequest r → Modest r := by
    intro r hr
    rcases reaches_oneRequest hr with rfl | rfl <;> decide +kernel
  have hends : ∀ r, Reaches (next plainFrontend) oneRequest r → EndsSoon plainFrontend r := by
    intro r hr
    have hle : r.length ≤ bufferLimit := by
      rcases reaches_oneRequest hr with rfl | rfl <;> decide +kernel
    refine ⟨fun b n _ _ ↦ ?_, fun _ ↦ hle⟩
    rw [List.length_drop]
    exact (Nat.sub_le _ _).trans hle
  obtain ⟨hconn, hkq⟩ := buffers_bounded plainFrontend openMemory (by decide +kernel) hmodest
  exact ⟨⟨by decide +kernel, hconn _ (by decide +kernel) (by decide +kernel)⟩,
    hkq hends [.read false oneRequest false] [] (by decide +kernel) (by decide +kernel)⟩

/-- Bytes without a carriage return are kept. -/
theorem mem_recvBufs_of_endless (F : Frontend σ) {pieces : List Bytes} : ∀ {c : Conn σ},
    13 ∉ c.buf ++ pieces.flatten → c.buf ++ pieces.flatten ∈ recvBufs F pieces c := by
  induction pieces with
  | nil =>
    intro c _
    rw [List.flatten_nil, List.append_nil, recvBufs]
    exact List.mem_singleton_self _
  | cons piece pieces ih =>
    intro c hbytes
    rw [List.flatten_cons, ← List.append_assoc] at hbytes ⊢
    have hcut : cutAt (CRLF ++ CRLF) (c.buf ++ piece) = none := by
      rw [Option.eq_none_iff_forall_ne_some]
      rintro ⟨head, rest⟩ hcut
      refine hbytes (List.mem_append_left _ ?_)
      rw [cutAt_eq_some hcut]
      exact List.mem_append_left _ (List.mem_append_right _ List.mem_cons_self)
    have hround : ({ c with buf := c.buf ++ piece } : Conn σ).round F
        = ({ v := { c.v with out := [] }, buf := c.buf ++ piece, sent := c.sent ++ c.v.out }, true) := by
      rw [Conn.round, requests, if_pos (by simp only [parseReq, List.drop_zero, hcut])]
      rfl
    rw [recvBufs, hround]
    exact List.mem_cons_of_mem _ (ih hbytes)

/-- **A head without an end is kept.** A client that sends letters, in pieces of what one `recv`
takes, makes the buffer longer than the limit. -/
theorem endless_head_kept :
    (∀ piece ∈ List.replicate 19 (List.replicate READ_CAP (97 : UInt8)), piece.length ≤ READ_CAP) ∧
    ∃ b ∈ recvBufs plainFrontend (List.replicate 19 (List.replicate READ_CAP 97))
      { v := { st := openMemory } }, bufferLimit < b.length := by
  constructor
  · intro piece hpiece
    rw [List.eq_of_mem_replicate hpiece, List.length_replicate]
  · refine ⟨_, mem_recvBufs_of_endless plainFrontend ?_, ?_⟩
    · intro h
      rw [List.nil_append, List.flatten_replicate_replicate] at h
      exact absurd (List.eq_of_mem_replicate h) (by decide)
    · rw [List.nil_append, List.flatten_replicate_replicate, List.length_replicate]
      decide

end Shrt
