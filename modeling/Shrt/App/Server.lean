import Shrt.App.Links

/-!
# Requests and replies as bytes

What the two frontends share: reading one request from a connection's buffer (`parseReq`) and
writing a reply to it (`writeReply`). Sizes that come from a header are `size_t`, so that a negative
or huge content length wraps as it does in the source.

A request whose path is empty, or begins with a question mark, reaches the handler and makes it
throw (`handle_throws_iff`).
-/

namespace Shrt

/-! ## Reading a request -/

/-- The lines between `CRLF`s; the last one has none. -/
def headLines : Bytes → List Bytes
  | [] => [[]]
  | 13 :: 10 :: s => [] :: headLines s
  | b :: s => match headLines s with
    | [] => [[b]]
    | l :: ls => (b :: l) :: ls

/-- What is known of a request. -/
structure ReqInfo where
  /-- The bytes of head and body; `0` while they are not all there, and `SIZE_MAX` for a head that
  is no request. -/
  total : UInt64 := 0
  method : Bytes := []
  path : Bytes := []
  /-- `x-admin-token`. -/
  admin : Bytes := []
  /-- `x-forwarded-for`. -/
  xff : Bytes := []
  /-- Where the body starts. -/
  bodyOff : ℕ := 0
  /-- How long it is. -/
  bodyLen : UInt64 := 0
  /-- Whether the connection is kept. -/
  alive : Bool := true
  deriving DecidableEq

/-- `SIZE_MAX`. -/
def SIZE_MAX : UInt64 := 0xffffffffffffffff

/-- A header value without the blanks around it. -/
def trim (v : Bytes) : Bytes := (((v.dropWhile isBlank).reverse).dropWhile isBlank).reverse

/-- One header line, with the content length so far. -/
def header (p : ReqInfo × UInt64) (line : Bytes) : ReqInfo × UInt64 :=
  match cutAt [colon] line with
  | none => p
  | some (k, v) =>
    let v := trim v
    if k = lit "content-length" ∨ k = lit "Content-Length" then (p.1, (strtoll v).toUInt64)
    else if k = lit "connection" ∨ k = lit "Connection" then
      ({ p.1 with alive := !(v = lit "close" || v = lit "Close") }, p.2)
    else if k = lit "x-admin-token" ∨ k = lit "X-Admin-Token" then ({ p.1 with admin := v }, p.2)
    else if k = lit "x-forwarded-for" ∨ k = lit "X-Forwarded-For" then ({ p.1 with xff := v }, p.2)
    else p

/-- Whether a method has a body. -/
def needsBody (method : Bytes) : Bool := method = lit "POST" || method = lit "PATCH"

/-- The head of a request, without the empty line at its end; `none` when it is no request. -/
def parseHead (head : Bytes) : Option (ReqInfo × UInt64) := do
  let (method, r) ← cutAt [32] head
  let (path, r) ← cutAt [32] r
  match cutAt CRLF r with
  | none => return ({ method, path, alive := false }, 0)
  | some (ver, r) =>
    return (headLines r).foldl header ({ method, path, alive := ver = lit "HTTP/1.1" }, 0)

/-- `parse_req`: one request from position `pos` of a buffer. -/
def parseReq (buf : Bytes) (pos : ℕ) : ReqInfo :=
  match cutAt (CRLF ++ CRLF) (buf.drop pos) with
  | none => {}
  | some (head, _) => match parseHead head with
    | none => { total := SIZE_MAX }
    | some (ri, cl) =>
      let bodyLen := if needsBody ri.method then cl else 0
      let total := UInt64.ofNat (head.length + 4) + bodyLen
      { ri with
        bodyOff := pos + head.length + 4
        bodyLen
        total := if UInt64.ofNat (buf.length - pos) < total then 0 else total }

/-- `client_ip`: the first hop of `x-forwarded-for` behind a trusted proxy, or the peer. -/
def clientIp (trustProxy : Bool) (ri : ReqInfo) (peer : Bytes) : Bytes :=
  let first := ((((ri.xff.takeWhile (· ≠ comma)).dropWhile (· = 32)).reverse).dropWhile
    (· = 32)).reverse
  if trustProxy ∧ ri.xff ≠ [] ∧ first ≠ [] then first else peer

/-- The arguments the frontends pass to `handle`. -/
def ReqInfo.request (ri : ReqInfo) (buf : Bytes) (trustProxy : Bool) (peer : Bytes) : Request where
  method := ri.method
  path := ri.path
  body := if needsBody ri.method then (buf.drop ri.bodyOff).take ri.bodyLen.toNat else []
  token := ri.admin
  client := clientIp trustProxy ri peer

/-! ## Every request but one kind is answered -/

section Answers

variable {h : Host} {st : Store} {r : Request}

/-- The searches for free codes that a request starts come to an end. -/
def Returns (h : Host) (st : Store) (r : Request) : Prop :=
  (st.pickCode none h.rng).isSome = true ∧
    ∀ p js us, jparse r.body = some p → p.find (lit "urls") = some (.arr js) →
      bulkUrls js = some us → (st.shortenMany us h.linkTtlMs h.clk h.rng).isSome = true

theorem shortenOne_cases (p : J) : (∃ q, shortenOne h st p = .ok q) ∨
    st.pickCode none h.rng = none ∧ shortenOne h st p = .error .looping := by
  rw [shortenOne]
  split
  · exact .inl ⟨_, rfl⟩
  · split
    · exact .inl ⟨_, rfl⟩
    · rename_i al hal
      split
      · exact .inl ⟨_, rfl⟩
      · split
        · rename_i hnone
          rw [Store.shorten, Option.map_eq_none_iff] at hnone
          cases al with
          | none => exact .inr ⟨hnone, rfl⟩
          | some c => contradiction
        · exact .inl ⟨_, rfl⟩

theorem shortenBulk_cases (p : J) : (∃ q, shortenBulk h st p = .ok q) ∨
    ∃ js us, p.find (lit "urls") = some (.arr js) ∧ bulkUrls js = some us ∧
      st.shortenMany us h.linkTtlMs h.clk h.rng = none ∧ shortenBulk h st p = .error .looping := by
  rw [shortenBulk]
  split
  · rename_i js hfind
    split_ifs
    · exact .inl ⟨_, rfl⟩
    · split
      · exact .inl ⟨_, rfl⟩
      · rename_i us hus
        split
        · rename_i hnone
          exact .inr ⟨js, us, hfind, hus, hnone, rfl⟩
        · exact .inl ⟨_, rfl⟩
  · exact .inl ⟨_, rfl⟩

theorem routePost_cases : (∃ q, routePost h st r.pathname r.body r.client = .ok q) ∨
    ¬ Returns h st r ∧ routePost h st r.pathname r.body r.client = .error .looping := by
  rw [routePost]
  split
  · exact .inl ⟨_, rfl⟩
  · split
    · exact .inl ⟨_, rfl⟩
    · rename_i p hbody
      split
      · exact .inl ⟨_, rfl⟩
      · split
        · refine (shortenOne_cases p).imp_right ?_
          rintro ⟨hnone, heq⟩
          refine ⟨fun hret ↦ ?_, heq⟩
          have hone := hret.1
          rw [hnone] at hone
          contradiction
        · refine (shortenBulk_cases p).imp_right ?_
          rintro ⟨js, us, hfind, hus, hnone, heq⟩
          refine ⟨fun hret ↦ ?_, heq⟩
          have hmany := hret.2 p js us hbody hfind hus
          rw [hnone] at hmany
          contradiction

/-- **The three outcomes of a request.** -/
theorem handle_cases (h : Host) (st : Store) (r : Request) : (∃ q, handle h st r = .ok q) ∨
    (r.method = lit "GET" ∧ r.pathname = [] ∧ handle h st r = .error .outOfRange) ∨
    ¬ Returns h st r ∧ handle h st r = .error .looping := by
  rw [handle, route]
  split_ifs with hoptions hget hpost hm
  · exact .inl ⟨_, rfl⟩
  · rcases routeGet_eq r.pathname r.query with ⟨a, -, heq⟩ | ⟨-, heq⟩ | ⟨hnil, heq⟩
    · exact .inl ⟨_, heq⟩
    · exact .inl ⟨_, heq⟩
    · exact .inr (.inl ⟨hget, hnil, heq⟩)
  · exact routePost_cases.imp_right .inr
  · rcases routeMutate_eq r.method r.pathname r.body r.token with heq | ⟨code, -, -, heq⟩
    · exact .inl ⟨_, heq⟩
    · exact .inl ⟨_, heq⟩
  · exact .inl ⟨_, rfl⟩

theorem handle_eq_outOfRange (h : Host) (st : Store) (hget : r.method = lit "GET")
    (hnil : r.pathname = []) : handle h st r = .error .outOfRange := by
  rw [handle, route, if_neg (by rw [hget]; decide), if_pos hget, hnil]
  rfl

end Answers

/-- **Which requests are answered.** Whatever the state of the store and the request, the handler
throws exactly when a `GET` has nothing before the question mark of its path. Every other request is
answered, as long as the searches for free codes come to an end. -/
theorem handle_throws_iff (h : Host) (st : Store) (r : Request) :
    (handle h st r = .error .outOfRange ↔ r.method = lit "GET" ∧ r.pathname = []) ∧
    (Returns h st r → ¬ (r.method = lit "GET" ∧ r.pathname = []) →
      ∃ st' a, handle h st r = .ok (st', a)) := by
  refine ⟨⟨fun herr ↦ ?_, fun ⟨hget, hnil⟩ ↦ handle_eq_outOfRange h st hget hnil⟩,
    fun hret hne ↦ ?_⟩
  · rcases handle_cases h st r with ⟨q, heq⟩ | ⟨hget, hnil, -⟩ | ⟨-, heq⟩
    · exact nomatch heq.symm.trans herr
    · exact ⟨hget, hnil⟩
    · exact nomatch heq.symm.trans herr
  · rcases handle_cases h st r with ⟨q, heq⟩ | ⟨hget, hnil, -⟩ | ⟨hno, -⟩
    · exact ⟨q.1, q.2, heq⟩
    · exact absurd ⟨hget, hnil⟩ hne
    · exact absurd hret hno

/-- A host with one draw left. -/
def oneDraw : Host := { rng := [fun _ ↦ 0] }

theorem handle_throws_iff_postA : ∃ st a, handle oneDraw openMemory postA = .ok (st, a) := by
  refine (handle_throws_iff oneDraw openMemory postA).2 ⟨by decide +kernel, ?_⟩ (by decide)
  intro p js us hbody hfind
  obtain ⟨q, hq, hno⟩ : ∃ q, jparse postA.body = some q ∧ (q.find (lit "urls")).isNone = true := by
    decide +kernel
  obtain rfl := Option.some.inj (hq.symm.trans hbody)
  rw [hfind] at hno
  exact nomatch hno

/-- A request for no path, as bytes. -/
def getNothing : Bytes := lit "GET  HTTP/1.1\r\n\r\n"

theorem getNothing_throws : (parseReq getNothing 0).total = 17 ∧
    handle {} openMemory ((parseReq getNothing 0).request getNothing false []) =
      .error .outOfRange :=
  ⟨by decide +kernel, handle_eq_outOfRange _ _ (by decide +kernel) (by decide +kernel)⟩

end Shrt
