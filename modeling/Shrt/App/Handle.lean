import Shrt.App.Json
import Shrt.Codec.RoundTrip
import Shrt.Store.Listing

/-!
# Requests

The request handler: validation, the routes, and the replies. What it reads from outside is a
`Host`: the clock, the environment variables, the verdict of the rate limiter, the texts of the
metrics and of the page it serves. The counters of the metrics are not modelled, since no reply but
those texts depends on them.

A handler can fail to answer in two ways (`Escape`): `std::string::substr` throws when it is given a
position behind the end of the string, and a search for a free code may go on for ever.

`Serves` says once what a request can do to the store and what it is answered. All results about
requests are derived from it.
-/

namespace Shrt

open Store (Link MutResult Sorter)

/-! ## Validation -/

/-- A url after its scheme. -/
def afterScheme (u : Bytes) : Option Bytes :=
  if lit "http://" <+: u then some (u.drop 7)
  else if lit "https://" <+: u then some (u.drop 8)
  else none

/-- The bytes that end the host of a url. -/
def endsHost (b : UInt8) : Bool := b = 47 || b = 63 || b = 35

/-- A byte that a host may hold. -/
def hostByte (b : UInt8) : Bool := b ≠ 32 && b ≠ dquote && b ≠ bslash && 33 ≤ b

/-- `is_valid_url`, which looks at no byte behind the host. -/
def isValidUrl (u : Bytes) : Bool :=
  if u = [] ∨ 2048 < u.length then false
  else match afterScheme u with
    | none => false
    | some r =>
      let host := r.takeWhile (!endsHost ·)
      !host.isEmpty && host.all hostByte

/-- `ok_bulk_url`. -/
def okBulkUrl (u : Bytes) : Bool :=
  if u.length ≤ 7 ∨ 2048 < u.length then false
  else (afterScheme u).isSome && u.all fun b ↦ b ≠ dquote && b ≠ bslash && b ≠ 10 && b ≠ 13

/-! ## Query strings -/

/-- `url_decode`. -/
def urlDecode : Bytes → Bytes
  | 37 :: a :: b :: r => match hexVal a, hexVal b with
    | some hi, some lo => UInt8.ofNat (hi * 16 + lo) :: urlDecode r
    | _, _ => 37 :: urlDecode (a :: b :: r)
  | b :: r => (if b = 43 then 32 else b) :: urlDecode r
  | [] => []

/-- One `key=value` of a query, put into the map. -/
def addParam (m : AList fun _ : Bytes ↦ Bytes) (kv : Bytes) : AList fun _ : Bytes ↦ Bytes :=
  match kv.dropWhile (· ≠ 61) with
  | _ :: v => m.insert (urlDecode (kv.takeWhile (· ≠ 61))) (urlDecode v)
  | [] => m

/-- `parse_query`. -/
def parseQuery (q : Bytes) : AList fun _ : Bytes ↦ Bytes := (q.splitOn 38).foldl addParam ∅

/-! ## Replies -/

/-- A reply, before it is written to the connection. -/
structure Reply where
  /-- The status code. -/
  status : ℕ
  /-- The redirect target. -/
  location : Option Bytes := none
  /-- The body. -/
  body : Bytes := []
  /-- The content type, when it is not JSON. -/
  ctype : Option Bytes := none
  deriving DecidableEq

/-- A reply that redirects nowhere, and is JSON or of one of the other types that the handler
knows. -/
def Reply.Plain (a : Reply) : Prop :=
  a.location = none ∧
    ∀ t ∈ a.ctype, t = lit "text/plain; version=0.0.4" ∨ t = lit "text/html; charset=utf-8"

/-- A JSON reply. -/
def mk (status : ℕ) (body : Bytes) : Reply := { status, body }

/-- An error. -/
def bad (err : Bytes) : Reply := mk 400 (lit "\x7b\"error\":\"" ++ err ++ lit "\"\x7d")

/-- `not_found`. -/
def notFound : Reply := mk 404 (lit "\x7b\"error\":\"not found\"\x7d")

/-- `link_json`. -/
def linkJson (l : Link) : Bytes :=
  lit "\x7b\"code\":\"" ++ l.code ++ lit "\",\"url\":\""
    ++ l.url.flatMap (fun b ↦ if b = dquote ∨ b = bslash then [bslash, b] else [b])
    ++ lit "\",\"hits\":" ++ itoa l.hits ++ lit ",\"created_at\":" ++ itoa l.createdAt
    ++ lit ",\"expires_at\":" ++ (if l.expiresAt ≠ 0 then itoa l.expiresAt else lit "null")
    ++ lit "\x7d"

/-- Texts with commas between them. -/
def commas (xs : List Bytes) : Bytes := (xs.intersperse [comma]).flatten

/-! ## What a request reads from outside -/

/-- The surroundings of one request. -/
structure Host where
  /-- The clock. -/
  clk : Clock := fun _ ↦ 0
  /-- The order of hash map walks. -/
  ord : Order := fun _ ↦ 0
  /-- Words of the random generator. -/
  rng : List Draw := []
  /-- `TRACK_HITS`. -/
  track : Bool := true
  /-- The variable `LINK_TTL_MS`. -/
  linkTtl : Option Bytes := none
  /-- The variable `ADMIN_TOKEN`. -/
  adminToken : Option Bytes := none
  /-- The verdict of the rate limiter on a client and a cost. -/
  allow : Bytes → ℕ → Bool := fun _ _ ↦ true
  /-- The text of `metrics::snapshot`. -/
  snapshot : Bytes := []
  /-- The text of `metrics::prometheus`. -/
  prometheus : Bytes := []
  /-- The page `ui/index.html`, empty when there is none. -/
  ui : Bytes := []
  /-- What `std::sort` does. -/
  sorter : Sorter := fun _ ls ↦ ls
  /-- What becomes of a number that no `int64_t` stands for. -/
  undef : Double → Int64 := fun _ ↦ 0

/-- `env_i64`. -/
def envI64 (v : Option Bytes) (dflt : Int64) : Int64 := match v with
  | none | some [] => dflt
  | some v => strtoll v

/-- `link_ttl_ms`. -/
def Host.linkTtlMs (h : Host) : Int64 := envI64 h.linkTtl 86400000

/-- `admin_ok`. -/
def Host.adminOk (h : Host) (token : Bytes) : Bool := match h.adminToken with
  | none | some [] => false
  | some want => token = want

/-- What the handler is given of a request. -/
structure Request where
  method : Bytes
  path : Bytes
  body : Bytes := []
  token : Bytes := []
  client : Bytes := []

/-- The path up to any question mark. -/
def Request.pathname (r : Request) : Bytes := r.path.takeWhile (· ≠ 63)

/-- The path behind it. -/
def Request.query (r : Request) : Bytes := (r.path.dropWhile (· ≠ 63)).drop 1

/-- Ways not to answer. -/
inductive Escape where
  /-- `std::out_of_range`. -/
  | outOfRange
  /-- A loop that has not ended. -/
  | looping
  deriving DecidableEq

/-- `s.substr(k)`. -/
def substr (s : Bytes) (k : ℕ) : Except Escape Bytes :=
  if k ≤ s.length then .ok (s.drop k) else .error .outOfRange

/-- The store after a request, and the reply. -/
abbrev Handled := Except Escape (Store × Reply)

/-! ## Handlers -/

/-- `MAX_BULK_URLS`. -/
def MAX_BULK_URLS : ℕ := 10000

/-- `MAX_LIST_LIMIT`. -/
def MAX_LIST_LIMIT : Int64 := 1000

/-- The `ttl_ms` a link is created with: the configured one, or a smaller one that was asked for.
Nothing when what was asked for is refused. -/
def ttlOf (h : Host) (p : J) : Option Int64 := match p.find (lit "ttl_ms") with
  | none => some h.linkTtlMs
  | some (.num x) => if x.nonpos then none else some (min (x.toInt64 h.undef) h.linkTtlMs)
  | some _ => none

/-- The alias a link is created under, if any; nothing when it is refused. -/
def aliasOf (p : J) : Option (Option Bytes) := match p.find (lit "alias") with
  | some (.str a) => if codeOk a then some (some a) else none
  | _ => some none

/-- The `url` member, when it is a string that `is_valid_url` takes. -/
def urlOf (p : J) : Option Bytes := match p.find (lit "url") with
  | some (.str u) => if isValidUrl u then some u else none
  | _ => none

/-- The reply to a creation, which has no code when the alias is taken. -/
def created : Option Bytes → Reply
  | none => mk 409 (lit "\x7b\"error\":\"alias taken\"\x7d")
  | some code =>
    mk 201 (lit "\x7b\"code\":\"" ++ code ++ lit "\",\"short_url\":\"/" ++ code ++ lit "\"\x7d")

/-- `shorten_one`. -/
def shortenOne (h : Host) (st : Store) (p : J) : Handled :=
  match urlOf p with
  | none => .ok (st, bad (lit "invalid url"))
  | some u => match aliasOf p with
    | none => .ok (st, bad (lit "invalid alias"))
    | some al => match ttlOf h p with
      | none => .ok (st, bad (lit "invalid ttl_ms"))
      | some ttl => match st.shorten u al ttl h.clk h.rng with
        | none => .error .looping
        | some (st, code) => .ok (st, created code)

/-- The urls of a bulk request, when all of them are strings that `ok_bulk_url` takes. -/
def bulkUrls : List J → Option (List Bytes)
  | [] => some []
  | .str u :: js => if okBulkUrl u then (bulkUrls js).map (u :: ·) else none
  | _ :: _ => none

/-- The reply to a bulk creation. -/
def createdMany (codes : List Bytes) : Reply :=
  mk 201 (lit "\x7b\"count\":" ++ itoa (Int64.ofNat codes.length) ++ lit ",\"codes\":["
    ++ commas (codes.map fun c ↦ [dquote] ++ c ++ [dquote]) ++ lit "]\x7d")

/-- `shorten_bulk`. -/
def shortenBulk (h : Host) (st : Store) (p : J) : Handled :=
  let msg := lit "urls must be 1-" ++ itoa (Int64.ofNat MAX_BULK_URLS) ++ lit " valid http(s) urls"
  match p.find (lit "urls") with
  | some (.arr js) =>
    if js = [] ∨ MAX_BULK_URLS < js.length then .ok (st, bad msg)
    else match bulkUrls js with
      | none => .ok (st, bad msg)
      | some us => match st.shortenMany us h.linkTtlMs h.clk h.rng with
        | none => .error .looping
        | some (st, codes) => .ok (st, createdMany codes)
  | _ => .ok (st, bad msg)

/-- `GET /api/links`. -/
def getLinks (h : Host) (st : Store) (query : Bytes) : Reply :=
  let p := parseQuery query
  let limit := match p.lookup (lit "limit") with
    | some v => if strtoll v ≠ 0 then strtoll v else 50
    | none => 50
  let limit := max 1 (min limit MAX_LIST_LIMIT)
  let offset := match p.lookup (lit "offset") with
    | some v => if 0 < strtoll v then strtoll v else 0
    | none => 0
  let sort := if p.lookup (lit "sort") = some (lit "hits") then lit "hits" else lit "created"
  let q := (p.lookup (lit "q")).getD []
  let r := st.list h.ord h.sorter limit.toUInt64 offset.toUInt64 sort q
  mk 200 (lit "\x7b\"links\":[" ++ commas (r.1.map linkJson) ++ lit "],\"total\":"
    ++ itoa (Int64.ofNat r.2) ++ lit "\x7d")

/-- `GET /api/stats/<code>`. -/
def getStats (st : Store) (code : Bytes) : Reply := match st.stats code with
  | none => notFound
  | some link => mk 200 (linkJson link)

/-- The redirect. -/
def getCode (h : Host) (st : Store) (code : Bytes) : Store × Reply :=
  if codeOk code then
    match st.resolve code h.clk h.track h.ord with
    | (st, some target) => (st, { status := 302, location := some target })
    | (st, none) => (st, notFound)
  else (st, notFound)

/-- The `GET` branch of `route`. -/
def routeGet (h : Host) (st : Store) (pathname query : Bytes) : Handled :=
  if pathname = lit "/api/health" then .ok (st, mk 200 (lit "\x7b\"ok\":true\x7d"))
  else if pathname = lit "/api/metrics" then .ok (st, mk 200 h.snapshot)
  else if pathname = lit "/metrics" then
    .ok (st, { status := 200, body := h.prometheus, ctype := some (lit "text/plain; version=0.0.4") })
  else if pathname = lit "/" then
    if h.ui = [] then .ok (st, notFound)
    else .ok (st, { status := 200, body := h.ui, ctype := some (lit "text/html; charset=utf-8") })
  else if pathname = lit "/api/links" then .ok (st, getLinks h st query)
  else if lit "/api/stats/" <+: pathname then do
    let code ← substr pathname 11
    return (st, getStats st code)
  else do
    let code ← substr pathname 1
    return getCode h st code

/-- What a request costs at the rate limiter. -/
def cost (pathname : Bytes) (p : J) : ℕ :=
  if pathname = lit "/api/shorten/bulk" then
    match p.find (lit "urls") with
    | some (.arr js) => max 1 js.length
    | _ => 1
  else 1

/-- The `POST` branch of `route`. -/
def routePost (h : Host) (st : Store) (pathname body client : Bytes) : Handled :=
  if pathname ≠ lit "/api/shorten" ∧ pathname ≠ lit "/api/shorten/bulk" then .ok (st, notFound)
  else match jparse body with
    | none => .ok (st, bad (lit "invalid json"))
    | some p =>
      if !h.allow client (cost pathname p) then
        .ok (st, mk 429 (lit "\x7b\"error\":\"rate limited\"\x7d"))
      else if pathname = lit "/api/shorten" then shortenOne h st p
      else shortenBulk h st p

/-- The reply to `update` or `remove`. -/
def mutReply (done : Reply) : MutResult → Reply
  | .ok => done
  | .missing => notFound
  | .remote => mk 409 (lit "\x7b\"error\":\"owned by another instance\"\x7d")

/-- The `ttl_ms` of an update. Only numbers count, and none of them is refused. -/
def newTtl (h : Host) (p : J) : Option Int64 := match p.find (lit "ttl_ms") with
  | some (.num x) => some (min (x.toInt64 h.undef) h.linkTtlMs)
  | _ => none

/-- The body of a `PATCH`. -/
def patch (h : Host) (st : Store) (code : Bytes) (p : J) : Store × Reply :=
  match p.find (lit "url") with
  | none => (st, bad (lit "nothing to update"))
  | some _ => match urlOf p with
    | none => (st, bad (lit "invalid url"))
    | some u =>
      let r := st.update code u ((newTtl h p).getD 0) (newTtl h p).isSome h.clk
      (r.1, mutReply (mk 200 (lit "\x7b\"ok\":true\x7d")) r.2)

/-- A `PATCH` or `DELETE` of one code. -/
def mutate (h : Host) (st : Store) (method code body : Bytes) : Store × Reply :=
  if codeOk code = false then (st, bad (lit "invalid code"))
  else if method = lit "DELETE" then
    ((st.remove code).1, mutReply { status := 204 } (st.remove code).2)
  else match jparse body with
    | none => (st, bad (lit "invalid json"))
    | some p => patch h st code p

/-- The `PATCH` and `DELETE` branch of `route`. -/
def routeMutate (h : Host) (st : Store) (method pathname body token : Bytes) : Handled :=
  if ¬ lit "/api/links/" <+: pathname ∨ h.adminOk token = false then .ok (st, notFound)
  else do
    let code ← substr pathname 11
    return mutate h st method code body

/-- `route`. -/
def route (h : Host) (st : Store) (r : Request) : Handled :=
  if r.method = lit "OPTIONS" then .ok (st, { status := 204 })
  else if r.method = lit "GET" then routeGet h st r.pathname r.query
  else if r.method = lit "POST" then routePost h st r.pathname r.body r.client
  else if r.method = lit "PATCH" ∨ r.method = lit "DELETE" then
    routeMutate h st r.method r.pathname r.body r.token
  else .ok (st, notFound)

/-- `handle`. -/
def handle (h : Host) (st : Store) (r : Request) : Handled := route h st r

/-! ## What a request can do -/

/-- The ways in which a request is served: the store after it, and the reply. -/
inductive Serves (h : Host) (st : Store) (r : Request) : Store → Reply → Prop
  /-- The store is not changed. -/
  | answer {a : Reply} (hplain : a.Plain) : Serves h st r st a
  /-- A link is found. -/
  | redirect {code st' target} (hget : r.method = lit "GET") (hcode : codeOk code = true)
      (hres : st.resolve code h.clk h.track h.ord = (st', some target)) :
      Serves h st r st' { status := 302, location := some target }
  /-- No link is found. -/
  | miss {code st'} (hget : r.method = lit "GET") (hcode : codeOk code = true)
      (hres : st.resolve code h.clk h.track h.ord = (st', none)) : Serves h st r st' notFound
  /-- A link is created, unless the alias is taken. -/
  | create {p u al ttl st' code} (hpost : r.method = lit "POST")
      (hpath : r.pathname = lit "/api/shorten") (hbody : jparse r.body = some p)
      (hurl : urlOf p = some u) (hal : aliasOf p = some al) (httl : ttlOf h p = some ttl)
      (hnew : st.shorten u al ttl h.clk h.rng = some (st', code)) : Serves h st r st' (created code)
  /-- Links are created in bulk. -/
  | createMany {p js us st' codes} (hpost : r.method = lit "POST")
      (hpath : r.pathname = lit "/api/shorten/bulk") (hbody : jparse r.body = some p)
      (hfind : p.find (lit "urls") = some (.arr js)) (hne : js ≠ [])
      (hmax : js.length ≤ MAX_BULK_URLS) (hurls : bulkUrls js = some us)
      (hnew : st.shortenMany us h.linkTtlMs h.clk h.rng = some (st', codes)) :
      Serves h st r st' (createdMany codes)
  /-- A link is changed. -/
  | update {code p u} (hmethod : r.method = lit "PATCH")
      (hpath : r.pathname = lit "/api/links/" ++ code) (hadmin : h.adminOk r.token = true)
      (hcode : codeOk code = true) (hbody : jparse r.body = some p) (hurl : urlOf p = some u) :
      Serves h st r (st.update code u ((newTtl h p).getD 0) (newTtl h p).isSome h.clk).1
        (mutReply (mk 200 (lit "\x7b\"ok\":true\x7d"))
          (st.update code u ((newTtl h p).getD 0) (newTtl h p).isSome h.clk).2)
  /-- A link is removed. -/
  | remove {code} (hmethod : r.method = lit "DELETE")
      (hpath : r.pathname = lit "/api/links/" ++ code) (hadmin : h.adminOk r.token = true)
      (hcode : codeOk code = true) :
      Serves h st r (st.remove code).1 (mutReply { status := 204 } (st.remove code).2)

section Serves

variable {h : Host} {st st' : Store} {r : Request} {a : Reply}

theorem substr_eq_ok {s : Bytes} {k : ℕ} (hk : k ≤ s.length) : substr s k = .ok (s.drop k) :=
  if_pos hk

/-- A path that begins with a text is long enough to be cut behind it. -/
theorem substr_of_starts {w s : Bytes} {k : ℕ} (hw : w <+: s) (hk : w.length = k) :
    substr s k = .ok (s.drop k) := substr_eq_ok (hk ▸ hw.length_le)

theorem append_drop_of_starts {w s : Bytes} {k : ℕ} (hw : w <+: s) (hk : w.length = k) :
    s = w ++ s.drop k := hk ▸ (List.prefix_iff_eq_append.mp hw).symm

theorem plain_mk (status : ℕ) (body : Bytes) : (mk status body).Plain := ⟨rfl, nofun⟩

/-- A `GET` is answered unless its path has no first byte to leave out. -/
theorem routeGet_eq (pathname query : Bytes) :
    (∃ a : Reply, a.Plain ∧ routeGet h st pathname query = .ok (st, a)) ∨
    (pathname ≠ [] ∧ routeGet h st pathname query = .ok (getCode h st (pathname.drop 1))) ∨
    (pathname = [] ∧ routeGet h st pathname query = .error .outOfRange) := by
  rw [routeGet]
  split_ifs with _ _ _ _ _ _ hstats
  · exact .inl ⟨_, plain_mk _ _, rfl⟩
  · exact .inl ⟨_, plain_mk _ _, rfl⟩
  · exact .inl ⟨_, ⟨rfl, fun _ ht ↦ .inl (Option.some.inj ht).symm⟩, rfl⟩
  · exact .inl ⟨_, plain_mk _ _, rfl⟩
  · exact .inl ⟨_, ⟨rfl, fun _ ht ↦ .inr (Option.some.inj ht).symm⟩, rfl⟩
  · exact .inl ⟨_, plain_mk _ _, rfl⟩
  · refine .inl ⟨getStats st (pathname.drop 11), ?_, ?_⟩
    · rw [getStats]
      split <;> exact ⟨rfl, nofun⟩
    · rw [substr_of_starts hstats (by decide)]
      rfl
  · rcases eq_or_ne pathname [] with rfl | hne
    · exact .inr (.inr ⟨rfl, rfl⟩)
    · refine .inr (.inl ⟨hne, ?_⟩)
      rw [substr_eq_ok (List.length_pos_of_ne_nil hne)]
      rfl

theorem plain_mutReply {done : Reply} (hdone : done.Plain) (m : MutResult) :
    (mutReply done m).Plain := by
  cases m with
  | ok => exact hdone
  | _ => exact ⟨rfl, nofun⟩

theorem plain_created (code : Option Bytes) : (created code).Plain := by
  cases code <;> exact ⟨rfl, nofun⟩

theorem serves_of_getCode {code : Bytes} (hget : r.method = lit "GET")
    (hcode : getCode h st code = (st', a)) : Serves h st r st' a := by
  rw [getCode] at hcode
  split_ifs at hcode with hok
  · split at hcode
    · rename_i hres
      obtain ⟨rfl, rfl⟩ := Prod.mk.inj hcode
      exact .redirect hget hok hres
    · rename_i hres
      obtain ⟨rfl, rfl⟩ := Prod.mk.inj hcode
      exact .miss hget hok hres
  · obtain ⟨rfl, rfl⟩ := Prod.mk.inj hcode
    exact .answer ⟨rfl, nofun⟩

theorem serves_of_routeGet (hget : r.method = lit "GET")
    (hr : routeGet h st r.pathname r.query = .ok (st', a)) : Serves h st r st' a := by
  rcases routeGet_eq r.pathname r.query with ⟨b, hplain, heq⟩ | ⟨-, heq⟩ | ⟨-, heq⟩ <;>
    rw [heq] at hr
  · obtain ⟨rfl, rfl⟩ := Prod.mk.inj (Except.ok.inj hr)
    exact .answer hplain
  · exact serves_of_getCode hget (Except.ok.inj hr)
  · exact nomatch hr

theorem serves_of_shortenOne {p : J} (hpost : r.method = lit "POST")
    (hpath : r.pathname = lit "/api/shorten") (hbody : jparse r.body = some p)
    (hr : shortenOne h st p = .ok (st', a)) : Serves h st r st' a := by
  rw [shortenOne] at hr
  split at hr
  · obtain ⟨rfl, rfl⟩ := Prod.mk.inj (Except.ok.inj hr)
    exact .answer ⟨rfl, nofun⟩
  · rename_i u hurl
    split at hr
    · obtain ⟨rfl, rfl⟩ := Prod.mk.inj (Except.ok.inj hr)
      exact .answer ⟨rfl, nofun⟩
    · rename_i al hal
      split at hr
      · obtain ⟨rfl, rfl⟩ := Prod.mk.inj (Except.ok.inj hr)
        exact .answer ⟨rfl, nofun⟩
      · rename_i ttl httl
        split at hr
        · exact nomatch hr
        · rename_i st₁ code hnew
          obtain ⟨rfl, rfl⟩ := Prod.mk.inj (Except.ok.inj hr)
          exact .create hpost hpath hbody hurl hal httl hnew

theorem serves_of_shortenBulk {p : J} (hpost : r.method = lit "POST")
    (hpath : r.pathname = lit "/api/shorten/bulk") (hbody : jparse r.body = some p)
    (hr : shortenBulk h st p = .ok (st', a)) : Serves h st r st' a := by
  rw [shortenBulk] at hr
  split at hr
  · rename_i js hfind
    split_ifs at hr with hsize
    · obtain ⟨rfl, rfl⟩ := Prod.mk.inj (Except.ok.inj hr)
      exact .answer ⟨rfl, nofun⟩
    · rw [not_or, not_lt] at hsize
      split at hr
      · obtain ⟨rfl, rfl⟩ := Prod.mk.inj (Except.ok.inj hr)
        exact .answer ⟨rfl, nofun⟩
      · rename_i us hurls
        split at hr
        · exact nomatch hr
        · rename_i st₁ codes hnew
          obtain ⟨rfl, rfl⟩ := Prod.mk.inj (Except.ok.inj hr)
          exact .createMany hpost hpath hbody hfind hsize.1 hsize.2 hurls hnew
  · obtain ⟨rfl, rfl⟩ := Prod.mk.inj (Except.ok.inj hr)
    exact .answer ⟨rfl, nofun⟩

theorem serves_of_routePost (hpost : r.method = lit "POST")
    (hr : routePost h st r.pathname r.body r.client = .ok (st', a)) : Serves h st r st' a := by
  rw [routePost] at hr
  split at hr
  · obtain ⟨rfl, rfl⟩ := Prod.mk.inj (Except.ok.inj hr)
    exact .answer ⟨rfl, nofun⟩
  · rename_i hpath
    split at hr
    · obtain ⟨rfl, rfl⟩ := Prod.mk.inj (Except.ok.inj hr)
      exact .answer ⟨rfl, nofun⟩
    · rename_i p hbody
      split_ifs at hr with hlimit hone
      · obtain ⟨rfl, rfl⟩ := Prod.mk.inj (Except.ok.inj hr)
        exact .answer ⟨rfl, nofun⟩
      · exact serves_of_shortenOne hpost hone hbody hr
      · have hbulk : r.pathname = lit "/api/shorten/bulk" :=
          not_not.mp fun hne ↦ hpath ⟨hone, hne⟩
        exact serves_of_shortenBulk hpost hbulk hbody hr

theorem serves_of_patch {code : Bytes} {p : J} (hmethod : r.method = lit "PATCH")
    (hpath : r.pathname = lit "/api/links/" ++ code) (hadmin : h.adminOk r.token = true)
    (hcode : codeOk code = true) (hbody : jparse r.body = some p)
    (hr : patch h st code p = (st', a)) : Serves h st r st' a := by
  rw [patch] at hr
  split at hr
  · obtain ⟨rfl, rfl⟩ := Prod.mk.inj hr
    exact .answer ⟨rfl, nofun⟩
  · split at hr
    · obtain ⟨rfl, rfl⟩ := Prod.mk.inj hr
      exact .answer ⟨rfl, nofun⟩
    · rename_i u hurl
      obtain ⟨rfl, rfl⟩ := Prod.mk.inj hr
      exact .update hmethod hpath hadmin hcode hbody hurl

theorem serves_of_mutate {code : Bytes} (hm : r.method = lit "PATCH" ∨ r.method = lit "DELETE")
    (hpath : r.pathname = lit "/api/links/" ++ code) (hadmin : h.adminOk r.token = true)
    (hr : mutate h st r.method code r.body = (st', a)) : Serves h st r st' a := by
  rw [mutate] at hr
  split at hr
  · obtain ⟨rfl, rfl⟩ := Prod.mk.inj hr
    exact .answer ⟨rfl, nofun⟩
  · rename_i hcode
    rw [Bool.not_eq_false] at hcode
    split at hr
    · rename_i hdelete
      obtain ⟨rfl, rfl⟩ := Prod.mk.inj hr
      exact .remove hdelete hpath hadmin hcode
    · rename_i hdelete
      split at hr
      · obtain ⟨rfl, rfl⟩ := Prod.mk.inj hr
        exact .answer ⟨rfl, nofun⟩
      · rename_i p hbody
        exact serves_of_patch (hm.resolve_right hdelete) hpath hadmin hcode hbody hr

/-- A `PATCH` or `DELETE` is always answered. -/
theorem routeMutate_eq (method pathname body token : Bytes) :
    routeMutate h st method pathname body token = .ok (st, notFound) ∨
    ∃ code, pathname = lit "/api/links/" ++ code ∧ h.adminOk token = true ∧
      routeMutate h st method pathname body token = .ok (mutate h st method code body) := by
  rw [routeMutate]
  split_ifs with hclosed
  · exact .inl rfl
  · rw [not_or, not_not, Bool.not_eq_false] at hclosed
    refine .inr ⟨pathname.drop 11, append_drop_of_starts hclosed.1 (by decide), hclosed.2, ?_⟩
    rw [substr_of_starts hclosed.1 (by decide)]
    rfl

theorem serves_of_routeMutate (hm : r.method = lit "PATCH" ∨ r.method = lit "DELETE")
    (hr : routeMutate h st r.method r.pathname r.body r.token = .ok (st', a)) :
    Serves h st r st' a := by
  rcases routeMutate_eq r.method r.pathname r.body r.token with heq | ⟨code, hpath, hadmin, heq⟩ <;>
    rw [heq] at hr
  · obtain ⟨rfl, rfl⟩ := Prod.mk.inj (Except.ok.inj hr)
    exact .answer ⟨rfl, nofun⟩
  · exact serves_of_mutate hm hpath hadmin (Except.ok.inj hr)

/-- **Every request that is answered is served in one of these ways.** -/
theorem serves_of_handle (hr : handle h st r = .ok (st', a)) : Serves h st r st' a := by
  rw [handle, route] at hr
  split_ifs at hr with hoptions hget hpost hm
  · obtain ⟨rfl, rfl⟩ := Prod.mk.inj (Except.ok.inj hr)
    exact .answer ⟨rfl, nofun⟩
  · exact serves_of_routeGet hget hr
  · exact serves_of_routePost hpost hr
  · exact serves_of_routeMutate hm hr
  · obtain ⟨rfl, rfl⟩ := Prod.mk.inj (Except.ok.inj hr)
    exact .answer ⟨rfl, nofun⟩

end Serves

end Shrt
