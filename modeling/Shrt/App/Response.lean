import Shrt.App.Server
import Shrt.Lib.HttpMessage

/-!
# No response splitting

Urls enter through a JSON reader that turns escapes into control bytes, are checked in three
different ways, and leave in a `location` header. The check of bulk urls refuses line ends and
`is_valid_url` looks at the host only, so a url with a line end behind its host is stored, and the
redirect to it is read as a response with further headers (`location_splits`).

When the urls of single creations and updates hold no line ends, no stored url does, and every reply
is read back as the one response that `write_reply` means (`reply_read_back`).
-/

namespace Shrt

open HttpMessage (Clean Message)
open Transition (run)

/-! ## Writing a reply -/

/-- The text of a status line. -/
def statusText : ℕ → Bytes
  | 200 => lit "HTTP/1.1 200 OK"
  | 201 => lit "HTTP/1.1 201 Created"
  | 204 => lit "HTTP/1.1 204 No Content"
  | 302 => lit "HTTP/1.1 302 Found"
  | 400 => lit "HTTP/1.1 400 Bad Request"
  | 404 => lit "HTTP/1.1 404 Not Found"
  | 409 => lit "HTTP/1.1 409 Conflict"
  | 413 => lit "HTTP/1.1 413 Payload Too Large"
  | 429 => lit "HTTP/1.1 429 Too Many Requests"
  | 503 => lit "HTTP/1.1 503 Service Unavailable"
  | _ => lit "HTTP/1.1 500 Internal Server Error"

/-- `status_line`. -/
def statusLine (status : ℕ) : Bytes := statusText status ++ CRLF

/-- `cors_block`; `origin` is `CORS_ORIGIN`. -/
def corsBlock (origin : Bytes) : Bytes :=
  lit "access-control-allow-origin: " ++ origin
    ++ lit "\r\naccess-control-allow-methods: GET,POST,PATCH,DELETE,OPTIONS\r\n"
    ++ lit "access-control-allow-headers: content-type,x-admin-token\r\n"
    ++ lit "access-control-max-age: 86400\r\n"

/-- `write_reply`. -/
def writeReply (origin : Bytes) (a : Reply) : Bytes :=
  statusLine a.status ++ corsBlock origin ++ match a.location with
    | some l => lit "location: " ++ l ++ lit "\r\ncontent-length: 0\r\n\r\n"
    | none =>
      lit "content-type: " ++ a.ctype.getD (lit "application/json") ++ lit "\r\ncontent-length: "
        ++ itoa (Int64.ofNat a.body.length) ++ lit "\r\n\r\n" ++ a.body

/-! ## What it is read as -/

/-- The response that a reply stands for. -/
def Reply.message (origin : Bytes) (a : Reply) : Message where
  start := statusText a.status
  fields :=
    [(lit "access-control-allow-origin", origin),
      (lit "access-control-allow-methods", lit "GET,POST,PATCH,DELETE,OPTIONS"),
      (lit "access-control-allow-headers", lit "content-type,x-admin-token"),
      (lit "access-control-max-age", lit "86400")] ++ match a.location with
        | some l => [(lit "location", l), (lit "content-length", lit "0")]
        | none => [(lit "content-type", a.ctype.getD (lit "application/json")),
            (lit "content-length", itoa (Int64.ofNat a.body.length))]
  body := if a.location.isSome then [] else a.body

/-- The size of a body, as its receiver finds it. -/
def contentLength (fields : List (Bytes × Bytes)) : Option ℕ :=
  (fields.lookup (lit "content-length")).map fun v ↦ (strtoll v).toInt.toNat

theorem corsBlock_eq (origin : Bytes) : corsBlock origin
    = [(lit "access-control-allow-origin", origin),
        (lit "access-control-allow-methods", lit "GET,POST,PATCH,DELETE,OPTIONS"),
        (lit "access-control-allow-headers", lit "content-type,x-admin-token"),
        (lit "access-control-max-age", lit "86400")].flatMap HttpMessage.renderField := by
  have horigin : lit "access-control-allow-origin: "
      = lit "access-control-allow-origin" ++ [58, 32] := by decide
  have hmethods : lit "\r\naccess-control-allow-methods: GET,POST,PATCH,DELETE,OPTIONS\r\n"
      = [13, 10] ++ HttpMessage.renderField
        (lit "access-control-allow-methods", lit "GET,POST,PATCH,DELETE,OPTIONS") := by decide
  have hheaders : lit "access-control-allow-headers: content-type,x-admin-token\r\n"
      = HttpMessage.renderField
        (lit "access-control-allow-headers", lit "content-type,x-admin-token") := by decide
  have hage : lit "access-control-max-age: 86400\r\n"
      = HttpMessage.renderField (lit "access-control-max-age", lit "86400") := by decide
  rw [corsBlock, horigin, hmethods, hheaders, hage]
  simp only [List.flatMap_cons, List.flatMap_nil, List.append_nil, HttpMessage.renderField,
    List.append_assoc]

/-- `write_reply` writes that response. -/
theorem writeReply_eq (origin : Bytes) (a : Reply) :
    writeReply origin a = HttpMessage.render (a.message origin) := by
  rw [writeReply, statusLine, corsBlock_eq, HttpMessage.render, Reply.message]
  cases a.location with
  | some l =>
    have hname : lit "location: " = lit "location" ++ [58, 32] := by decide
    have hrest : lit "\r\ncontent-length: 0\r\n\r\n"
        = [13, 10] ++ HttpMessage.renderField (lit "content-length", lit "0") ++ [13, 10] := by
      decide
    rw [hname, hrest]
    simp [HttpMessage.renderField, CRLF]
  | none =>
    have hname : lit "content-type: " = lit "content-type" ++ [58, 32] := by decide
    have hlen : lit "\r\ncontent-length: " = [13, 10] ++ (lit "content-length" ++ [58, 32]) := by
      decide
    have hend : lit "\r\n\r\n" = [13, 10] ++ [13, 10] := by decide
    rw [hname, hlen, hend]
    simp [HttpMessage.renderField, CRLF]

/-! ## Reading it back -/

theorem clean_statusText (status : ℕ) : Clean (statusText status) := by
  fun_cases statusText status <;> decide

theorem clean_itoa (n : Int64) : Clean (itoa n) := by
  obtain ⟨ds, hds, -, hdig, -⟩ := itoa_eq n
  have hdigits : Clean ds :=
    ⟨fun h ↦ absurd (hdig _ h) (by decide), fun h ↦ absurd (hdig _ h) (by decide)⟩
  rw [hds]
  split_ifs
  · exact (show Clean [45] by decide).append hdigits
  · exact hdigits

/-- **A reply is read back as the response it stands for**, when the texts that come from outside
have no line ends. -/
theorem read_writeReply {origin : Bytes} {a : Reply} (horigin : Clean origin)
    (hloc : ∀ l ∈ a.location, Clean l) (htype : ∀ t ∈ a.ctype, Clean t)
    (hbody : a.body.length < 2 ^ 63) (next : Bytes) :
    HttpMessage.read contentLength (writeReply origin a ++ next)
      = some (a.message origin, next) := by
  rw [writeReply_eq]
  refine HttpMessage.read_render (clean_statusText _) ?_ ?_ next
  · refine List.forall_mem_append.mpr ⟨?_, ?_⟩
    · simp only [List.forall_mem_cons]
      exact ⟨⟨by decide, horigin⟩, by decide, by decide, by decide, nofun⟩
    · cases hl : a.location with
      | some l =>
        simp only [List.forall_mem_cons]
        exact ⟨⟨by decide, hloc l hl⟩, by decide, nofun⟩
      | none =>
        have hctype : Clean (a.ctype.getD (lit "application/json")) := by
          cases ht : a.ctype with
          | none => decide
          | some t => exact htype t ht
        simp only [List.forall_mem_cons]
        exact ⟨⟨by decide, hctype⟩, ⟨by decide, clean_itoa _⟩, nofun⟩
  · rw [contentLength, Reply.message]
    cases a.location with
    | some l => rfl
    | none =>
      have hlookup : ([(lit "access-control-allow-origin", origin),
          (lit "access-control-allow-methods", lit "GET,POST,PATCH,DELETE,OPTIONS"),
          (lit "access-control-allow-headers", lit "content-type,x-admin-token"),
          (lit "access-control-max-age", lit "86400")]
            ++ [(lit "content-type", a.ctype.getD (lit "application/json")),
              (lit "content-length", itoa (Int64.ofNat a.body.length))]).lookup
          (lit "content-length") = some (itoa (Int64.ofNat a.body.length)) := rfl
      simp only [hlookup, Option.map_some, strtoll_itoa]
      have hint : (Int64.ofNat a.body.length).toInt = a.body.length :=
        Int64.toInt_ofNat_of_lt hbody
      rw [hint]
      rfl

/-! ## Urls that are stored -/

/-- The `url` of a single creation or an update, if it is a text, has no line ends. -/
def Request.urlClean (r : Request) : Bool := match jparse r.body with
  | none => true
  | some p => match p.find (lit "url") with
    | some (.str u) => !needsBody r.method || decide (Clean u)
    | _ => true

theorem clean_of_urlOf {r : Request} {p : J} {u : Bytes} (h : r.urlClean = true)
    (hmethod : needsBody r.method = true) (hbody : jparse r.body = some p) (hurl : urlOf p = some u) :
    Clean u := by
  rw [urlOf] at hurl
  split at hurl
  · rename_i v hfind
    split_ifs at hurl
    obtain rfl := Option.some.inj hurl
    rw [Request.urlClean, hbody] at h
    simpa [hfind, hmethod] using h
  · exact nomatch hurl

/-- `ok_bulk_url` takes no line ends. -/
theorem clean_of_okBulkUrl {u : Bytes} (h : okBulkUrl u = true) : Clean u := by
  rw [okBulkUrl] at h
  split_ifs at h
  rw [Bool.and_eq_true, List.all_eq_true] at h
  constructor
  · intro hmem
    exact absurd (h.2 13 hmem) (by decide)
  · intro hmem
    exact absurd (h.2 10 hmem) (by decide)

theorem clean_of_bulkUrls {js : List J} : ∀ {us : List Bytes}, bulkUrls js = some us →
    ∀ u ∈ us, Clean u := by
  induction js with
  | nil =>
    intro us h
    obtain rfl := Option.some.inj h
    exact nofun
  | cons j js ih =>
    intro us h
    cases j with
    | str v =>
      rw [bulkUrls] at h
      split_ifs at h with hv
      obtain ⟨vs, hvs, rfl⟩ := Option.map_eq_some_iff.mp h
      rintro u (- | ⟨-, hu⟩)
      · exact clean_of_okBulkUrl hv
      · exact ih hvs u hu
    | _ => exact nomatch h

theorem LinkFrom.clean {h : Host} {st : Store} {r : Request} {c : Bytes} {l : LinkRow}
    (hfrom : LinkFrom h st r c l) (hall : ∀ c l, st.inner.links c = some l → Clean l.u)
    (hurl : r.urlClean = true) : Clean l.u := by
  cases hfrom with
  | kept hl => exact hall c l hl
  | created hpost hbody hu httl => exact clean_of_urlOf hurl (by rw [hpost]; decide) hbody hu
  | createdMany hurls hu => exact clean_of_bulkUrls hurls _ hu
  | updated hpatch hbody hu hl => exact clean_of_urlOf hurl (by rw [hpatch]; decide) hbody hu

/-- What a reply carries besides its body comes from a stored url. -/
theorem Serves.clean {h : Host} {st st' : Store} {r : Request} {a : Reply}
    (hserves : Serves h st r st' a) (hs : Alone st)
    (hall : ∀ c l, st.inner.links c = some l → Clean l.u) :
    (∀ l ∈ a.location, Clean l) ∧ ∀ t ∈ a.ctype, Clean t := by
  have hplain : ∀ {b : Reply}, b.Plain → (∀ l ∈ b.location, Clean l) ∧ ∀ t ∈ b.ctype, Clean t := by
    intro b hb
    rw [hb.1]
    refine ⟨nofun, fun t ht ↦ ?_⟩
    rcases hb.2 t ht with rfl | rfl
    · decide
    · decide
  cases hserves with
  | answer ha => exact hplain ha
  | @redirect code st' target hget hcode hres =>
    refine ⟨?_, nofun⟩
    rintro l ⟨⟩
    obtain ⟨e, he, rfl⟩ := (hs.resolve_cases hres).2 target rfl
    exact hall code e.link (by rw [Inner.links, he]; rfl)
  | miss => exact hplain (plain_mk _ _)
  | create => exact hplain (plain_created _)
  | createMany => exact hplain (plain_mk _ _)
  | update => exact hplain (plain_mutReply (plain_mk _ _) _)
  | remove => exact hplain (plain_mutReply (plain_mk 204 []) _)

/-- **When no response is split.** Take any requests to a store that was opened empty, none of which
brings a url with line ends by a single creation or an update, and then one more request. If its
reply redirects, the location has no line ends. And when `CORS_ORIGIN` has none, the reply is read
from the connection as exactly the response that `write_reply` names, whatever follows it. A body is
a `std::string`, so it is shorter than `2 ^ 63` bytes. -/
theorem reply_read_back {st₀ st st' : Store} {ls : List (Request × Host)} {r : Request} {h : Host}
    {a : Reply} (h₀ : OpenedEmpty st₀) (hrun : run serve st₀ ls = some st)
    (hurl : ∀ l ∈ ls, l.1.urlClean = true) (hr : handle h st r = .ok (st', a)) :
    (∀ l ∈ a.location, Clean l) ∧
    ∀ origin next, Clean origin → a.body.length < 2 ^ 63 →
      HttpMessage.read contentLength (writeReply origin a ++ next)
        = some (a.message origin, next) := by
  have hall : ∀ c l, st.inner.links c = some l → Clean l.u := by
    refine forall_links_run h₀.alone ?_ (fun hall hq hfrom ↦ hfrom.clean hall hq) hurl hrun
    intro c l hl
    exact nomatch (h₀.links c).symm.trans hl
  obtain ⟨hloc, htype⟩ := (serves_of_handle hr).clean (alone_run h₀.alone hrun) hall
  exact ⟨hloc, fun origin next horigin hbody ↦ read_writeReply horigin hloc htype hbody next⟩

/-- A request for the link under `a`. -/
def getA : Request := { method := lit "GET", path := lit "/a" }

theorem reply_read_back_getA : ∃ st, run serve openMemory [(postA, {})] = some st ∧
    ∃ p, (handle {} st getA).toOption = some p ∧ p.2.location = some (lit "http://h/") ∧
      HttpMessage.read contentLength (writeReply (lit "*") p.2 ++ lit "HTTP/1.1")
        = some (p.2.message (lit "*"), lit "HTTP/1.1") := by
  obtain ⟨st, hrun, p, hp, hloc, hbody⟩ :
      ∃ st, run serve openMemory [(postA, {})] = some st ∧
        ∃ p, (handle {} st getA).toOption = some p ∧ p.2.location = some (lit "http://h/") ∧
          p.2.body = [] := by
    decide +kernel
  have hurl : ∀ l ∈ [(postA, ({} : Host))], l.1.urlClean = true := by decide +kernel
  refine ⟨st, hrun, p, hp, hloc, ?_⟩
  refine (reply_read_back (.inl rfl) hrun hurl (handle_of_toOption hp)).2 _ _ (by decide) ?_
  rw [hbody]
  decide

/-- A url whose path ends the line, by way of JSON escapes. -/
def postSplit : Request where
  method := lit "POST"
  path := lit "/api/shorten"
  body := lit "\x7b\"url\":\"http://h/\\r\\nx: y\",\"alias\":\"a\"\x7d"

theorem location_splits : ∃ st, run serve openMemory [(postSplit, {})] = some st ∧
    ∃ p, (handle {} st getA).toOption = some p ∧ p.2.location = some (lit "http://h/\r\nx: y") ∧
      ∃ m, HttpMessage.read contentLength (writeReply (lit "*") p.2) = some m ∧
        (lit "x", lit "y") ∈ m.1.fields := by
  decide +kernel

end Shrt
