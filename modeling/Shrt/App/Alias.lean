import Shrt.App.Links

/-!
# Aliases and routes

An alias is checked by `code_ok`, and a short url is looked up behind the fixed routes. The two
agree on every alias but one: `metrics` passes the check, and `GET /metrics` is the route of the
counters, so that the link can be created and never be followed (`alias_shadowed`). Every other
alias redirects for as long as its link lives (`redirect_of_alias_iff`).
-/

namespace Shrt

open Transition (run)

/-! ## Paths that are codes -/

/-- The path of a short url. -/
def shortUrl (code : Bytes) : Bytes := lit "/" ++ code

theorem codeOk_eq_false_of_slash {s : Bytes} (h : 47 ∈ s) : codeOk s = false := by
  have hall : s.all codeByte = false := by
    rw [List.all_eq_false]
    exact ⟨47, h, by decide⟩
  rw [codeOk, hall, Bool.and_false]

theorem ne_of_codeOk {c s : Bytes} (hc : codeOk c = true) (hs : codeOk s = false) :
    shortUrl c ≠ lit "/" ++ s := by
  intro heq
  rw [List.append_cancel_left heq, hs] at hc
  exact nomatch hc

/-- Of the fixed routes only `/metrics` is a short url. -/
theorem routeGet_shortUrl {h : Host} {st : Store} {c : Bytes} (query : Bytes) (hc : codeOk c = true)
    (hne : c ≠ lit "metrics") : routeGet h st (shortUrl c) query = .ok (getCode h st c) := by
  have hslash : ∀ {s : Bytes}, 47 ∈ s → shortUrl c ≠ lit "/" ++ s :=
    fun hs ↦ ne_of_codeOk hc (codeOk_eq_false_of_slash hs)
  have hstats : ¬ lit "/api/stats/" <+: shortUrl c := by
    rintro ⟨t, ht⟩
    have hmem : (47 : UInt8) ∈ lit "api/stats/" ++ t := List.mem_append_left _ (by decide)
    exact hslash hmem ht.symm
  have hhealth : shortUrl c ≠ lit "/api/health" := hslash (s := lit "api/health") (by decide)
  have hsnapshot : shortUrl c ≠ lit "/api/metrics" := hslash (s := lit "api/metrics") (by decide)
  have hmetrics : shortUrl c ≠ lit "/metrics" := by
    intro heq
    have heq : lit "/" ++ c = lit "/" ++ lit "metrics" := heq
    exact hne (List.append_cancel_left heq)
  have hroot : shortUrl c ≠ lit "/" := ne_of_codeOk (s := []) hc rfl
  have hlinks : shortUrl c ≠ lit "/api/links" := hslash (s := lit "api/links") (by decide)
  rw [routeGet, if_neg hhealth, if_neg hsnapshot, if_neg hmetrics, if_neg hroot, if_neg hlinks,
    if_neg hstats]
  rfl

/-- The path of a short url holds no question mark. -/
theorem pathname_shortUrl {r : Request} {c : Bytes} (hc : codeOk c = true)
    (hpath : r.path = shortUrl c) : r.pathname = shortUrl c := by
  rw [Request.pathname, hpath, List.takeWhile_eq_self_iff]
  intro b hb
  rcases List.mem_append.mp hb with hb | hb
  · rw [List.mem_singleton.mp hb]
    decide
  · have hbyte : codeByte b = true := by
      rw [codeOk, Bool.and_eq_true] at hc
      exact List.all_eq_true.mp hc.2 b hb
    rw [decide_eq_true_eq]
    rintro rfl
    contradiction

/-! ## A link that is alive -/

/-- Whether a link is alive at a time. -/
def LinkRow.Alive (l : LinkRow) (now : Int64) : Prop := l.e = 0 ∨ now < l.e

theorem Store.resolve_of_alive {st : Store} {c : Bytes} {l : LinkRow} {clk : Clock}
    (hl : st.inner.links c = some l) (halive : l.Alive (clk 0)) (track : Bool) (ord : Order) :
    ∃ st', st.resolve c clk track ord = (st', some l.u) := by
  obtain ⟨e, hfind, rfl⟩ := Option.map_eq_some_iff.mp hl
  have hlive : Store.live e (clk 0) = true := by
    rw [Store.live, Bool.or_eq_true, decide_eq_true_eq, decide_eq_true_eq]
    exact halive
  rw [Store.resolve, Store.lookup, hfind]
  simp only [hlive, if_true]
  exact ⟨_, rfl⟩

/-- What the store does with an alias. -/
theorem Store.shorten_alias (st : Store) (url c : Bytes) (ttl : Int64) (clk : Clock)
    (rng : List Draw) : st.shorten url (some c) ttl clk rng = some (st, none) ∨
    ∃ st', st.shorten url (some c) ttl clk rng = some (st', some c) ∧
      st'.inner.links c = some (st.newLink url (clk 0) ttl) := by
  cases hfind : st.inner.find c with
  | some e =>
    refine .inl ?_
    rw [shorten, pickCode, hfind]
    rfl
  | none =>
    refine .inr ⟨((st.bind c url (clk 0) (expiry (clk 0) ttl)).push
      (st.rowFor c url (clk 0) (expiry (clk 0) ttl))).flushIfFull, ?_, ?_⟩
    · rw [shorten, pickCode, hfind]
      rfl
    · have hbind : ((st.bind c url (clk 0) (expiry (clk 0) ttl)).inner.find c).map Entry.link
          = some (st.newLink url (clk 0) ttl) := by
        rw [bind, mapInner, Inner.find_put, if_pos rfl]
        rfl
      rw [Inner.links, Inner.find, shards_flushIfFull]
      exact hbind

/-- A creation that is answered 201 binds the alias it was given. -/
theorem links_of_created {h : Host} {st st' : Store} {r : Request} {a : Reply} {p : J} {c : Bytes}
    (hr : handle h st r = .ok (st', a)) (hstatus : a.status = 201)
    (hpost : r.method = lit "POST") (hpath : r.pathname = lit "/api/shorten")
    (hbody : jparse r.body = some p) (hal : p.find (lit "alias") = some (.str c)) :
    codeOk c = true ∧ a = created (some c) ∧
      ∃ l, st'.inner.links c = some l ∧ urlOf p = some l.u := by
  rw [handle, route, if_neg (by rw [hpost]; decide), if_neg (by rw [hpost]; decide), if_pos hpost,
    routePost, hpath, if_neg (by simp), hbody] at hr
  simp only [if_true] at hr
  split_ifs at hr with hlimit
  · obtain ⟨-, rfl⟩ := Prod.mk.inj (Except.ok.inj hr)
    contradiction
  -- What is left of the handler are its refusals, none of which is a 201, and the creation.
  rw [shortenOne] at hr
  split at hr
  · obtain ⟨-, rfl⟩ := Prod.mk.inj (Except.ok.inj hr)
    contradiction
  rename_i u hurl
  rw [aliasOf, hal] at hr
  by_cases hc : codeOk c = true
  swap
  · simp only [hc] at hr
    obtain ⟨-, rfl⟩ := Prod.mk.inj (Except.ok.inj hr)
    contradiction
  simp only [hc, if_true] at hr
  split at hr
  · obtain ⟨-, rfl⟩ := Prod.mk.inj (Except.ok.inj hr)
    contradiction
  rename_i ttl httl
  rcases st.shorten_alias u c ttl h.clk h.rng with htaken | ⟨st₁, hnew, hl⟩
  · rw [htaken] at hr
    obtain ⟨-, rfl⟩ := Prod.mk.inj (Except.ok.inj hr)
    contradiction
  · rw [hnew] at hr
    obtain ⟨rfl, rfl⟩ := Prod.mk.inj (Except.ok.inj hr)
    exact ⟨hc, rfl, _, hl, hurl⟩

/-! ## Following an alias -/

/-- The link of a code is the same after requests none of which changes or removes it. -/
theorem links_of_untouched {st st' : Store} {ls : List (Request × Host)} {c : Bytes} {l : LinkRow}
    (hs : Alone st) (hrun : run serve st ls = some st') (hl : st.inner.links c = some l)
    (huntouched : ∀ q ∈ ls, ¬ ((q.1.method = lit "PATCH" ∨ q.1.method = lit "DELETE") ∧
      q.1.pathname = lit "/api/links/" ++ c)) : st'.inner.links c = some l := by
  have hkeep : Alone st' ∧ st'.inner.links c = some l := by
    refine Transition.run_invariant (P := fun st : Store ↦ Alone st ∧ st.inner.links c = some l) ?_
      ⟨hs, hl⟩ (Transition.meets_of_forall huntouched st) hrun
    rintro st q st' ⟨hs, hl⟩ huntouched hstep
    obtain ⟨a, hserves⟩ := serves_of_serve hstep
    obtain ⟨e, hfind, rfl⟩ := Option.map_eq_some_iff.mp hl
    refine ⟨hserves.alone hs, ?_⟩
    rcases hserves.find hs hfind with heq | heq | hadmin
    · exact Option.map_eq_some_iff.mpr ⟨e, heq, rfl⟩
    · exact Option.map_eq_some_iff.mpr ⟨_, heq, rfl⟩
    · exact absurd ⟨hadmin.1, hadmin.2.1⟩ huntouched
  exact hkeep.2

/-- **Which aliases can be followed.** Take any requests to a store that is opened in memory or on a
directory of its own, then a creation with an alias that is answered 201, and then any requests that
neither change nor remove this link. As long as the link has not expired, a `GET` of its short url
is answered with a redirect to the url that was stored, unless the alias is `metrics`: then it never
is. -/
theorem redirect_of_alias_iff {st₀ st₁ st₂ st₃ : Store} {before after : List (Request × Host)}
    {h h' : Host} {post get : Request} {a : Reply} {p : J} {c : Bytes} (h₀ : Opened st₀)
    (hbefore : run serve st₀ before = some st₁)
    (hmethod : post.method = lit "POST") (hpath : post.pathname = lit "/api/shorten")
    (hbody : jparse post.body = some p) (hal : p.find (lit "alias") = some (.str c))
    (hpost : handle h st₁ post = .ok (st₂, a)) (hstatus : a.status = 201)
    (hafter : run serve st₂ after = some st₃)
    (huntouched : ∀ q ∈ after, ¬ ((q.1.method = lit "PATCH" ∨ q.1.method = lit "DELETE") ∧
      q.1.pathname = lit "/api/links/" ++ c))
    (halive : ∀ l, st₂.inner.links c = some l → l.Alive (h'.clk 0))
    (hget : get.method = lit "GET") (hurl : get.path = shortUrl c) :
    a = created (some c) ∧ ∃ l, st₂.inner.links c = some l ∧ urlOf p = some l.u ∧
      ((∃ st₄, handle h' st₃ get = .ok (st₄, { status := 302, location := some l.u })) ↔
        c ≠ lit "metrics") := by
  have hs₁ : Alone st₁ := alone_run h₀.alone hbefore
  have hs₂ : Alone st₂ := (serves_of_handle hpost).alone hs₁
  obtain ⟨hc, ha, l, hl, hu⟩ := links_of_created hpost hstatus hmethod hpath hbody hal
  refine ⟨ha, l, hl, hu, ?_⟩
  have hl₃ : st₃.inner.links c = some l := links_of_untouched hs₂ hafter hl huntouched
  rw [handle, route, if_neg (by rw [hget]; decide), if_pos hget, pathname_shortUrl hc hurl]
  constructor
  · rintro ⟨st₄, heq⟩ rfl
    have hreply := (Prod.mk.inj (Except.ok.inj heq)).2
    have hstatus' : (200 : ℕ) = 302 := congrArg Reply.status hreply
    omega
  · intro hne
    obtain ⟨st₄, hres⟩ := Store.resolve_of_alive hl₃ (halive l hl) h'.track h'.ord
    refine ⟨st₄, ?_⟩
    rw [routeGet_shortUrl _ hc hne, getCode, if_pos hc, hres]

theorem find_of_aliasOf {p : J} {c : Bytes} (h : aliasOf p = some (some c)) :
    p.find (lit "alias") = some (.str c) := by
  rw [aliasOf] at h
  split at h
  · rename_i a hfind
    split_ifs at h
    obtain rfl := Option.some.inj (Option.some.inj h)
    exact hfind
  · exact absurd (Option.some.inj h).symm (Option.some_ne_none c)

/-- A `GET` of a path. -/
def getPath (path : String) : Request := { method := lit "GET", path := lit path }

theorem redirect_of_alias_iff_postA :
    ∃ q, (handle {} openMemory postA).toOption = some q ∧
    ∃ st, run serve q.1 [(postA, {}), (getPath "/a", {})] = some st ∧
    ∃ st', handle {} st (getPath "/a") =
      .ok (st', { status := 302, location := some (lit "http://h/") }) := by
  obtain ⟨p, hp, hal, hu⟩ : ∃ p, jparse postA.body = some p ∧
      aliasOf p = some (some (lit "a")) ∧ urlOf p = some (lit "http://h/") := by
    decide +kernel
  obtain ⟨q, hq, hstatus, hl, st, hst, htrue⟩ :
      ∃ q, (handle {} openMemory postA).toOption = some q ∧ q.2.status = 201 ∧
      q.1.inner.links (lit "a") = some ⟨lit "http://h/", 0, 86400000, 0⟩ ∧
      ∃ st, run serve q.1 [(postA, {}), (getPath "/a", {})] = some st ∧ True := by
    decide +kernel
  refine ⟨q, hq, st, hst, ?_⟩
  have halive : ∀ l, q.1.inner.links (lit "a") = some l → l.Alive (({} : Host).clk 0) := by
    intro l hl'
    obtain rfl := Option.some.inj (hl.symm.trans hl')
    exact .inr (by decide)
  have hnone : run serve openMemory [] = some openMemory := rfl
  have hget : (getPath "/a").method = lit "GET" := rfl
  obtain ⟨-, l, -, hu', hiff⟩ := redirect_of_alias_iff (.inl rfl) hnone rfl (by decide) hp
    (find_of_aliasOf hal) (handle_of_toOption hq) hstatus hst (by decide) halive hget rfl
  rw [← Option.some.inj (hu.symm.trans hu')] at hiff
  exact hiff.mpr (by decide)

/-- A link under the alias `metrics`. -/
def postMetrics : Request where
  method := lit "POST"
  path := lit "/api/shorten"
  body := lit "\x7b\"url\":\"http://h/\",\"alias\":\"metrics\"\x7d"

theorem alias_shadowed : ∃ q, (handle {} openMemory postMetrics).toOption = some q ∧
    q.2 = created (some (lit "metrics")) ∧
    q.1.inner.links (lit "metrics") = some ⟨lit "http://h/", 0, 86400000, 0⟩ ∧
    ∃ q', (handle {} q.1 (getPath "/metrics")).toOption = some q' ∧
      q'.2.status = 200 ∧ q'.2.location = none := by
  decide +kernel

end Shrt
