import Shrt.App.Alias

/-!
# Bulk creation

`POST /api/shorten/bulk` checks all urls before it creates a link, so it creates either none or all
of them. Each url gets the first generated code that nothing in the index has, the links of this
request included. The one route that a code could hide behind is shorter than a generated code.

The urls of a bulk request pass a shorter check than that of a single one, which leaves the host
alone.
-/

namespace Shrt

/-! ## The two checks of a url -/

/-- The part of a url between the scheme and the first `/`, `?` or `#`. -/
def hostOf (u : Bytes) : Bytes := ((afterScheme u).getD []).takeWhile (!endsHost ·)

theorem mem_of_mem_hostOf {u : Bytes} {b : UInt8} (h : b ∈ hostOf u) : b ∈ u := by
  have hmem := List.takeWhile_subset _ h
  rw [afterScheme] at hmem
  split_ifs at hmem
  · exact List.mem_of_mem_drop hmem
  · exact List.mem_of_mem_drop hmem
  · exact absurd hmem List.not_mem_nil

/-- A url that `ok_bulk_url` takes has an admitted length, a scheme and no quotes or backslashes. -/
theorem okBulkUrl_iff {u : Bytes} : okBulkUrl u = true ↔ 7 < u.length ∧ u.length ≤ 2048 ∧
    (afterScheme u).isSome = true ∧ ∀ b ∈ u, b ≠ dquote ∧ b ≠ bslash ∧ b ≠ 10 ∧ b ≠ 13 := by
  rw [okBulkUrl]
  split_ifs with h
  · refine iff_of_false not_false fun h' ↦ ?_
    omega
  · rw [not_or, not_le, not_lt] at h
    simp only [Bool.and_eq_true, List.all_eq_true, decide_eq_true_eq, and_assoc, h.1, h.2, true_and]

/-- A url that `is_valid_url` takes has an admitted length, a scheme and a host of admitted bytes.
-/
theorem isValidUrl_iff {u : Bytes} : isValidUrl u = true ↔ u.length ≤ 2048 ∧
    (afterScheme u).isSome = true ∧ hostOf u ≠ [] ∧ ∀ b ∈ hostOf u, hostByte b = true := by
  rw [isValidUrl, hostOf]
  split_ifs with h
  · refine iff_of_false not_false fun h' ↦ ?_
    rcases h with rfl | h
    · exact absurd h'.2.1 (by decide)
    · omega
  · rw [not_or, not_lt] at h
    cases hscheme : afterScheme u with
    | none => simp
    | some r => simp [h.2]

/-- **What the bulk check leaves out.** A url that it takes passes the single check just when the
host is not empty and holds neither spaces nor control bytes. -/
theorem bulk_url_valid_iff {u : Bytes} (h : okBulkUrl u = true) :
    isValidUrl u = true ↔ hostOf u ≠ [] ∧ ∀ b ∈ hostOf u, 33 ≤ b := by
  obtain ⟨-, hlen, hscheme, hbytes⟩ := okBulkUrl_iff.mp h
  rw [isValidUrl_iff]
  constructor
  · rintro ⟨-, -, hne, hhost⟩
    refine ⟨hne, fun b hb ↦ ?_⟩
    have := hhost b hb
    simp only [hostByte, Bool.and_eq_true, decide_eq_true_eq] at this
    exact this.2
  · rintro ⟨hne, hhost⟩
    refine ⟨hlen, hscheme, hne, fun b hb ↦ ?_⟩
    obtain ⟨hquote, hslash, -⟩ := hbytes b (mem_of_mem_hostOf hb)
    have h33 := hhost b hb
    have hspace : b ≠ 32 := by
      rintro rfl
      exact absurd h33 (by decide)
    simp [hostByte, hquote, hslash, hspace, h33]

/-- A url without a host, which the bulk check takes. -/
theorem hostless_url_taken :
    okBulkUrl (lit "https://") = true ∧ isValidUrl (lit "https://") = false := by
  decide +kernel

theorem bulk_url_valid_iff_named : isValidUrl (lit "http://x/ y") = true :=
  (bulk_url_valid_iff (by decide +kernel)).mpr (by decide +kernel)

/-! ## Generated codes -/

theorem length_genCode (inst : InstanceId) (r : Draw) : (genCode inst r).length = 8 := by
  rw [genCode, List.length_cons, List.length_ofFn]
  rfl

theorem length_of_freshCode {sh : Shards} {inst : InstanceId} {rng rng' : List Draw} {c : Bytes}
    (h : freshCode sh inst rng = some (c, rng')) : c.length = 8 := by
  induction rng with
  | nil => exact nomatch h
  | cons r rs ih =>
    rw [freshCode] at h
    split_ifs at h
    · exact ih h
    · obtain ⟨rfl, -⟩ := Prod.mk.inj (Option.some.inj h)
      exact length_genCode inst r

/-! ## Many links -/

namespace Store

/-- Codes that urls have been bound to, all of them free before: what `shorten_many` is for. -/
structure Binds (st : Store) (now exp : Int64) (urls codes : List Bytes) (st' : Store) : Prop where
  /-- The codes are distinct. -/
  nodup : codes.Nodup
  /-- They were free. -/
  free : ∀ c ∈ codes, st.inner.find c = none
  /-- They are generated ones. -/
  generated : ∀ c ∈ codes, codeOk c = true ∧ c.length = 8
  /-- Each url is bound to the code at its place. -/
  bound : List.Forall₂ (fun c u ↦ st'.inner.find c = some (st.newEntry u now exp)) codes urls
  /-- Nothing else changes. -/
  kept : ∀ c, c ∉ codes → st'.inner.find c = st.inner.find c

variable {st st' : Store} {now exp : Int64}

theorem find_bind (st : Store) (code url : Bytes) (now exp : Int64) (c : Bytes) :
    (st.bind code url now exp).inner.find c
      = if c = code then some (st.newEntry url now exp) else st.inner.find c := Inner.find_put ..

/-- One more url, bound before the others. -/
theorem Binds.cons {c u : Bytes} {us cs : List Bytes} (hfree : st.inner.find c = none)
    (hc : codeOk c = true ∧ c.length = 8) (h : Binds (st.bind c u now exp) now exp us cs st') :
    Binds st now exp (u :: us) (c :: cs) st' := by
  have hnew : c ∉ cs := by
    intro hmem
    have := h.free c hmem
    rw [find_bind, if_pos rfl] at this
    exact nomatch this
  constructor
  · exact List.nodup_cons.mpr ⟨hnew, h.nodup⟩
  · intro d hd
    rcases List.mem_cons.mp hd with rfl | hd
    · exact hfree
    · have hne : d ≠ c := fun heq ↦ hnew (heq ▸ hd)
      have := h.free d hd
      rwa [find_bind, if_neg hne] at this
  · intro d hd
    rcases List.mem_cons.mp hd with rfl | hd
    · exact hc
    · exact h.generated d hd
  · refine .cons ?_ h.bound
    rw [h.kept c hnew, find_bind, if_pos rfl]
  · intro d hd
    rw [List.mem_cons, not_or] at hd
    rw [h.kept d hd.2, find_bind, if_neg hd.1]

theorem binds_shortenLoop {urls : List Bytes} : ∀ {st : Store} {rng : List Draw} {lines : Bytes}
    {codes : List Bytes} {r : Store × Bytes × List Bytes},
    st.shortenLoop now exp urls rng lines codes = some r →
      ∃ new, r.2.2 = codes ++ new ∧ Binds st now exp urls new r.1 := by
  induction urls with
  | nil =>
    intro st rng lines codes r h
    obtain rfl := Option.some.inj h
    exact ⟨[], (List.append_nil _).symm, List.nodup_nil, fun _ hd ↦ absurd hd List.not_mem_nil,
      fun _ hd ↦ absurd hd List.not_mem_nil, .nil, fun _ _ ↦ rfl⟩
  | cons u us ih =>
    intro st rng lines codes r h
    rw [shortenLoop] at h
    cases hf : freshCode st.inner.shards st.inner.inst rng with
    | none =>
      rw [hf] at h
      contradiction
    | some p =>
      rw [hf] at h
      obtain ⟨new, hcodes, hbinds⟩ := ih h
      have hspec := freshCode_spec hf
      refine ⟨p.1 :: new, ?_, hbinds.cons hspec.1 ⟨hspec.2, length_of_freshCode hf⟩⟩
      rw [hcodes, List.append_assoc, List.singleton_append]

/-- **`shorten_many` binds each url to a code of its own.** -/
theorem binds_shortenMany {urls : List Bytes} {ttl : Int64} {clk : Clock} {rng : List Draw}
    {codes : List Bytes} (h : st.shortenMany urls ttl clk rng = some (st', codes)) :
    Binds st (clk 0) (expiry (clk 0) ttl) urls codes st' := by
  obtain ⟨r, hr, heq⟩ := Option.map_eq_some_iff.mp h
  obtain ⟨rfl, rfl⟩ := Prod.mk.inj heq
  obtain ⟨new, hcodes, hbinds⟩ := binds_shortenLoop hr
  rw [List.nil_append] at hcodes
  have hfind : ∀ c, (r.1.pushRaw r.2.1).flushIfFull.inner.find c = r.1.inner.find c := by
    intro c
    rw [Inner.find, shards_flushIfFull]
    rfl
  rw [hcodes]
  exact ⟨hbinds.nodup, hbinds.free, hbinds.generated,
    hbinds.bound.imp fun c u hc ↦ (hfind c).trans hc, fun c hc ↦ (hfind c).trans (hbinds.kept c hc)⟩

end Store

/-! ## The request -/

/-- The urls that are taken are the strings of the request. -/
theorem eq_of_bulkUrls {js : List J} : ∀ {us : List Bytes}, bulkUrls js = some us →
    js = us.map .str := by
  induction js with
  | nil =>
    intro us h
    obtain rfl := Option.some.inj h
    rfl
  | cons j js ih =>
    intro us h
    cases j with
    | str v =>
      rw [bulkUrls] at h
      split_ifs at h
      obtain ⟨vs, hvs, rfl⟩ := Option.map_eq_some_iff.mp h
      rw [List.map_cons, ← ih hvs]
    | _ => exact nomatch h

/-- `shorten_bulk` refuses, goes on searching for codes, or creates its links. -/
theorem shortenBulk_spec (h : Host) (st : Store) (p : J) :
    (∃ msg, shortenBulk h st p = .ok (st, bad msg)) ∨
    shortenBulk h st p = .error .looping ∨
    ∃ us st' codes, p.find (lit "urls") = some (.arr (us.map .str)) ∧
      1 ≤ us.length ∧ us.length ≤ MAX_BULK_URLS ∧
      st.shortenMany us h.linkTtlMs h.clk h.rng = some (st', codes) ∧
      shortenBulk h st p = .ok (st', createdMany codes) := by
  rw [shortenBulk]
  split
  · rename_i js hfind
    split_ifs with hsize
    · exact .inl ⟨_, rfl⟩
    · rw [not_or, not_lt] at hsize
      split
      · exact .inl ⟨_, rfl⟩
      · rename_i us hurls
        obtain rfl := eq_of_bulkUrls hurls
        rw [List.length_map, List.map_eq_nil_iff] at hsize
        split
        · exact .inr (.inl rfl)
        · rename_i st' codes hnew
          exact .inr (.inr ⟨us, st', codes, hfind, List.length_pos_of_ne_nil hsize.1, hsize.2,
            hnew, rfl⟩)
  · exact .inl ⟨_, rfl⟩

/-- A generated code is followed to its url while its link lives. -/
theorem redirect_of_generated {h : Host} {st : Store} {r : Request} {code : Bytes} {e : Entry}
    (hcode : codeOk code = true ∧ code.length = 8) (hfind : st.inner.find code = some e)
    (halive : e.link.Alive (h.clk 0)) (hget : r.method = lit "GET")
    (hpath : r.path = shortUrl code) :
    ∃ st', handle h st r = .ok (st', { status := 302, location := some e.u }) := by
  have hne : code ≠ lit "metrics" := by
    rintro rfl
    exact absurd hcode.2 (by decide)
  have hlink : st.inner.links code = some e.link := by
    rw [Inner.links, hfind]
    rfl
  obtain ⟨st', hres⟩ := Store.resolve_of_alive hlink halive h.track h.ord
  refine ⟨st', ?_⟩
  rw [handle, route, hget, pathname_shortUrl hcode.1 hpath, if_neg (by decide), if_pos rfl,
    routeGet_shortUrl r.query hcode.1 hne, getCode, if_pos hcode.1, hres]
  rfl

/-- A request for one short url. -/
def oneUrl : Request where
  method := lit "POST"
  path := lit "/api/shorten/bulk"
  body := lit "\x7b\"urls\":[\"http://x.y\"]\x7d"

/-- A process that has one code to offer. -/
def singleDraw : Host := { rng := [fun _ ↦ 0] }

end Shrt
