import Shrt.App.Links

/-!
# The cap on lifetimes

`LINK_TTL_MS` bounds how long a link lives, and in the store an expiry of zero stands for a link
that never expires. The handler takes the smaller of what was asked for and the cap, after
converting what was asked for to an integer. A fraction below one becomes zero, and so do, on
`PATCH`, zero and negative numbers: such a link never expires (`link_uncapped`).

When every lifetime that is asked for is at least one, and fits an `int64_t`, every link expires,
and no later than the cap allows (`links_capped`).
-/

namespace Shrt

open Transition (run)

/-- A lifetime that survives the conversion to an integer. -/
def Double.isTtl : Double → Bool
  | fin q => 1 ≤ q && q < 2 ^ 63
  | _ => false

theorem Double.one_le_toInt64 {x : Double} (h : x.isTtl = true) (undef : Double → Int64) :
    1 ≤ (x.toInt64 undef).toInt := by
  cases x with
  | fin q =>
    rw [isTtl, Bool.and_eq_true, decide_eq_true_eq, decide_eq_true_eq] at h
    have hnum : 0 ≤ q.num := Rat.num_nonneg.mpr (zero_le_one.trans h.1)
    have hfloor : q.num.tdiv q.den = ⌊q⌋ := by
      rw [Int.tdiv_eq_ediv_of_nonneg hnum]
      exact (Rat.floor_def q).symm
    have hlo : 1 ≤ ⌊q⌋ := Int.le_floor.mpr (by exact_mod_cast h.1)
    have hhi : ⌊q⌋ < 2 ^ 63 := Int.floor_lt.mpr (by exact_mod_cast h.2)
    have hrange : -2 ^ 63 ≤ ⌊q⌋ ∧ ⌊q⌋ < 2 ^ 63 := ⟨by omega, hhi⟩
    rw [toInt64, hfloor, if_pos hrange, Int64.toInt_ofInt_of_le hrange.1 hrange.2]
    exact hlo
  | _ => contradiction

/-- The `ttl_ms` of a request, if it is a number, is such a lifetime, or is refused. -/
def Request.ttlClean (r : Request) : Bool := match jparse r.body with
  | none => true
  | some p => match p.find (lit "ttl_ms") with
    | some (.num x) => x.isTtl || r.method = lit "POST" && x.nonpos
    | _ => true

/-- A link that expires, no later than the cap allows at time `t`. -/
def LinkRow.Capped (M t : Int64) (l : LinkRow) : Prop := l.e ≠ 0 ∧ l.e.toInt ≤ t.toInt + M.toInt

/-- A positive lifetime up to the cap gives an expiry within it, also when the sum wraps. -/
theorem capped_expiry {now ttl M t : Int64} (hnow : 0 ≤ now) (hpos : 1 ≤ ttl.toInt)
    (hcap : ttl.toInt ≤ M.toInt) (ht : now ≤ t) :
    expiry now ttl ≠ 0 ∧ (expiry now ttl).toInt ≤ t.toInt + M.toInt := by
  have hzero : (0 : Int64).toInt = 0 := rfl
  have hsum : (now + ttl).toInt = (now.toInt + ttl.toInt).bmod (2 ^ 64) := Int64.toInt_add now ttl
  have hnow := Int64.le_iff_toInt_le.mp hnow
  have ht := Int64.le_iff_toInt_le.mp ht
  have httl : 0 < ttl := Int64.lt_iff_toInt_lt.mpr (by omega)
  have hlt := now.toInt_lt
  have hlt' := ttl.toInt_lt
  rw [expiry, if_pos httl]
  -- The sum of two numbers below `2 ^ 63`, the second positive, wraps to no multiple of `2 ^ 64`.
  rw [Int.bmod_def] at hsum
  constructor
  · intro heq
    rw [heq] at hsum
    split_ifs at hsum <;> omega
  · split_ifs at hsum <;> omega

theorem LinkFrom.capped {h : Host} {st : Store} {r : Request} {c : Bytes} {l : LinkRow} {M t : Int64}
    (hfrom : LinkFrom h st r c l) (hall : ∀ c l, st.inner.links c = some l → l.Capped M t)
    (hM : 0 < M) (hcap : h.linkTtlMs = M) (hclk : 0 ≤ h.clk 0) (ht : h.clk 0 ≤ t)
    (httl : r.ttlClean = true) : l.Capped M t := by
  have hpos : 1 ≤ M.toInt := Int64.lt_iff_toInt_lt.mp hM
  have hmin : ∀ {x : Double}, x.isTtl = true →
      1 ≤ (min (x.toInt64 h.undef) M).toInt ∧ (min (x.toInt64 h.undef) M).toInt ≤ M.toInt := by
    intro x hx
    have hx := Double.one_le_toInt64 hx h.undef
    have hdef : min (x.toInt64 h.undef) M = if x.toInt64 h.undef ≤ M then x.toInt64 h.undef else M :=
      rfl
    rw [hdef]
    split_ifs with hle
    · exact ⟨hx, Int64.le_iff_toInt_le.mp hle⟩
    · exact ⟨hpos, le_rfl⟩
  cases hfrom with
  | kept hl => exact hall c l hl
  | @created p u ttl hpost hbody hurl hask =>
    rw [ttlOf, hcap] at hask
    split at hask
    · obtain rfl := Option.some.inj hask
      exact capped_expiry hclk hpos le_rfl ht
    · rename_i x hfind
      split_ifs at hask with hrefused
      obtain rfl := Option.some.inj hask
      have hx : x.isTtl = true := by
        simpa [Request.ttlClean, hbody, hfind, hrefused] using httl
      exact capped_expiry hclk (hmin hx).1 (hmin hx).2 ht
    · exact nomatch hask
  | createdMany hurls hu => exact capped_expiry hclk (hcap ▸ hpos) (hcap ▸ le_rfl) ht
  | @updated p u l hpatch hbody hurl hl =>
    have hold := hall c l hl
    have hmethod : (r.method = lit "POST") = False := by
      rw [hpatch]
      exact eq_false (by decide)
    rw [newTtl, hcap]
    split
    · rename_i x hfind
      have hx : x.isTtl = true := by
        simpa [Request.ttlClean, hbody, hfind, hmethod] using httl
      exact capped_expiry hclk (hmin hx).1 (hmin hx).2 ht
    · exact hold

/-- **When `LINK_TTL_MS` caps every link.** Take any requests to a store that was opened empty, with
`LINK_TTL_MS` set to a positive number, a clock that is not before 1970, and no lifetime asked for
that is below one or does not fit an `int64_t` (a creation may ask for one that is not positive:
that is refused). Then at any time from the last request on, every link has an expiry, which is no
further away than the cap. -/
theorem links_capped {st₀ st : Store} {ls : List (Request × Host)} {M t : Int64} (hM : 0 < M)
    (h₀ : OpenedEmpty st₀) (hrun : run serve st₀ ls = some st)
    (hhost : ∀ q ∈ ls, q.2.linkTtlMs = M ∧ 0 ≤ q.2.clk 0 ∧ q.2.clk 0 ≤ t)
    (httl : ∀ q ∈ ls, q.1.ttlClean = true) :
    ∀ c l, st.inner.links c = some l → l.e ≠ 0 ∧ l.e.toInt ≤ t.toInt + M.toInt := by
  refine forall_links_run (P := LinkRow.Capped M t) h₀.alone ?_ ?_
    (fun q hq ↦ And.intro (hhost q hq) (httl q hq)) hrun
  · intro c l hl
    exact nomatch (h₀.links c).symm.trans hl
  · rintro st q c l hall ⟨⟨hcap, hclk, ht⟩, httl⟩ hfrom
    exact hfrom.capped hall hM hcap hclk ht httl

/-- A host at time 7 with a cap of 5. -/
def cappedHost : Host where
  clk := fun _ ↦ 7
  linkTtl := some (lit "5")
  adminToken := some (lit "t")

/-- A link that is to live for `ttl`. -/
def postTtl (ttl : String) : Request where
  method := lit "POST"
  path := lit "/api/shorten"
  body := lit "\x7b\"url\":\"http://h/\",\"alias\":\"a\",\"ttl_ms\":" ++ lit ttl ++ lit "\x7d"

theorem links_capped_postTtl : ∃ st, run serve openMemory [(postTtl "9.5", cappedHost)] = some st ∧
    st.inner.links (lit "a") = some ⟨lit "http://h/", 7, 12, 0⟩ ∧
    ∀ c l, st.inner.links c = some l → l.e ≠ 0 ∧ l.e.toInt ≤ (8 : Int64).toInt + (5 : Int64).toInt := by
  obtain ⟨st, hrun, hl⟩ : ∃ st, run serve openMemory [(postTtl "9.5", cappedHost)] = some st ∧
      st.inner.links (lit "a") = some ⟨lit "http://h/", 7, 12, 0⟩ := by
    decide +kernel
  refine ⟨st, hrun, hl, links_capped (by decide) (.inl rfl) hrun ?_ ?_⟩
  · decide +kernel
  · decide +kernel

theorem link_uncapped : ∃ st, run serve openMemory [(postTtl "0.5", cappedHost)] = some st ∧
    st.inner.links (lit "a") = some ⟨lit "http://h/", 7, 0, 0⟩ := by
  decide +kernel

end Shrt
