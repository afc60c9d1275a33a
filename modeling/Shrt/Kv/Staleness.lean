import Shrt.Kv.Requests
import Shrt.Lib.Lockstep

/-!
# How stale a link may be

Nodes of the KV backend do not tell each other about mutations, so a node may return what it has
cached when the server has something else. `cache_ttl_ms` bounds for how long: what a node returns
at a time, the server held no longer ago than that (`staleness_bounded`).

The server is looked at between the requests: a time belongs to every state between the requests up
to it and those after it (`HeldAt`).
-/

namespace Shrt.Kv

open Backend (Config Node Out Row KvEntry dec expired)
open Lockstep (after after_concat)

variable {ι : Type} [DecidableEq ι]

/-- A request to a node at one time. -/
abbrev NodeCall (ι : Type) := Moment × ι × Request

/-- A request in one go. -/
def serveCall (cfg : ι → Config) (lay : Layout) (s : (ι → Node) × Redis) (c : NodeCall ι) :
    Out × ((ι → Node) × Redis) :=
  (c.2.2.prog (cfg c.2.1) lay fun _ ↦ c.1.now).exec (stepAt cfg c.2.1 c.1) s

variable {cfg : ι → Config} {lay : Layout} {s₀ : (ι → Node) × Redis} {calls : List (NodeCall ι)}
  {code : Bytes} {now : Int64} {row : Row}

/-- At a time the server held an unexpired row for a code. -/
def HeldAt (cfg : ι → Config) (lay : Layout) (s₀ : (ι → Node) × Redis) (calls : List (NodeCall ι))
    (code : Bytes) (now : Int64) (row : Row) : Prop :=
  ∃ pre rest, calls = pre ++ rest ∧ (∀ c ∈ pre, c.1.now ≤ now) ∧ (∀ c ∈ rest, now ≤ c.1.now) ∧
    (lay.value (after (serveCall cfg lay) s₀ pre).2 now code).bind dec = some row ∧
    expired row.e now = false

/-- What the server held, it held also when more is asked later. -/
theorem HeldAt.concat (h : HeldAt cfg lay s₀ calls code now row) {c : NodeCall ι} (hc : now ≤ c.1.now) :
    HeldAt cfg lay s₀ (calls ++ [c]) code now row := by
  obtain ⟨pre, rest, rfl, hpre, hrest, hrow⟩ := h
  refine ⟨pre, rest ++ [c], List.append_assoc _ _ _, hpre, fun c' hc' ↦ ?_, hrow⟩
  rcases List.mem_append.mp hc' with hc' | hc'
  · exact hrest c' hc'
  · rwa [List.mem_singleton.mp hc']

/-- The server is the layout's own, and it held what is cached at the time of the request that
cached it. -/
structure Traced (cfg : ι → Config) (lay : Layout) (s₀ : (ι → Node) × Redis)
    (calls : List (NodeCall ι)) :
    Prop where
  own : lay.Own (after (serveCall cfg lay) s₀ calls).2
  cached : ∀ i code it, ((after (serveCall cfg lay) s₀ calls).1 i).cached code = some it →
    (∃ c ∈ calls, c.1.now = it.cachedAt) ∧
    ∃ row, HeldAt cfg lay s₀ calls code it.cachedAt row ∧ row.u = it.u ∧ row.e = it.e

/-! ## One request -/

/-- What `resolve` returns and does. -/
theorem serveCall_resolve {s : (ι → Node) × Redis} (hs : lay.Own s.2) (t : Moment) (i : ι)
    (code : Bytes) : serveCall cfg lay s (t, i, .resolve code) =
      (.url ((s.1 i).resolved (cfg i) code (fun _ ↦ t.now) (lay.value s.2 t.now code)).1,
        Function.update s.1 i
          ((s.1 i).resolved (cfg i) code (fun _ ↦ t.now) (lay.value s.2 t.now code)).2, s.2) := by
  have hget (n : Node) : (kvGet lay code).exec (step (cfg i) t) (n, s.2) =
      (lay.value s.2 t.now code, n, s.2) := exec_kvGet hs code
  rw [serveCall, exec_stepAt, Request.prog, Interleave.Prog.exec_bind, Kv.resolve,
    Backend.exec_resolve hget]
  rfl

/-- What the others do: they keep to the layout, and put nothing into the cache. -/
theorem serveCall_of_ne_resolve {s : (ι → Node) × Redis} (hs : lay.Own s.2) {c : NodeCall ι}
    (hc : ∀ code, c.2.2 ≠ .resolve code) : lay.Own (serveCall cfg lay s c).2.2 ∧
      ∀ i code it, ((serveCall cfg lay s c).2.1 i).cached code = some it →
        (s.1 i).cached code = some it := by
  rw [serveCall]
  refine (only_prog c.2.2).exec (I := fun s' : (ι → Node) × Redis ↦ lay.Own s'.2 ∧
    ∀ i code it, (s'.1 i).cached code = some it → (s.1 i).cached code = some it)
    (fun a s' ha hs' ↦ ⟨ha.own hs'.1, fun i code it hit ↦ hs'.2 i code it ?_⟩)
    ⟨hs, fun _ _ _ h ↦ h⟩
  simp only [stepAt, Function.update_apply] at hit
  split_ifs at hit with hi
  · rw [hi]
    exact ha.cached hc _ hit
  · exact hit

/-- A request leaves every cached link traced. -/
theorem Traced.concat (h : Traced cfg lay s₀ calls) {c : NodeCall ι}
    (hc : ∀ c' ∈ calls, c'.1.now ≤ c.1.now) : Traced cfg lay s₀ (calls ++ [c]) := by
  have hbefore (i : ι) (code : Bytes) (it : KvEntry)
      (hit : ((after (serveCall cfg lay) s₀ calls).1 i).cached code = some it) :
      (∃ c' ∈ calls ++ [c], c'.1.now = it.cachedAt) ∧
      ∃ row, HeldAt cfg lay s₀ (calls ++ [c]) code it.cachedAt row ∧ row.u = it.u ∧ row.e = it.e := by
    obtain ⟨⟨c', hc', hat⟩, row, hrow, hsame⟩ := h.cached i code it hit
    exact ⟨⟨c', List.mem_append_left _ hc', hat⟩, row, hrow.concat (hat ▸ hc c' hc'), hsame⟩
  by_cases hreq : ∃ code, c.2.2 = .resolve code
  · obtain ⟨t, i, req⟩ := c
    obtain ⟨code, rfl⟩ := hreq
    have hafter := after_concat (serveCall cfg lay) s₀ calls (t, i, .resolve code)
    rw [serveCall_resolve h.own] at hafter
    refine ⟨?_, fun j c' it hit ↦ ?_⟩
    · rw [hafter]
      exact h.own
    · rw [hafter] at hit
      simp only [Function.update_apply] at hit
      split_ifs at hit with hj
      · rcases Node.cached_of_resolved hit with hit | ⟨row, hrow, hlive, rfl, rfl⟩
        · exact hbefore i c' it hit
        · -- It was read from the server just now, which is between all requests so far and none.
          refine ⟨⟨_, List.mem_append_right _ (List.mem_singleton_self _), rfl⟩, row, ?_, rfl, rfl⟩
          refine HeldAt.concat ?_ (Int64.le_refl t.now)
          exact ⟨calls, [], (List.append_nil _).symm, hc, fun _ h ↦ absurd h List.not_mem_nil,
            hrow, hlive⟩
      · exact hbefore j c' it hit
  · have hother (code : Bytes) : c.2.2 ≠ .resolve code := fun hcode ↦ hreq ⟨code, hcode⟩
    obtain ⟨hown, hcached⟩ := @serveCall_of_ne_resolve _ _ cfg _ _ h.own _ hother
    refine ⟨?_, fun i code it hit ↦ ?_⟩
    · rw [after_concat]
      exact hown
    · rw [after_concat] at hit
      exact hbefore i code it (hcached i code it hit)

/-! ## Any requests -/

/-- Whatever is asked at non-decreasing times, what is cached is traced. -/
theorem traced (hown : lay.Own s₀.2) (hempty : ∀ i code, (s₀.1 i).cached code = none)
    (htimes : calls.Pairwise fun c c' ↦ c.1.now ≤ c'.1.now) : Traced cfg lay s₀ calls := by
  induction calls using List.reverseRecOn with
  | nil =>
    refine ⟨hown, fun i code it hit ↦ ?_⟩
    cases (hempty i code).symm.trans hit
  | append_singleton calls c ih =>
    obtain ⟨hbefore, -, hlast⟩ := List.pairwise_append.mp htimes
    exact (ih hbefore).concat fun c' hc' ↦ hlast c' hc' c (List.mem_singleton_self c)

/-- What was not cached too long ago was cached within the bound: times do not wrap. -/
theorem sub_le_of_recent {T t s : Int64} (hT : 0 < T) (h : ¬ (0 < T ∧ T < t - s)) (hs : 0 ≤ s)
    (hst : s ≤ t) : t.toInt - T.toInt ≤ s.toInt := by
  have hle : t - s ≤ T := by
    rw [Int64.le_iff_toInt_le]
    exact not_lt.mp fun hlt ↦ h ⟨hT, Int64.lt_iff_toInt_lt.mpr hlt⟩
  rw [Int64.le_iff_toInt_le] at hle hs hst
  rw [Int64.toInt_zero] at hs
  have hwrap : (t - s).toInt = t.toInt - s.toInt := by
    rw [Int64.toInt_sub]
    have := t.toInt_lt
    exact Int.bmod_eq_of_le (by omega) (by omega)
  omega

/-- **Staleness is bounded.** Over nodes with the same `cache_ttl_ms`, that start with empty caches
over any server, whatever is asked of any of them at non-decreasing times: when a `resolve` returns
a url, the server held it for the code, unexpired, no longer ago than that, and the expiry it had
has not passed. -/
theorem staleness_bounded {T : Int64} (hT : 0 < T) (hcfg : ∀ i, (cfg i).cacheTtl = T) {db : Redis}
    (hown : lay.Own db) {t : Moment} {i : ι} {u : Bytes}
    (htimes : (0 :: (calls.map (·.1.now) ++ [t.now])).Pairwise (· ≤ ·))
    (h : (serveCall cfg lay (after (serveCall cfg lay) (fun _ ↦ {}, db) calls)
      (t, i, .resolve code)).1 = .url (some u)) :
    ∃ s row, t.now.toInt - T.toInt ≤ s.toInt ∧ s ≤ t.now ∧
      HeldAt cfg lay (fun _ ↦ {}, db) calls code s row ∧ row.u = u ∧
      expired row.e t.now = false := by
  rw [List.pairwise_cons, List.pairwise_append, List.pairwise_map] at htimes
  obtain ⟨hpos, hcalls, -, hlast⟩ := htimes
  have hbefore (c : NodeCall ι) (hc : c ∈ calls) : c.1.now ≤ t.now :=
    hlast _ (List.mem_map_of_mem hc) _ (List.mem_singleton_self _)
  have htraced : Traced cfg lay (fun _ ↦ {}, db) calls := traced hown (fun _ _ ↦ rfl) hcalls
  rw [serveCall_resolve htraced.own] at h
  rcases Node.resolved_eq_some (Out.url.inj h) with hget | ⟨row, hrow, hlive, hu⟩
  · -- From the cache.
    obtain ⟨it, hit, hu, hlive, hrecent⟩ := Node.cached_of_cacheGet_eq_some hget
    obtain ⟨⟨c, hc, hat⟩, row, hheld, hu', he⟩ := htraced.cached i code it hit
    have hst : it.cachedAt ≤ t.now := hat ▸ hbefore c hc
    have hs : 0 ≤ it.cachedAt :=
      hat ▸ hpos _ (List.mem_append_left _ (List.mem_map_of_mem hc))
    rw [hcfg] at hrecent
    exact ⟨it.cachedAt, row, sub_le_of_recent hT hrecent hs hst, hst, hheld, hu'.trans hu,
      he ▸ hlive⟩
  · -- From the server.
    have hT' := Int64.lt_iff_toInt_lt.mp hT
    refine ⟨t.now, row, ?_, Int64.le_refl _, ⟨calls, [], (List.append_nil _).symm, hbefore,
      fun _ h ↦ absurd h List.not_mem_nil, hrow, hlive⟩, hu, hlive⟩
    rw [Int64.toInt_zero] at hT'
    omega

/-- One node creates a link and changes it, after the other has cached it. -/
def changedAfterCached : List (NodeCall Bool) :=
  [({ now := 0 }, true, .shorten (lit "u") (some (lit "a")) [] 0),
   ({ now := 1 }, false, .resolve (lit "a")),
   ({ now := 2 }, true, .update (lit "a") (lit "v") 0 false)]

/-- The other node returns what it has cached, which the server no longer holds. -/
theorem staleness_bounded_changedAfterCached :
    ∃ s row, (3 : Int64).toInt - (5 : Int64).toInt ≤ s.toInt ∧ s ≤ 3 ∧
      HeldAt (fun _ ↦ { cacheTtl := 5 }) .key (fun _ ↦ {}, {}) changedAfterCached (lit "a") s row ∧
      row.u = lit "u" ∧ expired row.e 3 = false :=
  @staleness_bounded Bool _ (fun _ ↦ { cacheTtl := 5 }) .key changedAfterCached (lit "a") 5 (by decide)
    (fun _ ↦ rfl) {} rfl { now := 3 } false (lit "u") (by decide +kernel) (by decide +kernel)

end Shrt.Kv
