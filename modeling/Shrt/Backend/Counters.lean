import Shrt.Kv.Hits
import Shrt.Rocks.Hits

/-!
# Hits that are lost, and hits that are inherited

Two questions about the counters of both external backends, answered for their books. A flush
forgets what is pending before it writes, so a flush that fails loses it (`hits_conserved_iff`). And
`remove` deletes the counter of a link but not what is pending of it, which is counted for the next
link with the same code (`hits_since_created_iff`).
-/

namespace Shrt.Backend

open Ledger (since events known_of_prefix balance_eq_count_iff balance_eq_since_iff)
open Lockstep (after)
open Transition (Meets)

variable {cfg : Config}

/-! ## Flushes that fail -/

/-- **Hits are conserved** exactly if nothing is pending whenever a flush fails. -/
theorem hits_conserved_iff (htrack : cfg.track = true) :
    (∀ (lay : Kv.Layout) (ops : List (Kv.Moment × HitOp)), ops.length < 2 ^ 63 →
      ((∀ pre, pre <+: ops → ∀ c,
        (Kv.books lay (after (Kv.serveHit cfg lay) ({}, {}) pre)).balance c =
          (pre.map Prod.snd).count (.bump c)) ↔
      Meets (fun s p ↦ some (Kv.serveHit cfg lay s p).2)
        (fun s p ↦ p.2 = .flush true → ∀ c, (Kv.books lay s).pending c = 0) ({}, {}) ops)) ∧
    ∀ ops : List (Rocks.Moment × HitOp), ops.length < 2 ^ 63 →
      ((∀ pre, pre <+: ops → ∀ c, (Rocks.books (after (Rocks.serveHit cfg) ({}, {}) pre)).balance c =
          (pre.map Prod.snd).count (.bump c)) ↔
      Meets (fun s p ↦ some (Rocks.serveHit cfg s p).2)
        (fun s p ↦ p.2 = .flush true → ∀ c, (Rocks.books s).pending c = 0) ({}, {}) ops) := by
  have hkept {op : HitOp} (k : Bytes) : op.event ≠ .delete k := by
    cases op with
    | bump code => simp [HitOp.event]
    | flush fails => cases fails <;> simp [HitOp.event]
  constructor
  · intro lay ops hlen
    have hlen' : ops.length ≤ 2 ^ 63 - 1 := by omega
    have hiff := balance_eq_count_iff (s := (({} : Node), ({} : Kv.Redis)))
      (@Kv.keeps_serveHit cfg lay htrack) (fun _ _ k _ ↦ hkept k) (fun _ _ ↦ trivial) hlen'
      (Kv.countable_empty lay) (Kv.books_empty lay)
    simp only [count_events, HitOp.event_eq_lose] at hiff
    exact hiff
  · intro ops hlen
    have hlen' : ops.length ≤ 2 ^ 63 - 1 := by omega
    have hiff := balance_eq_count_iff (s := (({} : Node), ({} : Rocks.RocksDB)))
      (Rocks.keeps_serveHit htrack) (fun _ _ k _ ↦ hkept k) (fun _ _ ↦ trivial) hlen'
      trivial Rocks.books_empty
    simp only [count_events, HitOp.event_eq_lose] at hiff
    exact hiff

/-- A flush that fails while nothing is pending. -/
def idleFailure (t : Kv.Moment) : List (Kv.Moment × HitOp) :=
  [(t, .flush true), (t, .bump (lit "abc")), (t, .flush false)]

theorem hits_conserved_iff_idleFailure :
    (Kv.books .key (after (Kv.serveHit {} .key) ({}, {}) (idleFailure ⟨0, fun _ ↦ 0, default⟩))).balance
        (lit "abc") =
      ((idleFailure ⟨0, fun _ ↦ 0, default⟩).map Prod.snd).count (.bump (lit "abc")) := by
  refine ((hits_conserved_iff rfl).1 .key (idleFailure ⟨0, fun _ ↦ 0, default⟩) (by decide)).mpr ?_ _
    List.prefix_rfl (lit "abc")
  refine ⟨fun _ c ↦ (Kv.books_empty .key c).2, fun s _ ↦ ⟨fun h ↦ ?_, fun s _ ↦ ⟨fun h ↦ ?_, ?_⟩⟩⟩
  · cases h
  · cases h
  · exact fun _ _ ↦ trivial

/-- A hit that is pending when a flush fails. -/
theorem failed_flush_loses_hit :
    (Kv.books .key (after (Kv.serveHit {} .key) ({}, {})
      [(⟨0, fun _ ↦ 0, default⟩, .bump (lit "abc")), (⟨5, fun _ ↦ 0, default⟩, .flush true)])).balance
        (lit "abc") = 0 ∧
    (Kv.books (.hash 1000000) (after (Kv.serveHit {} (.hash 1000000)) ({}, {})
      [(⟨0, fun _ ↦ 0, default⟩, .bump (lit "abc")), (⟨5, fun _ ↦ 0, default⟩, .flush true)])).balance
        (lit "abc") = 0 ∧
    (Rocks.books (after (Rocks.serveHit {}) ({}, {})
      [(⟨0, fun _ ↦ 0⟩, .bump (lit "abc")), (⟨5, fun _ ↦ 0⟩, .flush true)])).balance
        (lit "abc") = 0 := by
  decide +kernel

/-! ## Links that are created again -/

/-- **Hits are those of the link** exactly if its code has no hits left when it is created: the
counter and what is pending are zero whenever `shorten` succeeds. -/
theorem hits_since_created_iff (htrack : cfg.track = true) :
    (∀ (lay : Kv.Layout) (ops : List (Kv.Moment × Kv.Op)), ops.length < 2 ^ 63 →
      (∀ p ∈ ops, Kv.Plain lay p) →
      ((∀ pre, pre <+: ops → ∀ t c l, lay.Takes c →
        (Kv.serveOp cfg lay (after (Kv.serveOp cfg lay) ({}, {}) pre) (t, .stats c)).1 =
          .link (some l) →
        l.hits.toInt = since c (events (Kv.serveOp cfg lay) Kv.event ({}, {}) pre)) ↔
      Meets (fun s p ↦ some (Kv.serveOp cfg lay s p).2)
        (fun s p ↦ (Kv.books lay s).Ready (Kv.event p (Kv.serveOp cfg lay s p).1)) ({}, {}) ops)) ∧
    ∀ ops : List (Rocks.Moment × Rocks.Op), ops.length < 2 ^ 63 → (∀ p ∈ ops, Rocks.Plain p) →
      ((∀ pre, pre <+: ops → ∀ t c l,
        (Rocks.serveOp cfg (after (Rocks.serveOp cfg) ({}, {}) pre) (t, .stats c)).1 =
          .link (some l) →
        l.hits.toInt = since c (events (Rocks.serveOp cfg) Rocks.event ({}, {}) pre)) ↔
      Meets (fun s p ↦ some (Rocks.serveOp cfg s p).2)
        (fun s p ↦ (Rocks.books s).Ready (Rocks.event p (Rocks.serveOp cfg s p).1)) ({}, {}) ops) := by
  constructor
  · intro lay ops hlen hplain
    have hlen' : ops.length ≤ 2 ^ 63 - 1 := by omega
    have hthere : ∀ (s : Node × Kv.Redis) c, Kv.Countable lay s.2 → Kv.Reported cfg lay s c →
        (Kv.books lay s).present c := fun s c h ⟨hc, t, l, hl⟩ ↦ (Kv.hits_of_stats h hc hl).1
    have hiff := balance_eq_since_iff (s := (({} : Node), ({} : Kv.Redis)))
      (@Kv.keeps_serveOp cfg lay htrack) (fun _ _ _ ↦ Kv.event_ne_lose) hthere
      (fun _ _ _ ↦ Kv.reported_of_event) hplain hlen' (Kv.countable_empty lay) (Kv.books_empty lay)
    rw [← hiff]
    refine forall_congr' fun pre ↦ forall_congr' fun hpre ↦ ?_
    have hknown := known_of_prefix (s := (({} : Node), ({} : Kv.Redis)))
      (@Kv.keeps_serveOp cfg lay htrack) hplain hlen' (Kv.countable_empty lay)
      (Kv.books_empty lay) hpre
    have hshort := hpre.length_le
    have hits {t c l} (hc : lay.Takes c) (hl : (Kv.serveOp cfg lay (after (Kv.serveOp cfg lay) ({}, {})
        pre) (t, .stats c)).1 = .link (some l)) : l.hits.toInt =
        (Kv.books lay (after (Kv.serveOp cfg lay) ({}, {}) pre)).balance c := by
      rw [(Kv.hits_of_stats hknown.inv hc hl).2]
      exact toInt_balance hknown.within (by omega) c
    constructor
    · rintro h c ⟨hc, t, l, hl⟩
      rw [← hits hc hl]
      exact h t c l hc hl
    · intro h t c l hc hl
      rw [hits hc hl]
      exact h c ⟨hc, t, l, hl⟩
  · intro ops hlen hplain
    have hlen' : ops.length ≤ 2 ^ 63 - 1 := by omega
    have hthere : ∀ (s : Node × Rocks.RocksDB) c, True → Rocks.Reported cfg s c →
        (Rocks.books s).present c := fun s c _ ⟨t, l, hl⟩ ↦ (Rocks.hits_of_stats hl).1
    have hiff := balance_eq_since_iff (s := (({} : Node), ({} : Rocks.RocksDB)))
      (Rocks.keeps_serveOp htrack) (fun _ _ _ ↦ Rocks.event_ne_lose) hthere
      (fun _ _ _ _ ↦ Rocks.reported_of_event) hplain hlen' trivial Rocks.books_empty
    rw [← hiff]
    refine forall_congr' fun pre ↦ forall_congr' fun hpre ↦ ?_
    have hknown := known_of_prefix (s := (({} : Node), ({} : Rocks.RocksDB)))
      (Rocks.keeps_serveOp htrack) hplain hlen' trivial Rocks.books_empty hpre
    have hshort := hpre.length_le
    have hits {t c l} (hl : (Rocks.serveOp cfg (after (Rocks.serveOp cfg) ({}, {}) pre)
        (t, .stats c)).1 = .link (some l)) : l.hits.toInt =
        (Rocks.books (after (Rocks.serveOp cfg) ({}, {}) pre)).balance c := by
      rw [(Rocks.hits_of_stats hl).2]
      exact toInt_balance hknown.within (by omega) c
    constructor
    · rintro h c ⟨t, l, hl⟩
      rw [← hits hl]
      exact h t c l hl
    · intro h t c l hl
      rw [hits hl]
      exact h c ⟨t, l, hl⟩

/-- A link whose hits are flushed before it is removed and created again. -/
def flushedInTime : List (Kv.Moment × Kv.Op) :=
  [(⟨0, fun _ ↦ 0, default⟩, .shorten (lit "http://x") (lit "abc") 0),
    (⟨1, fun _ ↦ 0, default⟩, .resolve (lit "abc")), (⟨2, fun _ ↦ 0, default⟩, .flush),
    (⟨3, fun _ ↦ 0, default⟩, .remove (lit "abc")),
    (⟨4, fun _ ↦ 0, default⟩, .shorten (lit "http://y") (lit "abc") 0)]

theorem hits_since_created_iff_flushedInTime :
    (0 : Int64).toInt =
      since (lit "abc") (events (Kv.serveOp {} .key) Kv.event ({}, {}) flushedInTime) := by
  refine ((hits_since_created_iff rfl).1 .key flushedInTime (by decide) ?_).mpr (by decide +kernel) _
    List.prefix_rfl ⟨5, fun _ ↦ 0, default⟩ (lit "abc") ⟨lit "abc", lit "http://y", 0, 4, 0⟩ trivial
    (by decide +kernel)
  intro p hp
  simp only [flushedInTime, List.mem_cons, List.not_mem_nil, or_false] at hp
  rcases hp with rfl | rfl | rfl | rfl | rfl <;> exact ⟨fun _ _ ↦ trivial, trivial⟩

/-- The hit of a link that was removed is counted for the next one. -/
theorem successor_inherits_hit :
    Lockstep.outputs (Kv.serveOp {} .key) ({}, {})
      [(⟨0, fun _ ↦ 0, default⟩, .shorten (lit "http://x") (lit "abc") 0),
        (⟨1, fun _ ↦ 0, default⟩, .resolve (lit "abc")),
        (⟨2, fun _ ↦ 0, default⟩, .remove (lit "abc")),
        (⟨3, fun _ ↦ 0, default⟩, .shorten (lit "http://y") (lit "abc") 0),
        (⟨4, fun _ ↦ 0, default⟩, .stats (lit "abc"))] =
      [.code (some (lit "abc")), .url (some (lit "http://x")), .result .ok, .code (some (lit "abc")),
        .link (some ⟨lit "abc", lit "http://y", 1, 3, 0⟩)] ∧
    Lockstep.outputs (Rocks.serveOp {}) ({}, {})
      [(⟨0, fun _ ↦ 0⟩, .shorten (lit "http://x") (lit "abc") 0),
        (⟨1, fun _ ↦ 0⟩, .resolve (lit "abc")), (⟨2, fun _ ↦ 0⟩, .remove (lit "abc")),
        (⟨3, fun _ ↦ 0⟩, .shorten (lit "http://y") (lit "abc") 0),
        (⟨4, fun _ ↦ 0⟩, .stats (lit "abc"))] =
      [.code (some (lit "abc")), .url (some (lit "http://x")), .result .ok, .code (some (lit "abc")),
        .link (some ⟨lit "abc", lit "http://y", 1, 3, 0⟩)] := by
  decide +kernel

end Shrt.Backend
