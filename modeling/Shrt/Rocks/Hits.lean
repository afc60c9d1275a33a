import Shrt.Backend.Hits
import Shrt.Rocks.Memory

/-!
# The books of a RocksDB node

The counters of the database are eight bytes each, and a flush is one batch of additions. A node
keeps books (`keeps_serveOp`, `keeps_serveHit`) as one of the KV backend does: `remove` deletes the
counter, but not what is pending in memory, and a batch that fails is not repeated.
-/

namespace Shrt.Rocks

open Backend (Config Node Out HitOp Fits enc dec_enc expired amount deltasOf toInt_add_of_lt books_hit
  books_lose exec_bump)
open Ledger (Books Event Keeps)
open Store (allShards)

variable {cfg : Config} {t : Moment} {s : Node × RocksDB} {code url : Bytes} {ttl : Int64}

/-- The books of a node. -/
def books (s : Node × RocksDB) : Books Bytes :=
  s.1.books (fun c ↦ (s.2.links.lookup c).isSome = true) fun c ↦ (hitsOf s.2 c).toInt64

theorem books_empty (c : Bytes) :
    (books ({}, {})).stored c = 0 ∧ (books ({}, {})).pending c = 0 :=
  ⟨rfl, rfl⟩

/-- What an operation means for the books. -/
def event (p : Moment × Op) (out : Out) : Event Bytes := match p.2, out with
  | .shorten _ _ _, .code (some c) => .create c
  | .resolve c, .url (some _) => .hit c
  | .remove c, .result .ok => .delete c
  | .flush, _ => .flush
  | _, _ => .idle

theorem event_ne_lose {p : Moment × Op} {out : Out} : event p out ≠ .lose := by
  rw [event.eq_def]
  split <;> simp

/-- The operations that the books are about. No link has expired when it is created. -/
def Plain (p : Moment × Op) : Prop := match p.2 with
  | .update _ _ _ _ => False
  | .shorten _ _ ttl => expired (expiry p.1.now ttl) p.1.now = false
  | .resolve _ | .remove _ | .stats _ | .flush => True

/-- Adding up what was pending. -/
theorem books_merged (ord : Order) (hfits : Fits (books s)) :
    books ((s.1.drained ord allShards []).2, ((s.1.drained ord allShards []).1.map fun p ↦
      (p.1, u64Bytes p.2.toUInt64)).foldl RocksDB.add s.2) = (books s).after .flush := by
  have hdrained := Backend.drained_allShards ord s.1
  generalize s.1.drained ord allShards [] = r at hdrained
  refine Books.ext (funext fun c ↦ ?_) (funext fun c ↦ ?_) (funext fun c ↦ ?_)
  · simp only [books, Node.books, Books.after, links_merged]
  · obtain ⟨hstored, hpending, hlt⟩ := hfits.bounds c
    have hamount : amount c r.1 = (s.1.pendingAt c).getD 0 := by
      have hsum : amount c r.1 = (deltasOf c r.1).sum := rfl
      rw [hsum, (hdrained c).1]
      cases s.1.pendingAt c with
      | none => rfl
      | some d => exact add_zero d
    have hback : (amount c r.1).toUInt64.toInt64 = amount c r.1 := rfl
    simp only [books, Node.books, Books.after, Books.balance]
    rw [hitsOf_merged, UInt64.toInt64_add, hback, hamount,
      toInt_add_of_lt hstored hpending (by omega)]
  · simp only [books, Node.books, Books.after, (hdrained c).2, Option.getD_none, Int64.toInt_zero]

/-- **A node keeps books.** -/
theorem keeps_serveOp (htrack : cfg.track = true) :
    Keeps (serveOp cfg) event books Plain (fun _ ↦ True) (2 ^ 63 - 1) := by
  rintro s ⟨t, op⟩ - hplain hfits
  refine ⟨trivial, ?_⟩
  cases op with
  | shorten url code ttl =>
    rw [serveOp_shorten]
    split_ifs with hthere
    · rfl
    · refine Books.ext (funext fun c ↦ propext ?_) rfl rfl
      change ((s.2.links.insert code _).lookup c).isSome = true ↔
        Function.update (books s).present code True c
      rw [lookup_insert, Function.update_apply]
      split_ifs with hc
      · exact ⟨fun _ ↦ trivial, fun _ ↦ rfl⟩
      · exact Iff.rfl
  | resolve code =>
    rw [serveOp_resolve]
    have hpending := s.1.pendingAt_resolved cfg code (fun _ ↦ t.now) (s.2.links.lookup code)
    generalize s.1.resolved cfg code (fun _ ↦ t.now) (s.2.links.lookup code) = r at hpending
    obtain ⟨u, n⟩ := r
    cases u with
    | none =>
      refine Books.ext rfl rfl (funext fun c ↦ congrArg Int64.toInt ?_)
      refine (hpending c).trans ?_
      rw [if_neg (by simp), add_zero]
    | some u => exact books_hit hfits fun c ↦ (hpending c).trans (by simp [htrack])
  | update code url ttl hasTtl => exact hplain.elim
  | remove code =>
    rw [serveOp_remove]
    split_ifs with hnone
    · rfl
    · refine Books.ext (funext fun c ↦ propext ?_) (funext fun c ↦ ?_) rfl
      · change ((s.2.links.erase code).lookup c).isSome = true ↔
          Function.update (books s).present code False c
        rw [lookup_erase, Function.update_apply]
        split_ifs with hc
        · exact ⟨fun h ↦ Bool.false_ne_true h, False.elim⟩
        · exact Iff.rfl
      · change (u64Of (((s.2.hits.erase code).lookup c).getD [])).toInt64.toInt =
          Function.update (books s).stored code 0 c
        rw [lookup_erase, Function.update_apply]
        split_ifs with hc
        · rfl
        · rfl
  | stats code =>
    rw [serveOp_stats]
    cases (s.2.links.lookup code).bind Backend.dec with
    | none => rfl
    | some row =>
      dsimp only
      split_ifs with hexp
      · rfl
      · refine Books.ext rfl rfl (funext fun c ↦ congrArg Int64.toInt ?_)
        dsimp only
        rw [Node.pendingAt_setPending]
        split_ifs with hc
        · rw [hc]
          rfl
        · rfl
  | flush =>
    rw [serveOp_flush]
    exact books_merged t.ord hfits

/-- A node and its hits. When a flush fails, the batch is not written. -/
def serveHit (cfg : Config) (s : Node × RocksDB) (p : Moment × HitOp) : Unit × (Node × RocksDB) :=
  match p.2 with
  | .bump code => (Backend.bump cfg code).exec (step cfg { ord := p.1.ord }) s
  | .flush fails => flushHits.exec (step cfg { ord := p.1.ord, ok := !fails }) s

theorem keeps_serveHit (htrack : cfg.track = true) :
    Keeps (serveHit cfg) (fun p _ ↦ p.2.event) books (fun _ ↦ True) (fun _ ↦ True) (2 ^ 63 - 1) := by
  rintro s ⟨t, op⟩ - - hfits
  refine ⟨trivial, ?_⟩
  cases op with
  | bump code =>
    have hserve : serveHit cfg s (t, .bump code) = ((), s.1.bumped cfg code, s.2) :=
      exec_bump cfg t.ord (serve true) code s
    rw [hserve]
    refine books_hit hfits fun c ↦ ?_
    rw [Node.pendingAt_bumped]
    simp [htrack]
  | flush fails =>
    have hserve := @exec_flushHits cfg s { ord := t.ord, ok := !fails }
    change books (flushHits.exec (step cfg { ord := t.ord, ok := !fails }) s).2 = _
    rw [hserve]
    cases fails with
    | false => exact books_merged t.ord hfits
    | true => exact books_lose t.ord

/-! ## What `stats` reports -/

/-- `stats` reports the balance of a link that exists. -/
theorem hits_of_stats {l : Store.Link}
    (hl : (serveOp cfg s (t, .stats code)).1 = .link (some l)) :
    (books s).present code ∧ l.hits = (hitsOf s.2 code).toInt64 + (s.1.pendingAt code).getD 0 := by
  rw [serveOp_stats] at hl
  cases hrow : (s.2.links.lookup code).bind Backend.dec with
  | none =>
    rw [hrow] at hl
    cases hl
  | some row =>
    obtain ⟨v, hv, -⟩ := Option.bind_eq_some_iff.mp hrow
    rw [hrow] at hl
    dsimp only at hl
    split_ifs at hl with hexp
    · cases hl
    · rw [← Option.some.inj (Out.link.inj hl)]
      refine ⟨?_, rfl⟩
      change (s.2.links.lookup code).isSome = true
      rw [hv]
      rfl

/-- `stats` reports a link that was just created. -/
theorem stats_of_create (hlive : expired (expiry t.now ttl) t.now = false)
    (hcreate : (serveOp cfg s (t, .shorten url code ttl)).1 = .code (some code)) :
    ∃ l, (serveOp cfg (serveOp cfg s (t, .shorten url code ttl)).2 (t, .stats code)).1 =
      .link (some l) := by
  rw [serveOp_shorten] at hcreate ⊢
  split_ifs at hcreate ⊢ with hthere
  · cases hcreate
  · rw [serveOp_stats]
    dsimp only
    rw [lookup_insert, if_pos rfl, Option.bind_some, dec_enc]
    dsimp only
    rw [if_neg (by rw [hlive]; decide)]
    exact ⟨_, rfl⟩

/-- There are statistics of a code, at some time. -/
def Reported (cfg : Config) (s : Node × RocksDB) (c : Bytes) : Prop :=
  ∃ t l, (serveOp cfg s (t, .stats c)).1 = .link (some l)

theorem shorten_of_event {p : Moment × Op} {out : Out} {c : Bytes} (he : event p out = .create c) :
    (∃ url code ttl, p.2 = .shorten url code ttl) ∧ out = .code (some c) := by
  rw [event.eq_def] at he
  split at he
  · rename_i url code ttl c' hop
    exact ⟨⟨url, code, ttl, hop⟩, by rw [Event.create.inj he]⟩
  all_goals cases he

theorem reported_of_event {p : Moment × Op} {c : Bytes} (hplain : Plain p)
    (he : event p (serveOp cfg s p).1 = .create c) : Reported cfg (serveOp cfg s p).2 c := by
  obtain ⟨t, op⟩ := p
  obtain ⟨⟨url, code, ttl, rfl⟩, hout⟩ := shorten_of_event he
  obtain rfl : code = c := by
    rw [serveOp_shorten] at hout
    split_ifs at hout
    · cases hout
    · exact Option.some.inj (Out.code.inj hout)
  exact ⟨t, stats_of_create hplain hout⟩

end Shrt.Rocks
