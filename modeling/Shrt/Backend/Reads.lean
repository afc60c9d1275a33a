import Shrt.Backend.Stale
import Shrt.Kv.Requests
import Shrt.Rocks.Node

/-!
# Reading one's own mutation, in both backends

The KV backend in both layouts and the RocksDB backend as services, and their calls as programs.
Both read their own mutations as long as fills come in time (`own_mutations_read`), and in both a
fill may be late (`stale_url_returned`).
-/

namespace Shrt.Backend

open Interleave (Prog Pool Label Thread)
open Interleave.Prog (Only)
open Transition (run Meets)

/-! ## The KV backend -/

/-- Whether a command asks for a code. -/
def kvFetches (lay : Kv.Layout) (c : Bytes) (q : Kv.Cmd) : Bool := match lay, q with
  | .key, .get k => k = Kv.lkey c
  | .hash b, .hget k f => k = Kv.bkey b c && f = c
  | _, _ => false

/-- The value in a reply. -/
def kvShows (lay : Kv.Layout) (r : Kv.Resp) : Option Bytes := match lay with
  | .key => if r.null then none else some r.str
  | .hash _ => if r.kind = 36 && !r.null then some r.str else none

/-- Whether a command changes the row of a code. -/
def kvWrites (lay : Kv.Layout) (c : Bytes) (q : Kv.Cmd) : Bool := match lay, q with
  | .key, .set k _ _ _ | .key, .del k => k = Kv.lkey c
  | .hash b, .hset k f _ | .hash b, .hdel k f => k = Kv.bkey b c && f = c
  | _, _ => false

/-- The value of a code, whether its deadline has passed or not. -/
def kvStored (lay : Kv.Layout) (db : Kv.Redis) (c : Bytes) : Option Bytes := match lay with
  | .key => (db.strings.lookup (Kv.lkey c)).map Prod.fst
  | .hash b => db.fields.lookup (Kv.bkey b c, c)

theorem kvStored_of_shows {lay : Kv.Layout} {t : Kv.Moment} {q : Kv.Cmd} {db : Kv.Redis} {c : Bytes}
    {row : Row} (hq : kvFetches lay c q = true)
    (h : (kvShows lay (Kv.serve t q db).1).bind dec = some row) :
    (kvStored lay db c).bind dec = some row := by
  cases lay with
  | key =>
    cases q with
    | get k =>
      obtain rfl := of_decide_eq_true hq
      rw [Kv.serve, Kv.Redis.exec] at h
      split_ifs at h with hhash
      · -- An error, whose text is no row.
        cases h
      · change (if (Kv.Redis.bulk _).seen.null then none else some (Kv.Redis.bulk _).seen.str).bind dec =
          some row at h
        rw [Kv.str_seen_bulk, Kv.Redis.string] at h
        obtain ⟨v, hv, hrow⟩ := Option.bind_eq_some_iff.mp h
        obtain ⟨s, hs, rfl⟩ := Option.map_eq_some_iff.mp hv
        rw [kvStored, (Option.filter_eq_some_iff.mp hs).1]
        exact hrow
    | set _ _ _ _ | del _ | incrby _ _ | hget _ _ | hsetnx _ _ _ | hset _ _ _ | hdel _ _ | hincrby _ _ _
    | scan _ | hscan _ => cases hq
  | hash b =>
    cases q with
    | hget k f =>
      obtain ⟨hk, hf⟩ := Bool.and_eq_true_iff.mp hq
      obtain rfl := of_decide_eq_true hk
      obtain rfl := of_decide_eq_true hf
      rw [Kv.serve, Kv.Redis.exec] at h
      split_ifs at h with hstring
      · cases h
      · simp only [kvShows, Kv.kind_seen_bulk, decide_true, Bool.true_and, Bool.not_eq_true',
          ← Bool.not_eq_true, ite_not, Kv.str_seen_bulk] at h
        exact h
    | get _ | set _ _ _ _ | del _ | incrby _ _ | hsetnx _ _ _ | hset _ _ _ | hdel _ _ | hincrby _ _ _
    | scan _ | hscan _ => cases hq

/-- The KV backend. -/
def kvService (lay : Kv.Layout) : Service Kv.Moment Kv.Cmd (fun _ ↦ Kv.Resp) Kv.Redis where
  ord t := t.ord
  serve := Kv.serve
  fetches := kvFetches lay
  shows _ := kvShows lay
  writes := kvWrites lay
  stored := kvStored lay
  stored_of_shows := kvStored_of_shows

variable {lay : Kv.Layout} {c : Bytes}

theorem kvFetches_readCmd : kvFetches lay c (Kv.readCmd lay c) = true := by
  cases lay with
  | key => exact decide_eq_true rfl
  | hash b => exact Bool.and_eq_true_iff.mpr ⟨decide_eq_true rfl, decide_eq_true rfl⟩

theorem kvGet_eq : Kv.kvGet lay c =
    .act (.query (Kv.readCmd lay c)) fun r ↦ .ret ((kvService lay).shows (Kv.readCmd lay c) r) := by
  cases lay with
  | key => rfl
  | hash b => rfl

/-- Once a mutation has written, it takes the code from the cache and succeeds. -/
theorem mutates_cacheDel {E Q δ : Type} {R : Q → Type} (S : Service E Q R δ) (c : Bytes) :
    S.Mutates c (.act (.cacheDel c) fun _ ↦ .ret (.result .ok)) :=
  .inl ⟨decide_eq_true rfl, fun _ ↦ trivial⟩

theorem mutates_missing {E Q δ : Type} {R : Q → Type} (S : Service E Q R δ) (c : Bytes) :
    S.Mutates c (.ret (.result .missing)) := by
  rintro ⟨⟩

theorem kv_mutates_update (code url : Bytes) (ttl : Int64) (hasTtl : Bool) (clk : Clock) :
    (kvService lay).Mutates code
      (Kv.update lay code url ttl hasTtl clk >>= fun r ↦ .ret (.result r)) := by
  rw [Kv.update, kvGet_eq]
  simp only [Prog.act_bind, Prog.ret_bind]
  refine .inr fun r ↦ ?_
  dsimp only
  cases ((kvService lay).shows (Kv.readCmd lay code) r).bind dec with
  | none => exact mutates_missing _ _
  | some row =>
    -- What follows the write, whether it was done or not.
    have hrest (written : Bool) : (kvService lay).Mutates code
        ((if written = true then cacheDel code >>= fun _ ↦ .ret .ok else .ret .missing) >>= fun r ↦
          .ret (.result r)) := by
      cases written with
      | false => exact mutates_missing _ _
      | true => exact mutates_cacheDel _ _
    cases lay with
    | key => exact .inr fun r ↦ hrest _
    | hash b => exact .inr fun r ↦ hrest _

theorem kv_mutates_remove (code : Bytes) :
    (kvService lay).Mutates code (Kv.remove lay code >>= fun r ↦ .ret (.result r)) := by
  cases lay with
  | key =>
    refine .inr fun r ↦ ?_
    change Service.Mutates _ _ ((if r.int ≤ 0 then .ret false else _) >>= _ >>= _)
    split_ifs
    · exact mutates_missing _ _
    · exact .inr fun r ↦ mutates_cacheDel _ _
  | hash b =>
    refine .inr fun r ↦ ?_
    change Service.Mutates _ _ ((if r.int ≤ 0 then .ret false else _) >>= _ >>= _)
    split_ifs
    · exact mutates_missing _ _
    · exact .inr fun r ↦ mutates_cacheDel _ _

/-- The requests that the calls are. -/
def Call.kvProg (cfg : Config) (lay : Kv.Layout) : Call → Kv.KvProg Out
  | .resolve code clk => (Kv.Request.resolve code).prog cfg lay clk
  | .update code url ttl hasTtl clk => (Kv.Request.update code url ttl hasTtl).prog cfg lay clk
  | .remove code => (Kv.Request.remove code).prog cfg lay fun _ ↦ 0

/-- The calls of the KV backend. -/
def kvServing (cfg : Config) (lay : Kv.Layout) : Serving (kvService lay) where
  body := Call.kvProg cfg lay
  innocent call c u hc := by
    cases call with
    | resolve code clk =>
      obtain rfl := Option.some.inj hc
      exact innocent_resolve kvGet_eq kvFetches_readCmd clk
    | update _ _ _ _ _ | remove _ => cases hc
  only_fills call c hcall := by
    cases call with
    | resolve code clk =>
      refine (Kv.only_prog (.resolve code)).mono fun a ha ↦ ?_
      obtain rfl | rfl | ⟨u, e, rfl⟩ | rfl := ha
      · rfl
      · rfl
      · exact decide_eq_false fun heq ↦ hcall (congrArg some heq)
      · rfl
    | update code url ttl hasTtl clk =>
      refine (@Kv.only_prog cfg lay clk (.update code url ttl hasTtl)).mono fun a ha ↦ ?_
      obtain rfl | ⟨exp, c', rfl⟩ | rfl := ha
      · rfl
      · rfl
      · rfl
    | remove code =>
      refine (@Kv.only_prog cfg lay (fun _ ↦ 0) (.remove code)).mono fun a ha ↦ ?_
      obtain ⟨q, -, rfl⟩ | rfl := ha
      · rfl
      · rfl
  mutates call c hc := by
    cases call with
    | resolve code clk => cases hc
    | update code url ttl hasTtl clk =>
      obtain rfl := Option.some.inj hc
      exact kv_mutates_update code url ttl hasTtl clk
    | remove code =>
      obtain rfl := Option.some.inj hc
      exact kv_mutates_remove code

/-! ## The RocksDB backend -/

/-- Whether a query asks for a code. -/
def rocksFetches (c : Bytes) : Rocks.Query → Bool
  | .get code => code = c
  | _ => false

/-- The value in a reply. -/
def rocksShows : (q : Rocks.Query) → q.Reply → Option Bytes
  | .get _, v => v
  | .put _ _, _ | .putAll _, _ | .delete _, _ | .getHits _, _ | .merge _, _ => none

/-- Whether a query changes the row of a code. -/
def rocksWrites (c : Bytes) : Rocks.Query → Bool
  | .put code _ | .delete code => code = c
  | _ => false

/-- The RocksDB backend. -/
def rocksService : Service Rocks.Fate Rocks.Query Rocks.Query.Reply Rocks.RocksDB where
  ord e := e.ord
  serve e := Rocks.serve e.ok
  fetches := rocksFetches
  shows := rocksShows
  writes := rocksWrites
  stored db c := db.links.lookup c
  stored_of_shows {e q db c row} hq h := by
    cases q with
    | get code =>
      obtain rfl := of_decide_eq_true hq
      exact h
    | put _ _ | putAll _ | delete _ | getHits _ | merge _ => cases hq

/-- The calls as programs. -/
def Call.rocksProg (cfg : Config) : Call → Rocks.RocksProg Out
  | .resolve code clk => do return .url (← Rocks.resolve cfg code clk)
  | .update code url ttl hasTtl clk => do return .result (← Rocks.update code url ttl hasTtl clk)
  | .remove code => do return .result (← Rocks.remove code)

/-- The calls of the RocksDB backend. -/
def rocksServing (cfg : Config) : Serving rocksService where
  body := Call.rocksProg cfg
  innocent call c u hc := by
    cases call with
    | resolve code clk =>
      obtain rfl := Option.some.inj hc
      exact innocent_resolve rfl (decide_eq_true rfl) clk
    | update _ _ _ _ _ | remove _ => cases hc
  only_fills call c hcall := by
    cases call with
    | resolve code clk =>
      refine Only.bind (only_resolve rfl ⟨rfl, fun _ ↦ trivial⟩ (fun u e ↦ ?_) rfl) fun _ ↦ trivial
      exact decide_eq_false fun heq ↦ hcall (congrArg some heq)
    | update code url ttl hasTtl clk =>
      refine Only.bind (Only.bind ⟨rfl, fun _ ↦ trivial⟩ fun v ↦ ?_) fun _ ↦ trivial
      cases v.bind dec with
      | none => trivial
      | some row =>
        refine ⟨rfl, fun written ↦ ?_⟩
        cases written with
        | false => trivial
        | true => exact ⟨rfl, fun _ ↦ trivial⟩
    | remove code =>
      refine Only.bind (Only.bind ⟨rfl, fun _ ↦ trivial⟩ fun v ↦ ?_) fun _ ↦ trivial
      split_ifs
      · trivial
      · exact ⟨rfl, fun _ ↦ ⟨rfl, fun _ ↦ trivial⟩⟩
  mutates call c hc := by
    cases call with
    | resolve code clk => cases hc
    | update code url ttl hasTtl clk =>
      obtain rfl := Option.some.inj hc
      refine .inr fun v ↦ ?_
      change Service.Mutates _ _ ((match v.bind dec with
        | none => _
        | some row => _) >>= _)
      cases v.bind dec with
      | none => exact mutates_missing _ _
      | some row =>
        refine .inr fun written ↦ ?_
        cases written with
        | false => exact mutates_missing _ _
        | true => exact mutates_cacheDel _ _
    | remove code =>
      obtain rfl := Option.some.inj hc
      refine .inr fun v ↦ ?_
      change Service.Mutates _ _ ((if v.isNone then _ else _) >>= _)
      split_ifs
      · exact mutates_missing _ _
      · exact .inr fun _ ↦ mutates_cacheDel _ _

/-! ## Both -/

section Schedules

variable {E Q δ : Type} {R : Q → Type} {S : Service E Q R δ}

/-- A `resolve` fetches a link, and an `update` of the link is about to write. -/
def fetchedBefore (e : E) : List (Label Call E) :=
  [.start (.resolve (lit "a") fun _ ↦ 1), .step 0 e, .step 0 e,
   .start (.update (lit "a") (lit "v") 0 false fun _ ↦ 1), .step 1 e]

/-- After the write, the cache is invalidated and filled in one order or the other; then the link is
resolved again. -/
def filledAfter (late : Bool) (e : E) : List (Label Call E) :=
  if late then [.step 1 e, .step 0 e, .start (.resolve (lit "a") fun _ ↦ 2), .step 2 e]
  else [.step 0 e, .step 1 e, .start (.resolve (lit "a") fun _ ↦ 2), .step 2 e, .step 2 e, .step 2 e]

/-- The run goes through, the `update` succeeds before the second `resolve` starts, and the url that
was there before the write is not there at any step after it. -/
def Runs (V : Serving S) (db : δ) (e : E) (late : Bool) (ok : CallPool R δ → Label Call E → Prop)
    (returned : Option Out → Prop) : Prop :=
  ∃ Q₁, run (V.step { track := false }) { shared := ({}, db) } (fetchedBefore e) = some Q₁ ∧
    S.url Q₁.shared.2 (lit "a") = some (lit "u") ∧
    (∃ th, Q₁.threads[1]? = some th ∧ th.call.mutated = some (lit "a") ∧
      S.pendingWrite (lit "a") th.prog = true) ∧
    ∃ Q₂, V.step { track := false } Q₁ (.step 1 e) = some Q₂ ∧
      Meets (V.step { track := false }) (fun P _ ↦ S.url P.shared.2 (lit "a") ≠ some (lit "u")) Q₂
        (filledAfter late e) ∧
      Meets (V.step { track := false }) ok Q₂ (filledAfter late e) ∧
      ∃ P, run (V.step { track := false }) Q₂ (filledAfter late e) = some P ∧
        ∃ m, P.threads[1]? = some m ∧ m.result = some (.result .ok) ∧
          ∃ r, P.threads[2]? = some r ∧ r.call.resolved = some (lit "a") ∧ m.Precedes r ∧
            returned r.result

instance (V : Serving S) (db : δ) (e : E) (late : Bool) (ok : CallPool R δ → Label Call E → Prop)
    [∀ P l, Decidable (ok P l)] (returned : Option Out → Prop) [DecidablePred returned] :
    Decidable (Runs V db e late ok returned) :=
  inferInstanceAs (Decidable (∃ Q₁, _ = some Q₁ ∧ _ ∧ (∃ th, _ = some th ∧ _ ∧ _) ∧ ∃ Q₂, _ = some Q₂ ∧
    _ ∧ _ ∧ ∃ P, _ = some P ∧ ∃ m, _ = some m ∧ _ ∧ ∃ r, _ = some r ∧ _ ∧ _ ∧ _))

theorem Runs.of_readsOwn {V : Serving S} {db : δ} {e : E} {late : Bool}
    (h : Runs V db e late (Timely S) fun _ ↦ True) (hreads : V.ReadsOwn { track := false }) :
    Runs V db e late (Timely S) (· ≠ some (.url (some (lit "u")))) := by
  obtain ⟨Q₁, hbefore, hurl, ⟨th, hth, hcall, hwrite⟩, Q₂, hstep, hgone, hok, P, hlater, m, hm, hsucceeds,
    r, hr, hresolved, hprecedes, -⟩ := h
  exact ⟨Q₁, hbefore, hurl, ⟨th, hth, hcall, hwrite⟩, Q₂, hstep, hgone, hok, P, hlater, m, hm, hsucceeds,
    r, hr, hresolved, hprecedes, hreads _ _ _ _ _ _ _ _ _ _ _ _ _ _ _ hbefore hth hcall hwrite hstep
      hlater hgone hok hm hsucceeds hr hresolved hprecedes⟩

end Schedules

/-- A server with one link. -/
def oneString : Kv.Redis :=
  { strings := (∅ : AList _).insert (Kv.lkey (lit "a")) (enc 0 1 (lit "u"), none) }

/-- A database with one link. -/
def oneRow : Rocks.RocksDB := { links := (∅ : AList _).insert (lit "a") (enc 0 1 (lit "u")) }

end Shrt.Backend
