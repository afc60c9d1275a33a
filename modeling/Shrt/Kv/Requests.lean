import Shrt.Kv.Exec

/-!
# Requests to any number of nodes

What is asked of the nodes of the KV backend, as programs, and all that these programs may do
(`Request.Performs`). They send commands of their layout only, so that the server never holds a key
of the other kind, and `resolve` is the only one that puts a link into the cache.
-/

namespace Shrt.Kv

open Backend (Act Config Item Node Out enc dec)
open Interleave (Pool Label Thread)
open Interleave.Prog (Only)

/-! ## Requests -/

/-- What is asked of a node. -/
inductive Request where
  /-- With an alias, or with the codes that are generated. -/
  | shorten (url : Bytes) (name : Option Bytes) (gen : List Bytes) (ttl : Int64)
  | shortenMany (items : List Item) (ttl : Int64)
  | resolve (code : Bytes)
  | update (code url : Bytes) (ttl : Int64) (hasTtl : Bool)
  | remove (code : Bytes)
  /-- The janitor, in the hash layout. -/
  | sweep

/-- What a node does for a request. -/
def Request.prog (cfg : Config) (lay : Layout) (clk : Clock) : Request → KvProg Out
  | .shorten url (some name) _ ttl => do return .code (← Kv.shorten lay url name ttl clk)
  | .shorten url none gen ttl => do return .code (← shortenNew lay url gen ttl clk)
  | .shortenMany items ttl => do return .codes (← Kv.shortenMany lay items ttl clk)
  | .resolve code => do return .url (← Kv.resolve cfg lay code clk)
  | .update code url ttl hasTtl => do return .result (← Kv.update lay code url ttl hasTtl clk)
  | .remove code => do return .result (← Kv.remove lay code)
  | .sweep => match lay with
    | .hash _ => do
      sweepExpired clk
      return .done
    | .key => return .done

/-- A request at a node, with what the node's clock reads. -/
structure Asked (ι : Type) where
  node : ι
  req : Request
  clk : Clock

/-- A request that runs. -/
abbrev RequestThread (ι : Type) := Thread (Asked ι) (Act Cmd) (Act.Reply fun _ ↦ Resp) Out

/-- The nodes and the server, and the requests that run. -/
abbrev RequestPool (ι : Type) :=
  Pool ((ι → Node) × Redis) (Asked ι) (Act Cmd) (Act.Reply fun _ ↦ Resp) Out

/-- What may happen next: a request arrives at a node, or a node takes a step. -/
def requestStep {ι : Type} [DecidableEq ι] (cfg : ι → Config) (lay : Layout) :
    RequestPool ι → Label (Asked ι) Moment → Option (RequestPool ι) :=
  Pool.step (fun c ↦ c.req.prog (cfg c.node) lay c.clk) fun c ↦ stepAt cfg c.node

/-! ## What programs may do -/

/-- The command of `kv_get`. -/
def readCmd (lay : Layout) (code : Bytes) : Cmd := match lay with
  | .hash b => .hget (bkey b code) code
  | .key => .get (lkey code)

/-- The command of `update` that writes. -/
def overwriteCmd (lay : Layout) (code : Bytes) (exp : Int64) (v : Bytes) (now : Int64) : Cmd :=
  match lay with
  | .hash b => .hset (bkey b code) code v
  | .key =>
    let px := if 0 < exp then exp - now else 0
    .set (lkey code) v (if 0 < px then some px else none) false

/-- The commands of `remove`. -/
def eraseCmds (lay : Layout) (code : Bytes) : List Cmd := match lay with
  | .hash b => [.hdel (bkey b code) code, .hdel (bkey b code) (hkey code)]
  | .key => [.del (lkey code), .del (hkey code)]

/-- The commands of the janitor. -/
inductive SweepCmd : Cmd → Prop
  | scan (start : Bytes) : SweepCmd (.scan start)
  | hscan (k : Bytes) : SweepCmd (.hscan k)
  | hdel (k f : Bytes) : SweepCmd (.hdel k f)

/-- **All that a request may do**, whatever the replies. -/
def Request.Performs (lay : Layout) (clk : Clock) : Request → Act Cmd → Prop
  | .shorten url _ _ ttl, a =>
    ∃ code, a = .query (newCmd lay code (enc (expiry (clk 0) ttl) (clk 0) url) ttl)
  | .shortenMany _ ttl, a =>
    ∃ code now url, a = .query (newCmd lay code (enc (expiry now ttl) now url) ttl)
  | .resolve code, a => a = .cacheGet code (clk 0) ∨ a = .query (readCmd lay code) ∨
    (∃ u e, a = .cachePut code u e (clk 2)) ∨ a = .bump code
  | .update code url _ _, a => a = .query (readCmd lay code) ∨
    (∃ exp c, a = .query (overwriteCmd lay code exp (enc exp c url) (clk 1))) ∨ a = .cacheDel code
  | .remove code, a => (∃ c ∈ eraseCmds lay code, a = .query c) ∨ a = .cacheDel code
  | .sweep, a => (∃ b, lay = .hash b) ∧ ∃ c, SweepCmd c ∧ a = .query c

variable {cfg : Config} {lay : Layout} {db : Redis} {t : Moment} {clk : Clock} {ok : Act Cmd → Prop}

theorem only_kvGet {code : Bytes} (h : ok (.query (readCmd lay code))) : (kvGet lay code).Only ok := by
  cases lay with
  | key => exact ⟨h, fun _ ↦ trivial⟩
  | hash b => exact ⟨h, fun _ ↦ trivial⟩

theorem only_setNew {code v : Bytes} {ttl : Int64} (h : ok (.query (newCmd lay code v ttl))) :
    (setNew lay code v ttl).Only ok := by
  cases lay with
  | key => exact ⟨h, fun _ ↦ trivial⟩
  | hash b => exact ⟨h, fun _ ↦ trivial⟩

theorem only_shortenFree {v : Bytes} {ttl : Int64} (h : ∀ c, ok (.query (newCmd lay c v ttl)))
    (gen : List Bytes) : (shortenFree lay v ttl gen).Only ok := by
  induction gen with
  | nil => trivial
  | cons c gen ih =>
    refine (only_setNew (h c)).bind fun created ↦ ?_
    cases created with
    | false => exact ih
    | true => trivial

theorem only_pipe {cs : List Cmd} (h : ∀ c ∈ cs, ok (.query c)) : (pipe cs).Only ok := by
  induction cs with
  | nil => trivial
  | cons c cs ih =>
    refine ⟨h c List.mem_cons_self, fun r ↦ ?_⟩
    exact (ih fun c hc ↦ h c (List.mem_cons_of_mem _ hc)).bind fun _ ↦ trivial

theorem only_retry {ttl : Int64}
    (h : ∀ c now url, ok (.query (newCmd lay c (enc (expiry now ttl) now url) ttl)))
    (l : List (Item × Resp)) (n : ℕ) : (retry lay ttl clk n l).Only ok := by
  induction l generalizing n with
  | nil => trivial
  | cons p l ih =>
    have hattempt : (attempt lay ttl (fun k ↦ clk (n + k)) p.1 p.2).Only ok := by
      rw [attempt]
      split_ifs
      · trivial
      · exact (only_shortenFree (fun c ↦ h c _ _) _).bind fun _ ↦ trivial
    exact hattempt.bind fun c ↦ (ih (n + 1)).bind fun _ ↦ trivial

/-- The deletions of the janitor are collected bucket by bucket, and performed at the end. -/
theorem only_sweepBuckets {now : Int64} {β : Type} {p : List Cmd → KvProg β}
    (hok : ∀ c, SweepCmd c → ok (.query c)) (hp : ∀ dels, (∀ c ∈ dels, SweepCmd c) → (p dels).Only ok)
    (bs : List Bytes) {dels : List Cmd} (hdels : ∀ c ∈ dels, SweepCmd c) :
    (sweepBuckets now bs dels >>= p).Only ok := by
  induction bs generalizing dels with
  | nil => exact hp dels hdels
  | cons k bs ih =>
    refine ⟨hok _ (.hscan k), fun r ↦ ih fun c hc ↦ ?_⟩
    rcases List.mem_append.mp hc with hc | hc
    · exact hdels c hc
    · obtain ⟨f, -, rfl⟩ := List.mem_map.mp hc
      exact .hdel k f.1

theorem only_sweepExpired (hok : ∀ c, SweepCmd c → ok (.query c)) : (sweepExpired clk).Only ok := by
  refine ⟨hok _ (.scan _), fun r ↦ only_sweepBuckets hok (fun dels hdels ↦ ?_) _ (fun c hc ↦ ?_)⟩
  · exact (only_pipe fun c hc ↦ hok c (hdels c hc)).bind fun _ ↦ trivial
  · exact absurd hc List.not_mem_nil

theorem only_prog (req : Request) :
    (req.prog cfg lay clk).Only (req.Performs lay clk) := by
  cases req with
  | shorten url name gen ttl =>
    cases name with
    | none => exact (only_shortenFree (fun c ↦ ⟨c, rfl⟩) gen).bind fun _ ↦ trivial
    | some name =>
      refine Only.bind ((only_setNew ⟨name, rfl⟩).bind fun created ↦ ?_) fun _ ↦ trivial
      cases created with
      | false => trivial
      | true => trivial
  | shortenMany items ttl =>
    refine Only.bind ((only_pipe fun c hc ↦ ?_).bind fun rs ↦ ?_) fun _ ↦ trivial
    · obtain ⟨it, -, rfl⟩ := List.mem_map.mp hc
      exact ⟨it.code, clk 0, it.url, rfl⟩
    · exact only_retry (fun c now url ↦ ⟨c, now, url, rfl⟩) _ 1
  | resolve code =>
    refine Only.bind (Backend.only_resolve (.inl rfl) (only_kvGet (.inr (.inl rfl))) ?_ ?_)
      fun _ ↦ trivial
    · exact fun u e ↦ .inr (.inr (.inl ⟨u, e, rfl⟩))
    · exact .inr (.inr (.inr rfl))
  | update code url ttl hasTtl =>
    refine Only.bind ((only_kvGet (.inl rfl)).bind fun v ↦ ?_) fun _ ↦ trivial
    dsimp only
    cases v.bind dec with
    | none => trivial
    | some row =>
      refine Only.bind ?_ fun written ↦ ?_
      · cases lay with
        | key => exact ⟨.inr (.inl ⟨_, _, rfl⟩), fun _ ↦ trivial⟩
        | hash b => exact ⟨.inr (.inl ⟨_, row.c, rfl⟩), fun _ ↦ trivial⟩
      · cases written with
        | false => trivial
        | true => exact ⟨.inr (.inr rfl), fun _ ↦ trivial⟩
  | remove code =>
    refine Only.bind (Only.bind ?_ fun erased ↦ ?_) fun _ ↦ trivial
    · cases lay with
      | key =>
        refine Only.bind ⟨.inl ⟨_, List.mem_cons_self, rfl⟩, fun _ ↦ trivial⟩ fun n ↦ ?_
        split_ifs
        · trivial
        · exact ⟨.inl ⟨_, List.mem_cons_of_mem _ List.mem_cons_self, rfl⟩, fun _ ↦ trivial⟩
      | hash b =>
        refine Only.bind ⟨.inl ⟨_, List.mem_cons_self, rfl⟩, fun _ ↦ trivial⟩ fun n ↦ ?_
        split_ifs
        · trivial
        · exact ⟨.inl ⟨_, List.mem_cons_of_mem _ List.mem_cons_self, rfl⟩, fun _ ↦ trivial⟩
    · cases erased with
      | false => trivial
      | true => exact ⟨.inr rfl, fun _ ↦ trivial⟩
  | sweep =>
    cases lay with
    | key => trivial
    | hash b => exact (only_sweepExpired fun c hc ↦ ⟨⟨b, rfl⟩, c, hc, rfl⟩).bind fun _ ↦ trivial

/-- What a thread does, its request may do. -/
theorem performs_of_within {ι : Type} {P : RequestPool ι} {i : ℕ}
    {th : RequestThread ι} {a : Act Cmd}
    {k : a.Reply (fun _ ↦ Resp) → KvProg Out}
    (hP : P.Within fun c ↦ c.req.Performs lay c.clk) (hth : P.threads[i]? = some th)
    (hprog : th.prog = .act a k) : th.call.req.Performs lay th.call.clk a := by
  have honly := hP i th hth
  rw [hprog] at honly
  exact honly.1

/-! ## Their commands -/

/-- The commands of a layout. -/
def Layout.Sends (lay : Layout) : Cmd → Prop
  | .get _ | .set _ _ _ _ | .del _ | .incrby _ _ => match lay with
    | .key => True
    | .hash _ => False
  | .hget _ _ | .hsetnx _ _ _ | .hset _ _ _ | .hdel _ _ | .hincrby _ _ _ | .hscan _ => match lay with
    | .key => False
    | .hash _ => True
  | .scan _ => True

theorem Request.Performs.sends {req : Request} {c : Cmd} (h : req.Performs lay clk (.query c)) :
    lay.Sends c := by
  cases req with
  | shorten url name gen ttl =>
    obtain ⟨code, hc⟩ := h
    obtain rfl := Act.query.inj hc
    cases lay with
    | key => trivial
    | hash b => trivial
  | shortenMany items ttl =>
    obtain ⟨code, now, url, hc⟩ := h
    obtain rfl := Act.query.inj hc
    cases lay with
    | key => trivial
    | hash b => trivial
  | resolve code =>
    obtain hc | hc | ⟨u, e, hc⟩ | hc := h
    · cases hc
    · obtain rfl := Act.query.inj hc
      cases lay with
      | key => trivial
      | hash b => trivial
    · cases hc
    · cases hc
  | update code url ttl hasTtl =>
    obtain hc | ⟨exp, c', hc⟩ | hc := h
    · obtain rfl := Act.query.inj hc
      cases lay with
      | key => trivial
      | hash b => trivial
    · obtain rfl := Act.query.inj hc
      cases lay with
      | key => trivial
      | hash b => trivial
    · cases hc
  | remove code =>
    obtain ⟨c', hmem, hc⟩ | hc := h
    · obtain rfl := Act.query.inj hc
      cases lay with
      | key =>
        rcases List.mem_pair.mp hmem with rfl | rfl
        · trivial
        · trivial
      | hash b =>
        rcases List.mem_pair.mp hmem with rfl | rfl
        · trivial
        · trivial
    · cases hc
  | sweep =>
    obtain ⟨⟨b, rfl⟩, c', hsweep, hc⟩ := h
    obtain rfl := Act.query.inj hc
    cases hsweep with
    | scan start => trivial
    | hscan k => trivial
    | hdel k f => trivial

/-- The commands of a layout leave no key of the other kind. -/
theorem Layout.Own.exec (h : lay.Own db) {c : Cmd} (hc : lay.Sends c) :
    lay.Own (db.exec t c).2 := by
  cases lay with
  | key =>
    have hfields : db.fields = ∅ := h
    change (db.exec t c).2.fields = ∅
    cases c with
    | get k =>
      rw [Redis.exec]
      split_ifs
      · exact h
      · exact h
    | set k v px nx =>
      rw [Redis.exec]
      cases Redis.deadline t.now px with
      | none => exact h
      | some d =>
        dsimp only
        split_ifs
        · exact h
        · exact Redis.fields_setString hfields _ _
    | del k =>
      rw [Redis.exec]
      split_ifs
      · exact Redis.fields_erase hfields _
      · exact h
    | incrby k d =>
      rw [Redis.exec, Redis.isHash_eq_false hfields, if_neg Bool.false_ne_true]
      cases Redis.plus ((db.string t.now k).map Prod.fst) d with
      | error msg => exact h
      | ok n => exact Redis.fields_setString hfields _ _
    | scan start => exact h
    | hget _ _ | hsetnx _ _ _ | hset _ _ _ | hdel _ _ | hincrby _ _ _ | hscan _ => exact hc.elim
  | hash b =>
    have hnone := Redis.string_eq_none h t.now
    change (db.exec t c).2.strings = ∅
    cases c with
    | hget k f =>
      rw [Redis.exec, hnone]
      exact h
    | hsetnx k f v =>
      rw [Redis.exec, hnone, Option.isSome_none, if_neg Bool.false_ne_true]
      split_ifs
      · exact h
      · exact h
    | hset k f v =>
      rw [Redis.exec, hnone]
      exact h
    | hdel k f =>
      rw [Redis.exec, hnone, Option.isSome_none, if_neg Bool.false_ne_true]
      split_ifs
      · exact h
      · exact h
    | hincrby k f d =>
      rw [Redis.exec, hnone]
      cases Redis.plus (db.fields.lookup (k, f)) d with
      | error msg => exact h
      | ok n => exact h
    | hscan k =>
      rw [Redis.exec, hnone]
      exact h
    | scan start => exact h
    | get _ | set _ _ _ _ | del _ | incrby _ _ => exact hc.elim

/-- What a request does leaves no key of the other kind. -/
theorem Request.Performs.own {req : Request} {a : Act Cmd} (ha : req.Performs lay clk a)
    {s : Node × Redis} (h : lay.Own s.2) : lay.Own (step cfg t a s).2.2 := by
  cases a with
  | query c => exact h.exec ha.sends
  | cacheGet _ _ | cachePut _ _ _ _ | cacheDel _ | bump _ | pending _ | pendingEntry _ | drain _ =>
    exact h

/-- Only `resolve` puts a link into the cache. -/
theorem Request.Performs.cached {req : Request} {a : Act Cmd} (ha : req.Performs lay clk a)
    (hreq : ∀ code, req ≠ .resolve code) (s : Node × Redis) {c : Bytes} {it : Backend.KvEntry}
    (h : (step cfg t a s).2.1.cached c = some it) : s.1.cached c = some it := by
  cases a with
  | cacheGet code now => exact Node.cached_of_cacheGet h
  | cachePut code u e now =>
    cases req with
    | shorten url name gen ttl => exact nomatch ha
    | shortenMany items ttl => exact nomatch ha
    | resolve code => exact absurd rfl (hreq code)
    | update code url ttl hasTtl => exact nomatch ha
    | remove code => exact nomatch ha
    | sweep => exact nomatch ha
  | cacheDel code => exact Node.cached_of_cacheDel h
  | bump _ | pending _ | pendingEntry _ | drain _ | query _ => exact h

end Shrt.Kv
