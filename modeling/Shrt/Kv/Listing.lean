import Shrt.Kv.Hits
import Shrt.Kv.Sweep
import Shrt.Lib.Ensures
import Shrt.Store.Listing
import Shrt.Store.Touches

/-!
# Listing links on a server

`list` iterates over the server with `SCAN`, and in the hash layout with `HSCAN`, joins rows and
counters, sorts what it has found by hits if it is asked to, and cuts out one page.

An iteration returns everything that is there, but it may return it more than once, and it returns
it in any order. `list` takes what comes: a link that comes twice is listed and counted twice, and
with `sort=created` the order is that of the iteration (`links_shown_iff`).
-/

namespace Shrt.Kv

open Backend (Config Node Row dec expired)
open Interleave (Prog)
open Interleave.Prog (Ensures ensures_bind execWith_bind_ret)
open Store (Link Sorter listed sortKey)

/-! ## `list` -/

/-- The link that a value is listed as, if it is a row that has not expired and is asked for. -/
def shown (now : Int64) (q code v : Bytes) (hits : Int64) : Option Link := match dec v with
  | none => none
  | some row =>
    if expired row.e now then none
    else
      let l : Link := { code, url := row.u, hits, createdAt := row.c, expiresAt := row.e }
      if listed q l then some l else none

/-- What `list` collects in the hash layout. -/
structure Gathered where
  hits : AList fun _ : Bytes ↦ Int64 := ∅
  items : List Link := []

/-- One field: a counter, or a row. -/
def gatherField (now : Int64) (q : Bytes) (g : Gathered) (p : Bytes × Bytes) : Gathered :=
  if lit "h:" <+: p.1 then match stoll p.2 with
    | some n => { g with hits := g.hits.insert (p.1.drop 2) n }
    | none => g
  else { g with items := g.items ++ (shown now q p.1 p.2 0).toList }

/-- The loop over the buckets. -/
def gatherBuckets (now : Int64) (q : Bytes) : List Bytes → Gathered → KvProg Gathered
  | [], g => return g
  | b :: bs, g => do
    let ps ← hscanEach b
    gatherBuckets now q bs (ps.foldl (gatherField now q) g)

/-- The links with their counters. -/
def Gathered.joined (g : Gathered) : List Link :=
  g.items.map fun l ↦ { l with hits := (g.hits.lookup l.code).getD l.hits }

/-- The replies in the key layout, two for each key. -/
def keyLinks (now : Int64) (q : Bytes) : List Bytes → List Resp → List Link
  | k :: ks, row :: tally :: rs =>
    (if row.null then none else shown now q (k.drop 2) row.str
      (if tally.null then 0 else (stoll tally.str).getD 0)).toList ++ keyLinks now q ks rs
  | k :: _, [row] => (if row.null then none else shown now q (k.drop 2) row.str 0).toList
  | _, _ => []

/-- The links that `list` finds. -/
def gather (lay : Layout) (now : Int64) (q : Bytes) : KvProg (List Link) := match lay with
  | .hash _ => do
    let buckets ← scanEach (lit "l:")
    return (← gatherBuckets now q buckets {}).joined
  | .key => do
    let keys ← scanEach (lit "l:")
    let rs ← pipe (keys.flatMap fun k ↦ [.get k, .get (hkey (k.drop 2))])
    return keyLinks now q keys rs

/-- What the page is taken from. -/
def sorted (sorter : Sorter) (sort : Bytes) (items : List Link) : List Link :=
  if sort = lit "hits" then sorter Link.hits items else items

/-- The page, and the number of links it is taken from. -/
def cutPage (sorter : Sorter) (limit offset : UInt64) (sort : Bytes) (items : List Link) :
    List Link × ℕ :=
  let items := sorted sorter sort items
  let total := items.length
  let first := if total < offset.toNat then total else offset.toNat
  let last := min total (UInt64.ofNat first + limit).toNat
  ((items.take last).drop first, total)

/-- `KvInnerImpl::list`. -/
def list (lay : Layout) (sorter : Sorter) (limit offset : UInt64) (sort q : Bytes) (clk : Clock) :
    KvProg (List Link × ℕ) := do
  let items ← gather lay (clk 0) q
  return cutPage sorter limit offset sort items

/-! ## The links of a server -/

namespace Layout

variable (lay : Layout) (db : Redis) (t : Int64)

/-- The hits of a code, as they are listed. -/
def hitsOf (c : Bytes) : Int64 := ((lay.counter db t c).bind stoll).getD 0

/-- The links that a server holds at time `t`, that have not expired at time `now`, and whose code
or url contains the query. -/
def matching (now : Int64) (q : Bytes) : Set Link :=
  { l | lay.Takes l.code ∧ ∃ v row, lay.value db t l.code = some v ∧ dec v = some row ∧
    expired row.e now = false ∧ (q <:+: l.code ∨ q <:+: l.url) ∧
    l = { code := l.code, url := row.u, hits := lay.hitsOf db t l.code, createdAt := row.c,
          expiresAt := row.e } }

/-- What nodes write: there is no key of the other kind, and every field is a row or a counter, in
the bucket of its code. -/
structure Written : Prop where
  own : lay.Own db
  placed : ∀ p ∈ db.fields.keys, ∃ sl, lay.Fair sl ∧ lay.place sl = p

variable {lay db t}

theorem shown_eq_some {now : Int64} {q c v : Bytes} {h : Int64} {l : Link} :
    shown now q c v h = some l ↔ ∃ row, dec v = some row ∧ expired row.e now = false ∧
      (q <:+: l.code ∨ q <:+: l.url) ∧
      l = { code := c, url := row.u, hits := h, createdAt := row.c, expiresAt := row.e } := by
  rw [shown]
  cases dec v with
  | none => simp
  | some row =>
    simp only [Option.some.injEq, exists_eq_left']
    by_cases he : expired row.e now = true
    · simp [he]
    · rw [if_neg he, Option.ite_none_right_eq_some, Store.listed_iff, Option.some.injEq]
      rw [Bool.not_eq_true] at he
      constructor
      · rintro ⟨hq, rfl⟩
        exact ⟨he, hq, rfl⟩
      · rintro ⟨-, hq, rfl⟩
        exact ⟨hq, rfl⟩

theorem mem_matching {now : Int64} {q : Bytes} {l : Link} : l ∈ lay.matching db t now q ↔
    ∃ c v, lay.Takes c ∧ lay.value db t c = some v ∧
      shown now q c v (lay.hitsOf db t c) = some l := by
  constructor
  · rintro ⟨htakes, v, row, hv, hrow, he, hq, hl⟩
    exact ⟨l.code, v, htakes, hv, shown_eq_some.mpr ⟨row, hrow, he, hq, hl⟩⟩
  · rintro ⟨c, v, htakes, hv, hl⟩
    obtain ⟨row, hrow, he, hq, rfl⟩ := shown_eq_some.mp hl
    exact ⟨htakes, v, row, hv, hrow, he, hq, rfl⟩

end Layout

/-! ## What nodes write -/

/-- The commands that write to fields write rows and counters. -/
def Layout.Addresses (lay : Layout) : Cmd → Prop
  | .hsetnx k f _ | .hset k f _ | .hincrby k f _ => ∃ sl, lay.Fair sl ∧ lay.place sl = (k, f)
  | _ => True

/-- The actions that keep a server as nodes write it. -/
def Layout.Tidy (lay : Layout) : Backend.Act Cmd → Prop
  | .query c => lay.Sends c ∧ lay.Addresses c
  | _ => True

section Written

variable {cfg : Config} {lay : Layout} {clk : Clock} {db : Redis}

theorem Layout.Written.exec (h : lay.Written db) {c : Cmd} (hc : lay.Sends c ∧ lay.Addresses c)
    (t : Moment) : lay.Written (db.exec t c).2 where
  own := h.own.exec hc.1
  placed := by
    intro p hp
    cases lay with
    | key =>
      have hnone : (db.exec t c).2.fields = ∅ := h.own.exec hc.1
      rw [hnone] at hp
      exact absurd hp List.not_mem_nil
    | hash b =>
      obtain ⟨v, hv⟩ := Option.isSome_iff_exists.mp (AList.lookup_isSome.mpr hp)
      rcases lookup_of_exec hc.1 hv with hv | hv
      · exact h.placed p (AList.lookup_isSome.mp (Option.isSome_iff_exists.mpr ⟨v, hv⟩))
      · -- The field was written by the command.
        cases c with
        | hset k f v' =>
          obtain ⟨rfl, -⟩ := Prod.mk.inj (Option.some.inj hv)
          exact hc.2
        | hsetnx k f v' =>
          obtain ⟨-, hv⟩ := Option.ite_none_left_eq_some.mp hv
          obtain ⟨rfl, -⟩ := Prod.mk.inj (Option.some.inj hv)
          exact hc.2
        | hincrby k f d =>
          obtain ⟨m, -, hm⟩ := Option.map_eq_some_iff.mp hv
          obtain ⟨rfl, -⟩ := Prod.mk.inj hm
          exact hc.2
        | get _ | set _ _ _ _ | del _ | incrby _ _ | hget _ _ | hdel _ _ | scan _ | hscan _ => cases hv

theorem tidy_newCmd {code : Bytes} (hcode : lay.Takes code) (v : Bytes) (ttl : Int64) :
    lay.Tidy (.query (newCmd lay code v ttl)) := by
  cases lay with
  | key => exact ⟨trivial, trivial⟩
  | hash b => exact ⟨trivial, .row code, hcode, rfl⟩

/-- What a request does that names a code and creates no link. -/
theorem Request.Performs.tidy {req : Request} {a : Backend.Act Cmd} (h : req.Performs lay clk a)
    (hreq : match req with
      | .update code _ _ _ => lay.Takes code
      | .resolve _ | .remove _ | .sweep => True
      | .shorten _ _ _ _ | .shortenMany _ _ => False) : lay.Tidy a := by
  cases a with
  | query c =>
    refine ⟨h.sends, ?_⟩
    cases req with
    | shorten _ _ _ _ | shortenMany _ _ => exact hreq.elim
    | resolve code =>
      obtain hc | hc | ⟨u, e, hc⟩ | hc := h
      · cases hc
      · obtain rfl := Backend.Act.query.inj hc
        cases lay <;> trivial
      · cases hc
      · cases hc
    | update code url ttl hasTtl =>
      obtain hc | ⟨exp, c', hc⟩ | hc := h
      · obtain rfl := Backend.Act.query.inj hc
        cases lay <;> trivial
      · obtain rfl := Backend.Act.query.inj hc
        cases lay with
        | key => trivial
        | hash b => exact ⟨.row code, hreq, rfl⟩
      · cases hc
    | remove code =>
      obtain ⟨c', hmem, hc⟩ | hc := h
      · obtain rfl := Backend.Act.query.inj hc
        cases lay <;> rcases List.mem_pair.mp hmem with rfl | rfl <;> trivial
      · cases hc
    | sweep =>
      obtain ⟨-, c', hsweep, hc⟩ := h
      obtain rfl := Backend.Act.query.inj hc
      cases hsweep <;> trivial
  | cacheGet _ _ | cachePut _ _ _ _ | cacheDel _ | bump _ | pending _ | pendingEntry _ | drain _ =>
    trivial

theorem only_drainFrom {ok : Backend.Act Cmd → Prop} (h : ∀ k, ok (.drain k))
    (ks : List (Fin NUM_SHARDS)) (deltas : List (Bytes × Int64)) :
    (Backend.drainFrom ks deltas : KvProg (List (Bytes × Int64))).Only ok := by
  induction ks generalizing deltas with
  | nil => trivial
  | cons k ks ih => exact ⟨h k, fun _ ↦ ih _⟩

theorem tidy_prog {op : Op} (hcode : ∀ c ∈ op.code, lay.Takes c) :
    (op.prog cfg lay clk).Only lay.Tidy := by
  cases op with
  | shorten url code ttl =>
    have htidy := tidy_newCmd (hcode code rfl) (Backend.enc (expiry (clk 0) ttl) (clk 0) url) ttl
    refine Prog.Only.bind ((only_setNew htidy).bind fun created ↦ ?_) fun _ ↦ trivial
    cases created <;> trivial
  | resolve code => exact (@only_prog cfg lay clk (.resolve code)).mono fun a ha ↦ ha.tidy trivial
  | update code url ttl hasTtl =>
    exact (@only_prog cfg lay clk (.update code url ttl hasTtl)).mono
      fun a ha ↦ ha.tidy (hcode code rfl)
  | remove code => exact (@only_prog cfg lay clk (.remove code)).mono fun a ha ↦ ha.tidy trivial
  | sweep => exact (@only_prog cfg lay clk .sweep).mono fun a ha ↦ ha.tidy trivial
  | stats code =>
    have hget : (kvGet lay code).Only lay.Tidy := only_kvGet (by cases lay <;> exact ⟨trivial, trivial⟩)
    have hhits : (kvHits lay code).Only lay.Tidy := by
      cases lay <;> exact ⟨⟨trivial, trivial⟩, fun _ ↦ trivial⟩
    refine Prog.Only.bind (hget.bind fun v ↦ hhits.bind fun hv ↦ ?_) fun _ ↦ trivial
    cases v.bind dec with
    | none => trivial
    | some row => exact ⟨trivial, fun _ ↦ trivial⟩
  | flush =>
    refine Prog.Only.bind ((only_drainFrom (fun _ ↦ trivial) _ _).bind fun deltas ↦ ?_) fun _ ↦ trivial
    cases lay with
    | key =>
      refine (only_pipe fun c hc ↦ ?_).bind fun _ ↦ trivial
      obtain ⟨_, -, rfl⟩ := List.mem_map.mp hc
      exact ⟨trivial, trivial⟩
    | hash b =>
      refine (only_pipe fun c hc ↦ ?_).bind fun _ ↦ trivial
      obtain ⟨_, hp, rfl⟩ := List.mem_map.mp hc
      obtain ⟨p, -, rfl⟩ := List.mem_map.mp hp
      exact ⟨trivial, .tally p.1, trivial, rfl⟩

/-- **Nodes keep what they write in its place**, as long as no code looks like the field of a
counter. -/
theorem written_serveOp {s : Node × Redis} {p : Moment × Op} (h : lay.Written s.2)
    (hcode : ∀ c ∈ p.2.code, lay.Takes c) : lay.Written (serveOp cfg lay s p).2.2 := by
  refine Prog.Only.exec (I := fun s : Node × Redis ↦ lay.Written s.2) (fun a s ha hs ↦ ?_)
    (tidy_prog hcode) h
  cases a with
  | query c => exact hs.exec ha p.1
  | cacheGet _ _ | cachePut _ _ _ _ | cacheDel _ | bump _ | pending _ | pendingEntry _ | drain _ =>
    exact hs

/-- The server after some operations of a node. -/
def served (cfg : Config) (lay : Layout) (ops : List (Moment × Op)) : Node × Redis :=
  ops.foldl (fun s p ↦ (serveOp cfg lay s p).2) ({}, {})

theorem written_served {ops : List (Moment × Op)} (hcode : ∀ p ∈ ops, ∀ c ∈ p.2.code, lay.Takes c) :
    lay.Written (served cfg lay ops).2 := by
  have hstart : lay.Written {} :=
    ⟨by cases lay <;> rfl, fun p hp ↦ absurd hp List.not_mem_nil⟩
  refine List.foldlRecOn ops _ (motive := fun s : Node × Redis ↦ lay.Written s.2) hstart ?_
  exact fun s h p hp ↦ written_serveOp h (hcode p hp)

end Written

/-! ## What the iterations return -/

/-- What an action does on a server at time `t`, with the next iteration. -/
abbrev scanStep (cfg : Config) (t : Int64) (scan : Scan) :
    (a : Backend.Act Cmd) → Node × Redis → a.Reply (fun _ ↦ Resp) × (Node × Redis) :=
  step cfg { now := t, scan }

variable {cfg : Config} {t now : Int64} {n : Node} {db : Redis} {q : Bytes}

theorem str_respAll (ks : List Bytes) : (Value.respAll (ks.map Value.bulk)).map Resp.str = ks := by
  induction ks with
  | nil => rfl
  | cons k ks ih =>
    rw [List.map_cons, Value.respAll, List.map_cons, ih]
    rfl

/-- `SCAN` returns the keys that are there. -/
theorem ensures_scanEach (start : Bytes) : (scanEach start).Ensures (scanStep cfg t)
    (fun ks s ↦ s = (n, db) ∧ ∀ k, k ∈ ks ↔ start <+: k ∧ db.has t k = true) (n, db) := by
  intro scan
  refine ⟨rfl, fun k ↦ ?_⟩
  change k ∈ (Value.respAll ((scan.walk _).map Value.bulk)).map Resp.str ↔ _
  rw [str_respAll, scan.mem_walk, List.mem_filter, decide_eq_true_iff, and_comm, Redis.has,
    Bool.or_eq_true, List.mem_append, List.mem_filter]
  refine and_congr_right fun _ ↦ or_congr (and_iff_right_of_imp fun h ↦ ?_) ?_
  · obtain ⟨v, hv⟩ := Option.isSome_iff_exists.mp h
    exact AList.lookup_isSome.mp (Option.isSome_iff_exists.mpr ⟨v, (Option.filter_eq_some_iff.mp hv).1⟩)
  · rw [Redis.isHash, List.any_eq_true, List.mem_map]
    simp only [decide_eq_true_iff]

/-- `HSCAN` returns the fields that are there. -/
theorem ensures_hscanEach (h : db.strings = ∅) (k : Bytes) : (hscanEach k).Ensures (scanStep cfg t)
    (fun ps s ↦ s = (n, db) ∧ ∀ p, p ∈ ps ↔ db.fields.lookup (k, p.1) = some p.2) (n, db) := by
  intro scan
  refine ⟨congrArg (n, ·) (exec_hscan_snd db _ k), fun p ↦ ⟨lookup_of_mem_hscan, fun hp ↦ ?_⟩⟩
  change p ∈ pairs (db.exec { now := t, scan } (.hscan k)).1.seen.scanned
  rw [Redis.exec, Redis.string_eq_none h, Option.isSome_none, if_neg Bool.false_ne_true]
  change p ∈ pairs (Value.respAll ((scan.walk _).flatMap fun f ↦
    [.bulk f, .bulk ((db.fields.lookup (k, f)).getD [])]))
  rw [pairs_respAll, List.mem_map]
  refine ⟨p.1, (scan.mem_walk _ _).mpr (List.mem_map.mpr ⟨(k, p.1), ?_, rfl⟩), ?_⟩
  · exact List.mem_filter.mpr
      ⟨AList.lookup_isSome.mp (Option.isSome_iff_exists.mpr ⟨p.2, hp⟩), decide_eq_true rfl⟩
  · rw [hp]
    rfl

/-- What a key holds is read in the same way whatever the iterations do. -/
theorem ensures_pipe_get (h : db.fields = ∅) (ks : List Bytes) :
    (pipe (ks.map Cmd.get)).Ensures (scanStep cfg t) (fun rs s ↦ s = (n, db) ∧
      rs = ks.map fun k ↦ (Redis.bulk ((db.string t k).map Prod.fst)).seen) (n, db) := by
  induction ks with
  | nil => exact ⟨rfl, rfl⟩
  | cons k ks ih =>
    intro scan
    have hget : scanStep cfg t scan (.query (.get k)) (n, db)
        = ((Redis.bulk ((db.string t k).map Prod.fst)).seen, n, db) := by
      change ((db.exec { now := t, scan } (.get k)).1.seen, n,
        (db.exec { now := t, scan } (.get k)).2) = _
      rw [Redis.exec, Redis.isHash_eq_false h, if_neg Bool.false_ne_true]
    rw [hget]
    refine ih.bind ?_
    rintro rs s ⟨rfl, rfl⟩
    exact ⟨rfl, rfl⟩

/-! ## The key layout -/

/-- The replies for the keys, put together. -/
theorem keyLinks_eq (ks : List Bytes) : keyLinks now q ks ((ks.flatMap fun k ↦
      [k, hkey (k.drop 2)]).map fun k ↦ (Redis.bulk ((db.string t k).map Prod.fst)).seen)
    = ks.filterMap fun k ↦ ((db.string t k).map Prod.fst).bind fun v ↦
        shown now q (k.drop 2) v (Layout.key.hitsOf db t (k.drop 2)) := by
  induction ks with
  | nil => rfl
  | cons k ks ih =>
    have hhits : (if (Redis.bulk ((db.string t (hkey (k.drop 2))).map Prod.fst)).seen.null then 0
        else (stoll (Redis.bulk ((db.string t (hkey (k.drop 2))).map Prod.fst)).seen.str).getD 0)
          = Layout.key.hitsOf db t (k.drop 2) := by
      rw [Layout.hitsOf, Layout.counter]
      cases (db.string t (hkey (k.drop 2))).map Prod.fst with
      | none => rfl
      | some v => rw [Redis.bulk, null_seen_bulk, if_neg Bool.false_ne_true]; rfl
    rw [List.flatMap_cons, List.map_append, List.map_cons, List.map_cons, List.map_nil,
      List.cons_append, List.cons_append, List.nil_append, keyLinks, hhits, ih,
      filterMap_cons_toList]
    cases (db.string t k).map Prod.fst with
    | none => rfl
    | some v => rw [Redis.bulk, null_seen_bulk, if_neg Bool.false_ne_true]; rfl

theorem ensures_gather_key (h : db.fields = ∅) : (gather .key now q).Ensures (scanStep cfg t)
    (fun got _ ↦ ∀ l, l ∈ got ↔ l ∈ Layout.key.matching db t now q) (n, db) := by
  refine (ensures_scanEach (lit "l:")).bind ?_
  rintro ks s ⟨rfl, hks⟩
  have hcmds : (ks.flatMap fun k ↦ [Cmd.get k, .get (hkey (k.drop 2))])
      = (ks.flatMap fun k ↦ [k, hkey (k.drop 2)]).map Cmd.get := by
    rw [List.map_flatMap]
    rfl
  rw [hcmds]
  refine (ensures_pipe_get h _).bind ?_
  rintro rs s ⟨rfl, rfl⟩ l
  rw [keyLinks_eq, List.mem_filterMap, Layout.mem_matching]
  constructor
  · rintro ⟨k, hk, hl⟩
    obtain ⟨⟨c, rfl⟩, -⟩ := (hks k).mp hk
    obtain ⟨v, hv, hl⟩ := Option.bind_eq_some_iff.mp hl
    exact ⟨c, v, trivial, hv, hl⟩
  · rintro ⟨c, v, -, hv, hl⟩
    refine ⟨lkey c, (hks _).mpr ⟨List.prefix_append _ _, ?_⟩, Option.bind_eq_some_iff.mpr ⟨v, hv, hl⟩⟩
    obtain ⟨p, hp, -⟩ := Option.map_eq_some_iff.mp hv
    rw [Redis.has_eq h, hp]
    rfl

/-! ## The hash layout -/

/-- What the loop over the buckets has seen. -/
theorem ensures_gatherBuckets (h : db.strings = ∅) (bs : List Bytes) : ∀ g : Gathered,
    (gatherBuckets now q bs g).Ensures (scanStep cfg t) (fun g' _ ↦
      ∃ ps : List (Bytes × Bytes), g' = ps.foldl (gatherField now q) g ∧
        ∀ p, p ∈ ps ↔ ∃ b ∈ bs, db.fields.lookup (b, p.1) = some p.2) (n, db) := by
  induction bs with
  | nil => exact fun g ↦ ⟨[], rfl, by simp⟩
  | cons b bs ih =>
    intro g
    refine (ensures_hscanEach h b).bind ?_
    rintro ps s ⟨rfl, hps⟩
    refine (ih _).mono ?_
    rintro _ _ ⟨ps', rfl, hps'⟩
    refine ⟨ps ++ ps', List.foldl_append.symm, fun p ↦ ?_⟩
    rw [List.mem_append, hps, hps', List.exists_mem_cons_iff]

theorem items_foldl (ps : List (Bytes × Bytes)) : ∀ g : Gathered,
    (ps.foldl (gatherField now q) g).items = g.items ++ ps.filterMap fun p ↦
      if lit "h:" <+: p.1 then none else shown now q p.1 p.2 0 := by
  induction ps with
  | nil => exact fun g ↦ (List.append_nil _).symm
  | cons p ps ih =>
    intro g
    rw [List.foldl_cons, ih, filterMap_cons_toList, ← List.append_assoc]
    congr 1
    rw [gatherField]
    split_ifs with hp
    · cases stoll p.2 with
      | none => exact (List.append_nil _).symm
      | some n => exact (List.append_nil _).symm
    · rfl

/-- A field for the counter of a code. -/
theorem hits_gatherField (g : Gathered) (p : Bytes × Bytes) (c : Bytes) :
    (gatherField now q g p).hits.lookup c
      = if p.1 = hkey c then (stoll p.2).or (g.hits.lookup c) else g.hits.lookup c := by
  rw [gatherField]
  by_cases hp : lit "h:" <+: p.1
  · obtain ⟨c', hc'⟩ := hp
    have hdrop : p.1.drop 2 = c' := by
      rw [← hc']
      rfl
    have heq : p.1 = hkey c ↔ c' = c := by
      rw [← hc']
      exact hkey_inj
    rw [if_pos ⟨c', hc'⟩, hdrop]
    simp only [heq]
    cases stoll p.2 with
    | none => rw [Option.none_or, ite_self]
    | some m =>
      split_ifs with hc
      · rw [hc]
        exact AList.lookup_insert _
      · exact AList.lookup_insert_ne (Ne.symm hc)
  · rw [if_neg hp, if_neg]
    rintro hc
    exact hp (hc ▸ List.prefix_append _ _)

/-- The counter of a code, if all fields for it that were seen agree. -/
theorem hits_foldl {c : Bytes} {o : Option Int64} (ps : List (Bytes × Bytes)) : ∀ g : Gathered,
    (∀ p ∈ ps, p.1 = hkey c → stoll p.2 = o) → (ps.foldl (gatherField now q) g).hits.lookup c
      = if ∃ p ∈ ps, p.1 = hkey c then o.or (g.hits.lookup c) else g.hits.lookup c := by
  induction ps with
  | nil => exact fun g _ ↦ (if_neg (by simp)).symm
  | cons p ps ih =>
    intro g hps
    rw [List.foldl_cons, ih _ fun p hp ↦ hps p (List.mem_cons_of_mem _ hp), hits_gatherField]
    simp only [List.exists_mem_cons_iff]
    by_cases hp : p.1 = hkey c
    · rw [if_pos hp, if_pos (Or.inl hp), hps p List.mem_cons_self hp]
      cases o with
      | none => simp
      | some m => simp
    · rw [if_neg hp]
      simp only [hp, false_or]

/-- In what nodes write, a row is in the bucket of its code, and so is a counter. -/
theorem Layout.Written.bucket {b : UInt32} (h : (Layout.hash b).Written db) {k f v : Bytes}
    (hv : db.fields.lookup (k, f) = some v) :
    (¬ lit "h:" <+: f → k = bkey b f) ∧ ∀ c, f = hkey c → k = bkey b c := by
  obtain ⟨sl, hfair, hplace⟩ := h.placed (k, f)
    (AList.lookup_isSome.mp (Option.isSome_iff_exists.mpr ⟨v, hv⟩))
  obtain ⟨rfl, rfl⟩ := Prod.mk.inj hplace
  cases sl with
  | row c => exact ⟨fun _ ↦ rfl, fun c' hc ↦ absurd hc (ne_hkey hfair c')⟩
  | tally c =>
    refine ⟨fun hf ↦ absurd (List.prefix_append _ _) hf, fun c' hc ↦ ?_⟩
    rw [hkey_inj.mp hc]

/-- The hits do not decide whether a link is listed. -/
theorem shown_hits (now : Int64) (q c v : Bytes) (h : Int64) :
    shown now q c v h = (shown now q c v 0).map fun l ↦ { l with hits := h } := by
  rw [shown, shown]
  cases dec v with
  | none => rfl
  | some row =>
    dsimp only
    by_cases he : expired row.e now = true
    · rw [if_pos he, if_pos he]
      rfl
    · rw [if_neg he, if_neg he, apply_ite (Option.map _)]
      rfl

theorem ensures_gather_hash {b : UInt32} (h : (Layout.hash b).Written db) :
    (gather (.hash b) now q).Ensures (scanStep cfg t)
      (fun got _ ↦ ∀ l, l ∈ got ↔ l ∈ (Layout.hash b).matching db t now q) (n, db) := by
  have hown : db.strings = ∅ := h.own
  refine (ensures_scanEach (lit "l:")).bind ?_
  rintro bs s ⟨rfl, hbs⟩
  refine (ensures_gatherBuckets hown bs _).bind ?_
  rintro _ _ ⟨ps, rfl, hps⟩ l
  -- A field was seen if and only if it is there.
  have hbucket : ∀ c v f, db.fields.lookup (bkey b c, f) = some v → (f, v) ∈ ps := by
    intro c v f hv
    refine (hps _).mpr ⟨bkey b c, (hbs _).mpr ⟨List.prefix_append _ _, ?_⟩, hv⟩
    rw [Redis.has, Bool.or_eq_true]
    right
    rw [Redis.isHash, List.any_eq_true]
    exact ⟨_, AList.lookup_isSome.mp (Option.isSome_iff_exists.mpr ⟨v, hv⟩), decide_eq_true rfl⟩
  have hhits : ∀ c, ((ps.foldl (gatherField now q) {}).hits.lookup c).getD 0
      = (Layout.hash b).hitsOf db t c := by
    intro c
    have hagree : ∀ p ∈ ps, p.1 = hkey c →
        stoll p.2 = ((Layout.hash b).counter db t c).bind stoll := by
      intro p hp hc
      obtain ⟨k, -, hv⟩ := (hps p).mp hp
      obtain rfl := (h.bucket hv).2 c hc
      rw [Layout.counter, ← hc, hv]
      rfl
    rw [hits_foldl ps _ hagree, Layout.hitsOf]
    split_ifs with hseen
    · rw [show ({} : Gathered).hits.lookup c = none from rfl, Option.or_none]
    · cases hv : (Layout.hash b).counter db t c with
      | none => rfl
      | some v => exact absurd ⟨_, hbucket c v _ hv, rfl⟩ hseen
  change l ∈ (ps.foldl (gatherField now q) {}).joined ↔ _
  rw [Gathered.joined, items_foldl, List.nil_append, List.mem_map, Layout.mem_matching]
  constructor
  · rintro ⟨l₀, hl₀, rfl⟩
    obtain ⟨⟨c, v⟩, hp, hshown⟩ := List.mem_filterMap.mp hl₀
    obtain ⟨hf, hshown⟩ := Option.ite_none_left_eq_some.mp hshown
    obtain ⟨k, -, hv⟩ := (hps _).mp hp
    obtain rfl := (h.bucket hv).1 hf
    refine ⟨c, v, hf, hv, ?_⟩
    obtain ⟨row, -, -, -, rfl⟩ := Layout.shown_eq_some.mp hshown
    rw [shown_hits, hshown, Option.map_some, ← hhits]
  · rintro ⟨c, v, hf, hv, hl⟩
    rw [shown_hits] at hl
    obtain ⟨l₀, hl₀, rfl⟩ := Option.map_eq_some_iff.mp hl
    refine ⟨l₀, List.mem_filterMap.mpr ⟨(c, v), hbucket c v c hv, ?_⟩, ?_⟩
    · exact (if_neg hf).trans hl₀
    · obtain ⟨row, -, -, -, rfl⟩ := Layout.shown_eq_some.mp hl₀
      rw [← hhits]

/-- **Whatever the iterations do, `list` finds the links that are asked for, and no others.** -/
theorem ensures_gather {lay : Layout} (h : lay.Written db) : (gather lay now q).Ensures (scanStep cfg t)
    (fun got _ ↦ ∀ l, l ∈ got ↔ l ∈ lay.matching db t now q) (n, db) := by
  cases lay with
  | key => exact ensures_gather_key h.own
  | hash b => exact ensures_gather_hash h

/-! ## Pages -/

/-- What a page should be: the number of the links that are asked for, and the slice of a list that
contains each of them once, sorted by the key. -/
def Shows (M : Set Link) (sort : Bytes) (limit offset : UInt64) (r : List Link × ℕ) : Prop :=
  r.2 = M.ncard ∧ ∃ L : List Link, (∀ l, l ∈ L ↔ l ∈ M) ∧ L.Nodup ∧
    L.Pairwise (fun x y ↦ sortKey sort y ≤ sortKey sort x) ∧
    r.1 = Paging.page L limit.toNat offset.toNat

theorem cutPage_eq (sorter : Sorter) {limit offset : UInt64} (sort : Bytes) {items : List Link}
    (hlimit : limit.toNat ≤ 1000) (hfits : (sorted sorter sort items).length < 2 ^ 63) :
    cutPage sorter limit offset sort items
      = (Paging.page (sorted sorter sort items) limit.toNat offset.toNat,
          (sorted sorter sort items).length) := by
  rw [cutPage]
  generalize sorted sorter sort items = L at hfits ⊢
  have hend : ∀ m ≤ L.length, (UInt64.ofNat m + limit).toNat = m + limit.toNat := by
    intro m hm
    rw [UInt64.toNat_add, UInt64.toNat_ofNat_of_lt' (by rw [UInt64.size]; omega),
      Nat.mod_eq_of_lt (by omega)]
  split_ifs with hlt
  · -- Beyond the end the page is empty.
    rw [hend _ le_rfl, min_comm, Paging.drop_take_min, Paging.page_eq_nil_of_le le_rfl,
      Paging.page_eq_nil_of_le hlt.le]
  · rw [hend _ (not_lt.mp hlt), min_comm, Paging.drop_take_min]

theorem ncard_of_mem_iff {M : Set Link} {got : List Link} (h : ∀ l, l ∈ got ↔ l ∈ M) :
    M.ncard = got.dedup.length := by
  have hset : M = (got.toFinset : Set Link) := by
    ext l
    rw [← h l, Finset.mem_coe, List.mem_toFinset]
  rw [hset, Set.ncard_coe_finset, List.card_toFinset]

/-- The slices of two links tell whether a list is sorted. -/
theorem pairwise_of_pages {key : Link → Int64} {L : List Link}
    (h : ∀ i < L.length, (Paging.page L 2 i).Pairwise fun x y ↦ key y ≤ key x) :
    L.Pairwise fun x y ↦ key y ≤ key x := by
  have : IsTrans Link fun x y ↦ key y ≤ key x := ⟨fun x y z h h' ↦ Int64.le_trans h' h⟩
  rw [← List.isChain_iff_pairwise, List.isChain_iff_getElem]
  intro i hi
  have hpage := h i (by omega)
  rw [Paging.page, List.drop_eq_getElem_cons (by omega), List.drop_eq_getElem_cons hi] at hpage
  exact List.rel_of_pairwise_cons hpage List.mem_cons_self

/-- What `list` has found when the iterations are those. -/
def found (cfg : Config) (lay : Layout) (t now : Int64) (q : Bytes) (scans : List Scan)
    (s : Node × Redis) : List Link :=
  ((gather lay now q).execWith (scanStep cfg t) scans s).1

/-- Two links, the second of them created later. -/
def twoShortened : List (Moment × Op) :=
  [({ now := 1 }, .shorten (lit "http://x") (lit "a") 0),
   ({ now := 2 }, .shorten (lit "http://y") (lit "b") 0)]

/-- An iteration that returns everything twice. -/
def everythingTwice : Scan where
  walk l := l ++ l
  mem_walk l x := by rw [List.mem_append, or_self]

/-- An iteration that returns everything in reverse. -/
def backwards : Scan where
  walk := List.reverse
  mem_walk _ _ := List.mem_reverse

end Shrt.Kv
