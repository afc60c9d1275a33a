import Shrt.Backend.Node
import Shrt.Kv.Redis

/-!
# A node of the KV backend

`KvInnerImpl` and the client functions of `Kv` under it, as programs of atomic actions. Each command
is one action. The two layouts keep a link in a key of its own, or in a field of a hash that the
links of a shard share.
-/

namespace Shrt.Kv

open Backend (Config Item Row enc dec expired cacheDel drainFrom)
open Store (Link MutResult allShards)

/-! ## The client -/

/-- The programs of a node of this backend. -/
abbrev KvProg (β : Type) := Backend.NodeProg (fun _ : Cmd ↦ Resp) β

/-- `Kv::cmd`. -/
def cmd (c : Cmd) : KvProg Resp := Backend.query c

/-- `Kv::pipe`, whose replies come when the last command was executed. -/
def pipe : List Cmd → KvProg (List Resp)
  | [] => return []
  | c :: cs => do
    let r ← cmd c
    return r :: (← pipe cs)

/-- `Kv::get`. -/
def get (k : Bytes) : KvProg (Option Bytes) := do
  let r ← cmd (.get k)
  return if r.null then none else some r.str

/-- `Kv::set`. -/
def set (k v : Bytes) (px : Int64) (nx : Bool) : KvProg Bool := do
  let r ← cmd (.set k v (if 0 < px then some px else none) nx)
  return r.kind = 43 && r.str = lit "OK"

/-- The integer of a reply. -/
def Resp.int (r : Resp) : Int64 := if r.kind = 58 then r.num else 0

/-- `Kv::del`. -/
def del (k : Bytes) : KvProg Int64 := do
  return (← cmd (.del k)).int

/-- `Kv::incrby_many`. -/
def incrbyMany (deltas : List (Bytes × Int64)) : KvProg Unit := do
  let _ ← pipe (deltas.map fun p ↦ .incrby p.1 p.2)

/-- The second half of the reply to an iteration, which `scan_each` and `hscan_each` walk. -/
def Resp.scanned (r : Resp) : List Resp :=
  if r.kind ≠ 42 ∨ r.arr.length ≠ 2 then [] else (r.arr.getD 1 {}).arr

/-- `Kv::scan_each`. -/
def scanEach (start : Bytes) : KvProg (List Bytes) := do
  return (← cmd (.scan start)).scanned.map Resp.str

/-- `Kv::hget`. -/
def hget (k f : Bytes) : KvProg (Option Bytes) := do
  let r ← cmd (.hget k f)
  return if r.kind = 36 && !r.null then some r.str else none

/-- `Kv::hsetnx`. -/
def hsetnx (k f v : Bytes) : KvProg Bool := do
  let r ← cmd (.hsetnx k f v)
  return r.kind = 58 && r.num = 1

/-- `Kv::hset`. -/
def hset (k f v : Bytes) : KvProg Bool := do
  return (← cmd (.hset k f v)).kind = 58

/-- `Kv::hdel`. -/
def hdel (k f : Bytes) : KvProg Int64 := do
  return (← cmd (.hdel k f)).int

/-- `Kv::hincrby_many`. -/
def hincrbyMany (deltas : List (Bytes × Bytes × Int64)) : KvProg Unit := do
  let _ ← pipe (deltas.map fun p ↦ .hincrby p.1 p.2.1 p.2.2)

/-- Fields and values in turn, as pairs. -/
def pairs : List Resp → List (Bytes × Bytes)
  | f :: v :: rs => (f.str, v.str) :: pairs rs
  | _ => []

/-- `Kv::hscan_each`. -/
def hscanEach (k : Bytes) : KvProg (List (Bytes × Bytes)) := do
  return pairs (← cmd (.hscan k)).scanned

/-! ## The node -/

/-- `KV_LAYOUT`, with `KV_BUCKETS`. -/
inductive Layout where
  | key
  | hash (buckets : UInt32)

/-- `lkey`. -/
def lkey (c : Bytes) : Bytes := lit "l:" ++ c

/-- `hkey`, and `hfield`. -/
def hkey (c : Bytes) : Bytes := lit "h:" ++ c

/-- `bkey`. -/
def bkey (buckets : UInt32) (c : Bytes) : Bytes :=
  lit "l:" ++ itoa (Int64.ofNat (UInt32.ofNat (shardOf c) % buckets).toNat)

variable (cfg : Config) (lay : Layout)

/-- `kv_get`. -/
def kvGet (code : Bytes) : KvProg (Option Bytes) := match lay with
  | .hash b => hget (bkey b code) code
  | .key => get (lkey code)

/-- `KvInnerImpl::resolve`. -/
def resolve (code : Bytes) (clk : Clock) : KvProg (Option Bytes) :=
  Backend.resolve cfg (kvGet lay) code clk

/-- Create a link unless there is one. -/
def setNew (code v : Bytes) (ttl : Int64) : KvProg Bool := match lay with
  | .hash b => hsetnx (bkey b code) code v
  | .key => set (lkey code) v ttl true

/-- `KvInnerImpl::shorten` with an alias. -/
def shorten (url code : Bytes) (ttl : Int64) (clk : Clock) : KvProg (Option Bytes) := do
  let now := clk 0
  let exp := expiry now ttl
  if ← setNew lay code (enc exp now url) ttl then return some code else return none

/-- The loop of `shorten` without an alias: the candidates that are generated are tried until one is
free. When all of the list are taken, the loop has not ended. -/
def shortenFree (v : Bytes) (ttl : Int64) : List Bytes → KvProg (Option Bytes)
  | [] => return none
  | c :: cs => do
    if ← setNew lay c v ttl then return some c else shortenFree v ttl cs

/-- `KvInnerImpl::shorten` without an alias. -/
def shortenNew (url : Bytes) (gen : List Bytes) (ttl : Int64) (clk : Clock) :
    KvProg (Option Bytes) :=
  shortenFree lay (enc (expiry (clk 0) ttl) (clk 0) url) ttl gen

/-- The command that creates a link in the pipeline of `shorten_many`. -/
def newCmd (code v : Bytes) (ttl : Int64) : Cmd := match lay with
  | .hash b => .hsetnx (bkey b code) code v
  | .key => .set (lkey code) v (if 0 < ttl then some ttl else none) true

/-- Whether the reply says that it did. -/
def created (r : Resp) : Bool := match lay with
  | .hash _ => r.kind = 58 && r.num = 1
  | .key => r.kind = 43 && r.str = lit "OK"

/-- The code of a link of `shorten_many`: one that was not created is attempted again. -/
def attempt (ttl : Int64) (clk : Clock) (it : Item) (r : Resp) : KvProg Bytes :=
  if created lay r then return it.code
  else do return (← shortenNew lay it.url it.gen ttl clk).getD it.code

/-- The second loop of `shorten_many`. -/
def retry (ttl : Int64) (clk : Clock) : ℕ → List (Item × Resp) → KvProg (List Bytes)
  | _, [] => return []
  | n, (it, r) :: rest => do
    let c ← attempt lay ttl (fun k ↦ clk (n + k)) it r
    return c :: (← retry ttl clk (n + 1) rest)

/-- `KvInnerImpl::shorten_many`. The clock is read at 0 for the pipeline, and then for each link
that is attempted again. -/
def shortenMany (items : List Item) (ttl : Int64) (clk : Clock) : KvProg (List Bytes) := do
  let now := clk 0
  let rs ← pipe (items.map fun it ↦ newCmd lay it.code (enc (expiry now ttl) now it.url) ttl)
  retry lay ttl clk 1 (items.zip rs)

/-- The write of `update`. The key layout takes the time left until the expiry for the new deadline.
-/
def overwrite (code : Bytes) (exp : Int64) (v : Bytes) (now : Int64) : KvProg Bool := match lay with
  | .hash b => hset (bkey b code) code v
  | .key => set (lkey code) v (if 0 < exp then exp - now else 0) false

/-- `KvInnerImpl::update`. The clock is read at 0 for the expiry and at 1 for the deadline. -/
def update (code url : Bytes) (ttl : Int64) (hasTtl : Bool) (clk : Clock) : KvProg MutResult := do
  match (← kvGet lay code).bind dec with
  | none => return .missing
  | some row =>
    let exp := if hasTtl then expiry (clk 0) ttl else row.e
    if ← overwrite lay code exp (enc exp row.c url) (clk 1) then
      cacheDel code
      return .ok
    else return .missing

/-- The two deletions of `remove`: the link, and its counter if there was a link. -/
def erase (code : Bytes) : KvProg Bool := match lay with
  | .hash b => do
    if (← hdel (bkey b code) code) ≤ 0 then return false
    let _ ← hdel (bkey b code) (hkey code)
    return true
  | .key => do
    if (← del (lkey code)) ≤ 0 then return false
    let _ ← del (hkey code)
    return true

/-- `KvInnerImpl::remove`. -/
def remove (code : Bytes) : KvProg MutResult := do
  if ← erase lay code then
    cacheDel code
    return .ok
  else return .missing

/-- The counter of a link on the server. -/
def kvHits (code : Bytes) : KvProg (Option Bytes) := match lay with
  | .hash b => hget (bkey b code) (hkey code)
  | .key => get (hkey code)

/-- `KvInnerImpl::stats`. -/
def stats (code : Bytes) : KvProg (Option Link) := do
  let v ← kvGet lay code
  let hv ← kvHits lay code
  match v.bind dec with
  | none => return none
  | some row =>
    let dirty ← Backend.pending code
    return some
      { code
        url := row.u
        hits := (hv.bind stoll).getD 0 + dirty.getD 0
        createdAt := row.c
        expiresAt := row.e }

/-- `KvInnerImpl::flush_hits`. -/
def flushHits : KvProg Unit := do
  let deltas ← drainFrom allShards []
  match lay with
  | .hash b => hincrbyMany (deltas.map fun p ↦ (bkey b p.1, hkey p.1, p.2))
  | .key => incrbyMany (deltas.map fun p ↦ (hkey p.1, p.2))

/-- The bucket loop of `sweep_expired`: the deletions of the fields that have expired. -/
def sweepBuckets (now : Int64) : List Bytes → List Cmd → KvProg (List Cmd)
  | [], dels => return dels
  | b :: bs, dels => do
    let dead := (← hscanEach b).filter fun p ↦
      !(lit "h:" <+: p.1) && (dec p.2).any fun row ↦ expired row.e now
    sweepBuckets now bs (dels ++ dead.map fun p ↦ .hdel b p.1)

/-- `KvInnerImpl::sweep_expired`. -/
def sweepExpired (clk : Clock) : KvProg Unit := do
  let buckets ← scanEach (lit "l:")
  let dels ← sweepBuckets (clk 0) buckets []
  let _ ← pipe dels

end Shrt.Kv
