import Shrt.Backend.Node

/-!
# The RocksDB backend

`RocksInnerImpl` as programs of atomic actions. The database is two maps: the rows of the links, and
their counters, which are eight bytes each and are added to by the merge operator. A read, a write
or a batch of writes is one action, and a write may fail. A compaction may drop rows that have
expired.
-/

namespace Shrt.Rocks

open Backend (Config Item Node Row enc dec expired expiredValue cachePut cacheDel drainFrom)
open Store (Link MutResult allShards)

/-! ## Counters -/

/-- The lower bytes of a word, the lowest first. -/
def lowBytes : ℕ → UInt64 → Bytes
  | 0, _ => []
  | n + 1, u => u.toUInt8 :: lowBytes n (u / 256)

/-- A word as it stands in memory. -/
def u64Bytes (u : UInt64) : Bytes := lowBytes 8 u

/-- The word that bytes spell. -/
def wordOf : Bytes → UInt64
  | [] => 0
  | b :: bs => b.toUInt64 + 256 * wordOf bs

/-- The first eight bytes of a value, or zero for a shorter one. -/
def u64Of (v : Bytes) : UInt64 := if v.length < 8 then 0 else wordOf (v.take 8)

/-- `U64AddMerge::Merge`. -/
def mergeU64 (existing : Option Bytes) (value : Bytes) : Bytes :=
  u64Bytes (u64Of (existing.getD []) + u64Of value)

theorem toNat_wordOf_lowBytes (n : ℕ) (u : UInt64) :
    (wordOf (lowBytes n u)).toNat = u.toNat % 256 ^ n % 2 ^ 64 := by
  induction n generalizing u with
  | zero => simp [lowBytes, wordOf, Nat.mod_one]
  | succ n ih =>
    rw [lowBytes, wordOf, UInt64.toNat_add, UInt64.toNat_mul, ih, UInt64.toNat_div]
    have hlow : u.toUInt8.toUInt64.toNat = u.toNat % 256 := by simp
    have hword : (256 : UInt64).toNat = 256 := rfl
    rw [hlow, hword, pow_succ' 256 n, Nat.mod_mul]
    generalize u.toNat / 256 % 256 ^ n = high
    omega

theorem length_lowBytes (n : ℕ) (u : UInt64) : (lowBytes n u).length = n := by
  induction n generalizing u with
  | zero => rfl
  | succ n ih => rw [lowBytes, List.length_cons, ih]

/-- **A counter is read back.** -/
@[simp] theorem u64Of_u64Bytes (u : UInt64) : u64Of (u64Bytes u) = u := by
  have hlen := length_lowBytes 8 u
  rw [u64Of, u64Bytes, if_neg (by omega), List.take_of_length_le (by omega), ← UInt64.toNat_inj,
    toNat_wordOf_lowBytes]
  have hlt : u.toNat < 2 ^ 64 := u.toNat_lt
  rw [Nat.mod_eq_of_lt (by omega : u.toNat < 256 ^ 8), Nat.mod_eq_of_lt hlt]

@[simp] theorem u64Of_mergeU64 (existing : Option Bytes) (value : Bytes) :
    u64Of (mergeU64 existing value) = u64Of (existing.getD []) + u64Of value := by
  rw [mergeU64, u64Of_u64Bytes]

/-! ## The database -/

/-- The two column families. -/
structure RocksDB where
  links : AList fun _ : Bytes ↦ Bytes := ∅
  hits : AList fun _ : Bytes ↦ Bytes := ∅

/-- Queries. -/
inductive Query where
  | get (code : Bytes)
  | put (code v : Bytes)
  /-- A batch of rows. -/
  | putAll (rows : List (Bytes × Bytes))
  /-- The batch that deletes a link and its counter. -/
  | delete (code : Bytes)
  | getHits (code : Bytes)
  /-- A batch of additions to counters. -/
  | merge (deltas : List (Bytes × Bytes))

/-- What a query returns: a value, or whether a write succeeded. -/
@[reducible] def Query.Reply : Query → Type
  | .get _ => Option Bytes
  | .put _ _ => Bool
  | .putAll _ => Bool
  | .delete _ => Bool
  | .getHits _ => Option Bytes
  | .merge _ => Bool

/-- One addition. -/
def RocksDB.add (db : RocksDB) (p : Bytes × Bytes) : RocksDB :=
  { db with hits := db.hits.insert p.1 (mergeU64 (db.hits.lookup p.1) p.2) }

/-- The rows after a batch. -/
def putRows (links : AList fun _ : Bytes ↦ Bytes) (rows : List (Bytes × Bytes)) :
    AList fun _ : Bytes ↦ Bytes :=
  rows.foldl (fun m p ↦ m.insert p.1 p.2) links

/-- What a query does. A write that fails does nothing. -/
def serve (ok : Bool) : (q : Query) → RocksDB → q.Reply × RocksDB
  | .get code, db => (db.links.lookup code, db)
  | .put code v, db => (ok, if ok then { db with links := db.links.insert code v } else db)
  | .putAll rows, db => (ok, if ok then { db with links := putRows db.links rows } else db)
  | .delete code, db =>
    (ok, if ok then { links := db.links.erase code, hits := db.hits.erase code } else db)
  | .getHits code, db => (db.hits.lookup code, db)
  | .merge deltas, db => (ok, if ok then deltas.foldl RocksDB.add db else db)

/-- `ExpiryFilter`, on the row of a code. -/
def dropExpired (now : Int64) (links : AList fun _ : Bytes ↦ Bytes) (c : Bytes) :
    AList fun _ : Bytes ↦ Bytes :=
  if (links.lookup c).any (expiredValue now) then links.erase c else links

/-- A compaction that looks at the rows of some codes. -/
def RocksDB.compact (now : Int64) (db : RocksDB) (codes : List Bytes) : RocksDB :=
  { db with links := codes.foldl (dropExpired now) db.links }

/-- What an action depends on besides the state: the order of a hash map, and whether a write
succeeds. -/
structure Fate where
  ord : Order := fun _ ↦ 0
  ok : Bool := true

/-- What an action does. -/
abbrev step (cfg : Config) (e : Fate) :
    (a : Backend.Act Query) → Node × RocksDB → a.Reply Query.Reply × (Node × RocksDB) :=
  Backend.act cfg e.ord (serve e.ok)

/-! ## The node -/

/-- The programs of a node of this backend. -/
abbrev RocksProg (β : Type) := Backend.NodeProg Query.Reply β

/-- `db_get`. -/
def dbGet (code : Bytes) : RocksProg (Option Bytes) := Backend.query (Query.get code)

/-- `db->Put` on the links. -/
def dbPut (code v : Bytes) : RocksProg Bool := Backend.query (Query.put code v)

/-- `db->Write` of a batch of rows. -/
def dbPutAll (rows : List (Bytes × Bytes)) : RocksProg Bool := Backend.query (Query.putAll rows)

/-- The batch of `remove`. -/
def dbDelete (code : Bytes) : RocksProg Bool := Backend.query (Query.delete code)

/-- The batch of `flush_hits`. -/
def dbMerge (deltas : List (Bytes × Bytes)) : RocksProg Bool := Backend.query (Query.merge deltas)

/-- The value of a counter. -/
def dbGetHits (code : Bytes) : RocksProg (Option Bytes) := Backend.query (Query.getHits code)

/-- `db_hits`. -/
def dbHits (code : Bytes) : RocksProg Int64 := do
  return (u64Of ((← dbGetHits code).getD [])).toInt64

variable (cfg : Config)

/-- `RocksInnerImpl::resolve`. -/
def resolve (code : Bytes) (clk : Clock) : RocksProg (Option Bytes) :=
  Backend.resolve cfg dbGet code clk

/-- `RocksInnerImpl::shorten` with an alias. The clock is read at 0 for the row and at 1 in
`cache_put`. -/
def shorten (url code : Bytes) (ttl : Int64) (clk : Clock) : RocksProg (Option Bytes) := do
  let now := clk 0
  let exp := expiry now ttl
  if (← dbGet code).isSome then return none
  else if ← dbPut code (enc exp now url) then
    cachePut code url exp (clk 1)
    return some code
  else return none

/-- The loop of `shorten` without an alias: the candidates that are generated are tried until one is
free. When all of the list are taken, the loop has not ended. -/
def shortenFree (url : Bytes) (exp now : Int64) (clk : Clock) : List Bytes → RocksProg (Option Bytes)
  | [] => return none
  | c :: cs => do
    if (← dbGet c).isSome then shortenFree url exp now clk cs
    else if ← dbPut c (enc exp now url) then
      cachePut c url exp (clk 1)
      return some c
    else return none

/-- `RocksInnerImpl::shorten` without an alias. -/
def shortenNew (url : Bytes) (gen : List Bytes) (ttl : Int64) (clk : Clock) :
    RocksProg (Option Bytes) :=
  shortenFree url (expiry (clk 0) ttl) (clk 0) clk gen

/-- The first loop of `shorten_many`: the codes of the batch, and none for a link whose code is
taken. `codes[i]` is empty for such a link, and for no other, since no code that is generated is. -/
def claim : List Item → RocksProg (List (Option Bytes))
  | [] => return []
  | it :: items => do
    let c := if (← dbGet it.code).isSome then none else some it.code
    return c :: (← claim items)

/-- The batch of `shorten_many`. -/
def batch (exp now : Int64) (l : List (Item × Option Bytes)) : List (Bytes × Bytes) :=
  l.filterMap fun p ↦ p.2.map fun c ↦ (c, enc exp now p.1.url)

/-- The code of a link of `shorten_many`: it is cached if it was written, and otherwise there is
another attempt. -/
def attempt (exp ttl : Int64) (clk : Clock) (written : Bool) (it : Item) :
    Option Bytes → RocksProg Bytes
  | none => do return (← shortenNew it.url it.gen ttl clk).getD []
  | some c =>
    if written then do
      cachePut c it.url exp (clk 0)
      return c
    else do return (← shortenNew it.url it.gen ttl clk).getD c

/-- The second loop of `shorten_many`. The clock is read up to twice for each link. -/
def finish (exp ttl : Int64) (clk : Clock) (written : Bool) :
    ℕ → List (Item × Option Bytes) → RocksProg (List Bytes)
  | _, [] => return []
  | n, (it, c) :: l => do
    let code ← attempt exp ttl (fun k ↦ clk (n + k)) written it c
    return code :: (← finish exp ttl clk written (n + 2) l)

/-- `RocksInnerImpl::shorten_many`. -/
def shortenMany (items : List Item) (ttl : Int64) (clk : Clock) : RocksProg (List Bytes) := do
  let now := clk 0
  let exp := expiry now ttl
  let codes ← claim items
  let written ← dbPutAll (batch exp now (items.zip codes))
  finish exp ttl clk written 1 (items.zip codes)

/-- `RocksInnerImpl::update`. -/
def update (code url : Bytes) (ttl : Int64) (hasTtl : Bool) (clk : Clock) : RocksProg MutResult := do
  match (← dbGet code).bind dec with
  | none => return .missing
  | some row =>
    let exp := if hasTtl then expiry (clk 0) ttl else row.e
    if ← dbPut code (enc exp row.c url) then
      cacheDel code
      return .ok
    else return .missing

/-- `RocksInnerImpl::remove`, which does not look at the outcome of the batch. -/
def remove (code : Bytes) : RocksProg MutResult := do
  if (← dbGet code).isNone then return .missing
  else
    let _ ← dbDelete code
    cacheDel code
    return .ok

/-- `RocksInnerImpl::stats`. -/
def stats (code : Bytes) (clk : Clock) : RocksProg (Option Link) := do
  match (← dbGet code).bind dec with
  | none => return none
  | some row =>
    if expired row.e (clk 0) then return none
    else
      let h ← dbHits code
      let dirty ← Backend.pendingEntry code
      return some { code, url := row.u, hits := h + dirty, createdAt := row.c, expiresAt := row.e }

/-- `RocksInnerImpl::flush_hits`. -/
def flushHits : RocksProg Unit := do
  let deltas ← drainFrom allShards []
  if deltas.isEmpty then return
  else
    let _ ← dbMerge (deltas.map fun p ↦ (p.1, u64Bytes p.2.toUInt64))
    return

end Shrt.Rocks
