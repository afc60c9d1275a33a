import Shrt.Kv.Resp
import Shrt.Store.Ops

/-!
# The server

A RESP server with the semantics of Redis, as far as the KV backend uses it: strings with an
optional deadline, at which they vanish, and hashes, which exist while they have a field. Commands
are executed one at a time. A command on a key of the other kind is an error, and so is a deadline
that does not fit an `int64_t`.

`SCAN` and `HSCAN` stand for a whole iteration over the cursor: every key or field is returned at
least once, in any order (`Scan`).
-/

namespace Shrt.Kv

/-- The commands the backend sends. -/
inductive Cmd where
  | get (k : Bytes)
  /-- `SET k v [PX px] [NX]`. -/
  | set (k v : Bytes) (px : Option Int64) (nx : Bool)
  | del (k : Bytes)
  | incrby (k : Bytes) (d : Int64)
  | hget (k f : Bytes)
  | hsetnx (k f v : Bytes)
  | hset (k f v : Bytes)
  | hdel (k f : Bytes)
  | hincrby (k f : Bytes) (d : Int64)
  /-- `SCAN … MATCH start*`. -/
  | scan (start : Bytes)
  | hscan (k : Bytes)

/-- How a full iteration lists what it finds. -/
structure Scan where
  walk : List Bytes → List Bytes
  mem_walk : ∀ l x, x ∈ walk l ↔ x ∈ l

instance : Inhabited Scan := ⟨id, fun _ _ ↦ Iff.rfl⟩

/-- What a command and the section of a node depend on besides the state: the time, the order of a
hash map, and the order of an iteration. -/
structure Moment where
  now : Int64
  ord : Order := fun _ ↦ 0
  scan : Scan := default

/-- The server. A hash is kept as the map from its key and a field to a value. -/
structure Redis where
  strings : AList fun _ : Bytes ↦ Bytes × Option ℤ := ∅
  fields : AList fun _ : Bytes × Bytes ↦ Bytes := ∅

namespace Redis

variable (db : Redis) (now : Int64)

/-- Whether a deadline lies ahead. -/
def ahead : Option ℤ → Bool
  | none => true
  | some d => now.toInt < d

/-- The string at a key, until its deadline. -/
def string (k : Bytes) : Option (Bytes × Option ℤ) :=
  (db.strings.lookup k).filter fun s ↦ ahead now s.2

/-- Whether a key holds a hash. -/
def isHash (k : Bytes) : Bool := db.fields.keys.any (·.1 = k)

/-- Whether there is anything at a key. -/
def has (k : Bytes) : Bool := (db.string now k).isSome || db.isHash k

/-- Delete whatever is at a key. -/
def erase (k : Bytes) : Redis where
  strings := db.strings.erase k
  fields := (db.fields.keys.filter (·.1 = k)).foldl (fun m p ↦ m.erase p) db.fields

/-- Set a string. -/
def setString (k : Bytes) (s : Bytes × Option ℤ) : Redis :=
  { db.erase k with strings := db.strings.insert k s }

/-- Set a field. -/
def setField (k f v : Bytes) : Redis := { db with fields := db.fields.insert (k, f) v }

/-- Delete a field. -/
def eraseField (k f : Bytes) : Redis := { db with fields := db.fields.erase (k, f) }

/-- The deadline that `PX` sets, if it is valid. -/
def deadline (px : Option Int64) : Option (Option ℤ) := match px with
  | none => some none
  | some px =>
    if 0 < px ∧ now.toInt + px.toInt < 2 ^ 63 then some (some (now.toInt + px.toInt)) else none

/-- A counter after an increment; a value that is not the text of a number, or a sum that does not
fit, is an error. -/
def plus (v : Option Bytes) (d : Int64) : Except Bytes Int64 :=
  let n := strtoll (v.getD (lit "0"))
  if itoa n ≠ v.getD (lit "0") then .error (lit "ERR value is not an integer or out of range")
  else if (n + d).toInt ≠ n.toInt + d.toInt then
    .error (lit "ERR increment or decrement would overflow")
  else .ok (n + d)

/-- The reply to a command on a key of the other kind. -/
def wrongType : Value :=
  .error (lit "WRONGTYPE Operation against a key holding the wrong kind of value")

/-- A string or nothing. -/
def bulk : Option Bytes → Value
  | some v => .bulk v
  | none => .nullBulk

/-- What one command does. -/
def exec (t : Moment) (c : Cmd) : Value × Redis := match c with
  | .get k =>
    if db.isHash k then (wrongType, db) else (bulk ((db.string t.now k).map Prod.fst), db)
  | .set k v px nx => match deadline t.now px with
    | none => (.error (lit "ERR invalid expire time in 'set' command"), db)
    | some d =>
      if nx && db.has t.now k then (.nullBulk, db) else (.simple (lit "OK"), db.setString k (v, d))
  | .del k => if db.has t.now k then (.int 1, db.erase k) else (.int 0, db)
  | .incrby k d =>
    if db.isHash k then (wrongType, db)
    else match plus ((db.string t.now k).map Prod.fst) d with
      | .error msg => (.error msg, db)
      | .ok n => (.int n, db.setString k (itoa n, (db.string t.now k).bind Prod.snd))
  | .hget k f =>
    if (db.string t.now k).isSome then (wrongType, db) else (bulk (db.fields.lookup (k, f)), db)
  | .hsetnx k f v =>
    if (db.string t.now k).isSome then (wrongType, db)
    else if (db.fields.lookup (k, f)).isSome then (.int 0, db)
    else (.int 1, db.setField k f v)
  | .hset k f v =>
    if (db.string t.now k).isSome then (wrongType, db)
    else (.int (if (db.fields.lookup (k, f)).isSome then 0 else 1), db.setField k f v)
  | .hdel k f =>
    if (db.string t.now k).isSome then (wrongType, db)
    else if (db.fields.lookup (k, f)).isSome then (.int 1, db.eraseField k f)
    else (.int 0, db)
  | .hincrby k f d =>
    if (db.string t.now k).isSome then (wrongType, db)
    else match plus (db.fields.lookup (k, f)) d with
      | .error msg => (.error msg, db)
      | .ok n => (.int n, db.setField k f (itoa n))
  | .scan start =>
    let keys := db.strings.keys.filter (fun k ↦ (db.string t.now k).isSome) ++
      db.fields.keys.map Prod.fst
    (.array [.bulk (lit "0"),
      .array ((t.scan.walk (keys.filter (start <+: ·))).map Value.bulk)], db)
  | .hscan k =>
    if (db.string t.now k).isSome then (wrongType, db)
    else
      let fs := (db.fields.keys.filter (·.1 = k)).map Prod.snd
      (.array [.bulk (lit "0"), .array ((t.scan.walk fs).flatMap fun f ↦
        [.bulk f, .bulk ((db.fields.lookup (k, f)).getD [])])], db)

end Redis

/-! ## What the client sees -/

/-- The reply the client reads. It is `Value.resp`, with lengths that no reply has cut to what fits.
-/
def Value.seen : Value → Resp
  | .bulk s => { kind := 36, num := Int64.ofNat (min s.length (2 ^ 63 - 1)), str := s }
  | v => v.resp

/-- Whatever a server can send is seen as the reader decodes it. -/
theorem Value.seen_eq_resp {v : Value} (h : v.Sendable) : v.seen = v.resp := by
  cases v with
  | bulk s =>
    have hlen : min s.length (2 ^ 63 - 1) = s.length := by
      rw [Value.Sendable] at h
      omega
    rw [Value.seen, Value.resp, hlen]
  | simple _ | error _ | int _ | nullBulk | nullArray | array _ => rfl

/-- One command and the reply that is read. -/
def serve (t : Moment) (c : Cmd) (db : Redis) : Resp × Redis :=
  ((db.exec t c).1.seen, (db.exec t c).2)

end Shrt.Kv
