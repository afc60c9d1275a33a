import Shrt.Rocks.Memory

/-!
# What mutations report

A write to the database may fail. `shorten` and `update` look at its status: when it fails they
report so and leave everything as it was. `remove` does not, so that it reports a link as removed
which is still there. That is the only case in which a report is wrong (`mutation_reported_iff`).
-/

namespace Shrt.Rocks

open Backend (Config Node Row enc dec cachePut cacheDel)
open Interleave (Prog)
open Interleave.Prog (exec_bind)
open Store (MutResult)

/-- A change of one link. -/
inductive Mutation where
  | shorten (url code : Bytes) (ttl : Int64)
  | update (code url : Bytes) (ttl : Int64) (hasTtl : Bool)
  | remove (code : Bytes)

/-- The call, and whether it reports success: a code, or `MutResult::Ok`. -/
def Mutation.prog (clk : Clock) : Mutation → RocksProg Bool
  | .shorten url code ttl => do return (← Rocks.shorten url code ttl clk) = some code
  | .update code url ttl hasTtl => do return (← Rocks.update code url ttl hasTtl clk) = .ok
  | .remove code => do return (← Rocks.remove code) = .ok

/-- The database after the change, seen from the one before it. -/
def Mutation.Reflected (clk : Clock) (db db' : RocksDB) : Mutation → Prop
  | .shorten url code ttl =>
    db' = { db with links := db.links.insert code (enc (expiry (clk 0) ttl) (clk 0) url) }
  | .update code url ttl hasTtl => ∃ row, (db.links.lookup code).bind dec = some row ∧
    let v := enc (if hasTtl then expiry (clk 0) ttl else row.e) row.c url
    db' = { db with links := db.links.insert code v }
  | .remove code => db' = { links := db.links.erase code, hits := db.hits.erase code }

/-- Success is reported of a change that was made, and failure of a call that did nothing: the
database, the cache and the pending hits are what they were, and so is all that is read later. -/
def Mutation.Reported (cfg : Config) (clk : Clock) (e : Fate) (s : Node × RocksDB) (m : Mutation) :
    Prop :=
  let r := (m.prog clk).exec (step cfg e) s
  (r.1 = true → m.Reflected clk s.2 r.2.2) ∧ (r.1 = false → r.2 = s)

variable {cfg : Config} {clk : Clock} {e : Fate} {s : Node × RocksDB} {url code : Bytes} {ttl : Int64}
  {hasTtl : Bool}

theorem exec_dbGet : (dbGet code).exec (step cfg e) s = (s.2.links.lookup code, s) := rfl

/-- A creation is reported when it is made: the code is free and the write succeeds. -/
theorem exec_shorten : (Mutation.prog clk (.shorten url code ttl)).exec (step cfg e) s =
    if (s.2.links.lookup code).isNone && e.ok then
      (true, s.1.cachePut cfg code url (expiry (clk 0) ttl) (clk 1),
        { s.2 with links := s.2.links.insert code (enc (expiry (clk 0) ttl) (clk 0) url) })
    else (false, s) := by
  obtain ⟨ord, ok⟩ := e
  rw [Mutation.prog, exec_bind, Rocks.shorten, exec_bind, exec_dbGet]
  dsimp only
  cases s.2.links.lookup code with
  | some v => rfl
  | none =>
    cases ok with
    | true => exact Prod.ext (decide_eq_true rfl) rfl
    | false => rfl

theorem exec_update : (Mutation.prog clk (.update code url ttl hasTtl)).exec (step cfg e) s =
    match (s.2.links.lookup code).bind dec, e.ok with
    | some row, true =>
      let v := enc (if hasTtl then expiry (clk 0) ttl else row.e) row.c url
      (true, s.1.cacheDel code, { s.2 with links := s.2.links.insert code v })
    | _, _ => (false, s) := by
  obtain ⟨ord, ok⟩ := e
  rw [Mutation.prog, exec_bind, Rocks.update, exec_bind, exec_dbGet]
  dsimp only
  cases (s.2.links.lookup code).bind dec with
  | none => rfl
  | some row => cases ok <;> rfl

/-- A removal is reported whether or not it is made. -/
theorem exec_remove : (Mutation.prog clk (.remove code)).exec (step cfg e) s =
    if (s.2.links.lookup code).isNone then (false, s)
    else (true, s.1.cacheDel code,
      if e.ok then ⟨s.2.links.erase code, s.2.hits.erase code⟩ else s.2) := by
  rw [Mutation.prog, exec_bind, Rocks.remove, exec_bind, exec_dbGet]
  dsimp only
  cases s.2.links.lookup code with
  | none => rfl
  | some v => rfl

/-- **What a mutation reports is what happened, unless a removal fails.** -/
theorem mutation_reported_iff (cfg : Config) (clk : Clock) (e : Fate) (s : Node × RocksDB)
    (m : Mutation) : m.Reported cfg clk e s ↔
      ∀ code, m = .remove code → (s.2.links.lookup code).isSome → e.ok = true := by
  rw [Mutation.Reported]
  cases m with
  | shorten url code ttl =>
    rw [exec_shorten]
    refine iff_of_true ?_ nofun
    split_ifs
    · exact ⟨fun _ ↦ rfl, nofun⟩
    · exact ⟨nofun, fun _ ↦ rfl⟩
  | update code url ttl hasTtl =>
    rw [exec_update]
    refine iff_of_true ?_ nofun
    split
    · rename_i row hrow hok
      exact ⟨fun _ ↦ ⟨row, hrow, rfl⟩, nofun⟩
    · exact ⟨nofun, fun _ ↦ rfl⟩
  | remove code =>
    rw [exec_remove]
    cases hlook : s.2.links.lookup code with
    | none =>
      refine iff_of_true ⟨nofun, fun _ ↦ rfl⟩ fun c hc hthere ↦ ?_
      obtain rfl := Mutation.remove.inj hc
      rw [hlook] at hthere
      exact nomatch hthere
    | some v =>
      constructor
      · rintro ⟨hdone, -⟩ c hc -
        -- A link that is still there does not look removed.
        by_contra hok
        have hdb : s.2 = ⟨s.2.links.erase code, s.2.hits.erase code⟩ := by
          have h := hdone rfl
          rwa [if_neg hok] at h
        rw [hdb, AList.lookup_erase] at hlook
        exact nomatch hlook
      · intro hok
        refine ⟨fun _ ↦ ?_, nofun⟩
        rw [if_pos (hok code rfl (by rw [hlook]; rfl))]
        rfl

/-- A database with one link. -/
def oneRow : Node × RocksDB := ({}, { links := AList.insert (lit "a") (enc 0 1 (lit "u")) ∅ })

/-- The batch of `remove` fails, and it reports `Ok`. -/
theorem removal_not_made :
    ¬ Mutation.Reported {} (fun _ ↦ 2) { ok := false } oneRow (.remove (lit "a")) := by
  rw [Mutation.Reported, exec_remove]
  rintro ⟨hdone, -⟩
  have h : oneRow.2.links = oneRow.2.links.erase (lit "a") := congrArg RocksDB.links (hdone rfl)
  exact absurd (congrArg (·.lookup (lit "a")) h) (by decide +kernel)

theorem mutation_reported_iff_removed :
    Mutation.Reported {} (fun _ ↦ 2) {} oneRow (.remove (lit "a")) :=
  (mutation_reported_iff {} (fun _ ↦ 2) {} oneRow (.remove (lit "a"))).mpr fun _ _ _ ↦ rfl

end Shrt.Rocks
