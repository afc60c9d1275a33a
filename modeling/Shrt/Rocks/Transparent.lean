import Shrt.Lib.Ensures
import Shrt.Lib.Lockstep
import Shrt.Rocks.Node

/-!
# The cache is transparent

One node of the RocksDB backend serves requests one after another. Any write may fail, and a
compaction may drop rows that have expired before any action. A cached link has expired, or it is
the row of its code (`Current`). While a request runs, some codes are exempt: their rows were
changed and their cache entries are yet to follow.

A `resolve` returns what it would return if it did not look into the cache (`cache_transparent`).
-/

namespace Shrt.Rocks

open Backend (Act Config Item KvEntry Node Out Row enc dec dec_enc expired expired_of_le expiredValue)
open Interleave (Prog)
open Interleave.Prog (Ensures)
open Lockstep (after after_concat)

/-! ## Requests -/

/-- What is asked of a node. -/
inductive Request where
  /-- With an alias, or with the codes that are generated. -/
  | shorten (url : Bytes) (name : Option Bytes) (gen : List Bytes) (ttl : Int64)
  | shortenMany (items : List Item) (ttl : Int64)
  | resolve (code : Bytes)
  | update (code url : Bytes) (ttl : Int64) (hasTtl : Bool)
  | remove (code : Bytes)

/-- What a node does for a request. -/
def Request.prog (cfg : Config) (clk : Clock) : Request → RocksProg Out
  | .shorten url (some name) _ ttl => do return .code (← Rocks.shorten url name ttl clk)
  | .shorten url none gen ttl => do return .code (← shortenNew url gen ttl clk)
  | .shortenMany items ttl => do return .codes (← Rocks.shortenMany items ttl clk)
  | .resolve code => do return .url (← Rocks.resolve cfg code clk)
  | .update code url ttl hasTtl => do return .result (← Rocks.update code url ttl hasTtl clk)
  | .remove code => do return .result (← Rocks.remove code)

/-- What an action depends on besides the state: also which rows a compaction has looked at before.
-/
structure Circumstance extends Fate where
  compacted : List Bytes := []

instance : Inhabited Circumstance := ⟨{}⟩

/-- What an action does at a time. -/
def stepIn (cfg : Config) (now : Int64) (e : Circumstance) (a : Act Query) (s : Node × RocksDB) :
    a.Reply Query.Reply × (Node × RocksDB) :=
  step cfg e.toFate a (s.1, s.2.compact now e.compacted)

/-- A request at one time, and the circumstances of its actions. -/
structure Call where
  now : Int64
  req : Request
  env : List Circumstance := []

/-- One request. -/
def serveCall (cfg : Config) (s : Node × RocksDB) (c : Call) : Out × (Node × RocksDB) :=
  (c.req.prog cfg fun _ ↦ c.now).execWith (stepIn cfg c.now) c.env s

/-- `resolve` without the cache: read the row and decode it. -/
def resolveUncached (code : Bytes) (clk : Clock) : RocksProg (Option Bytes) := do
  match (← dbGet code).bind dec with
  | none => return none
  | some row => if expired row.e (clk 0) then return none else return some row.u

/-! ## Compactions -/

variable {cfg : Config} {now : Int64} {db db' : RocksDB} {c : Bytes} {codes ex : List Bytes}
  {s : Node × RocksDB}

theorem lookup_foldl_dropExpired (links : AList fun _ : Bytes ↦ Bytes) (codes : List Bytes) :
    (codes.foldl (dropExpired now) links).lookup c = links.lookup c ∨
    (codes.foldl (dropExpired now) links).lookup c = none ∧
      (links.lookup c).any (expiredValue now) = true := by
  induction codes generalizing links with
  | nil => exact .inl rfl
  | cons c' codes ih =>
    rw [List.foldl_cons]
    by_cases hdrop : (links.lookup c').any (expiredValue now) = true
    · rw [dropExpired, if_pos hdrop]
      by_cases hc : c = c'
      · rw [hc] at ih ⊢
        rcases ih (links.erase c') with h | ⟨-, h⟩
        · rw [AList.lookup_erase] at h
          exact .inr ⟨h, hdrop⟩
        · rw [AList.lookup_erase] at h
          cases h
      · have hrest := ih (links.erase c')
        rwa [AList.lookup_erase_ne hc] at hrest
    · rw [dropExpired, if_neg hdrop]
      exact ih links

/-- A row is there after a compaction, or it has expired. -/
theorem lookup_compact (db : RocksDB) (codes : List Bytes) (c : Bytes) :
    (db.compact now codes).links.lookup c = db.links.lookup c ∨
    (db.compact now codes).links.lookup c = none ∧
      (db.links.lookup c).any (expiredValue now) = true :=
  lookup_foldl_dropExpired db.links codes

/-- Rows that have not expired are kept. -/
def Kept (now : Int64) (db db' : RocksDB) : Prop :=
  ∀ c v, db.links.lookup c = some v → expiredValue now v = false → db'.links.lookup c = some v

theorem Kept.refl (now : Int64) (db : RocksDB) : Kept now db db := fun _ _ h _ ↦ h

theorem Kept.trans {db'' : RocksDB} (h : Kept now db db') (h' : Kept now db' db'') :
    Kept now db db'' :=
  fun c v hv hlive ↦ h' c v (h c v hv hlive) hlive

theorem kept_compact (db : RocksDB) (codes : List Bytes) : Kept now db (db.compact now codes) := by
  intro c v hv hlive
  rcases lookup_compact db codes c with h | ⟨-, h⟩
  · exact h.trans hv
  · rw [hv, Option.any_some, hlive] at h
    cases h

theorem lookup_compact_of_none (h : db.links.lookup c = none) (codes : List Bytes) :
    (db.compact now codes).links.lookup c = none := by
  rcases lookup_compact db codes c with h' | ⟨h', -⟩
  · exact h'.trans h
  · exact h'

/-- What a read finds. -/
def RocksDB.read (db : RocksDB) (now : Int64) (code : Bytes) : Option Bytes :=
  match (db.links.lookup code).bind dec with
  | none => none
  | some row => if expired row.e now then none else some row.u

/-- A compaction changes nothing for a reader. -/
theorem read_compact (db : RocksDB) (codes : List Bytes) (c : Bytes) :
    (db.compact now codes).read now c = db.read now c := by
  rcases lookup_compact db codes c with h | ⟨h, hexp⟩
  · rw [RocksDB.read, RocksDB.read, h]
  · rw [RocksDB.read, RocksDB.read, h]
    obtain ⟨v, hv, hexp⟩ := (Option.any_eq_true _ _).mp hexp
    obtain ⟨row, hrow, he⟩ := (Option.any_eq_true _ _).mp hexp
    rw [hv, Option.bind_some, hrow]
    exact (if_pos he).symm

/-! ## What is cached -/

/-- A cached link has expired, or is the row. -/
def Shown (now : Int64) (db : RocksDB) (c : Bytes) (it : KvEntry) : Prop :=
  expired it.e now = true ∨ ∃ row, (db.links.lookup c).bind dec = some row ∧ row.u = it.u ∧ row.e = it.e

/-- Every cached link but those of some codes has expired, or is the row. -/
def Current (now : Int64) (ex : List Bytes) (s : Node × RocksDB) : Prop :=
  ∀ c it, s.1.cached c = some it → c ∈ ex ∨ Shown now s.2 c it

theorem Shown.compact {it : KvEntry} (h : Shown now db c it) (codes : List Bytes) :
    Shown now (db.compact now codes) c it := by
  obtain hexp | ⟨row, hrow, hu, he⟩ := h
  · exact .inl hexp
  · rcases lookup_compact db codes c with h | ⟨-, hexp⟩
    · exact .inr ⟨row, by rw [h, hrow], hu, he⟩
    · obtain ⟨v, hv, hexp⟩ := (Option.any_eq_true _ _).mp hexp
      obtain ⟨row', hrow', hexp⟩ := (Option.any_eq_true _ _).mp hexp
      rw [hv, Option.bind_some, hrow'] at hrow
      obtain rfl := Option.some.inj hrow
      exact .inl (he ▸ hexp)

theorem Current.compact (h : Current now ex s) (codes : List Bytes) :
    Current now ex (s.1, s.2.compact now codes) :=
  fun c it hit ↦ (h c it hit).imp_right fun hshown ↦ hshown.compact codes

theorem Current.later {now' : Int64} (h : Current now ex s) (hle : now ≤ now') : Current now' ex s :=
  fun c it hit ↦ (h c it hit).imp_right fun hshown ↦ hshown.imp_left (expired_of_le hle)

/-- The cache may lose links. -/
theorem Current.forget {n : Node} (h : Current now ex (n, db)) {n' : Node}
    (hn : ∀ c it, n'.cached c = some it → n.cached c = some it) : Current now ex (n', db) :=
  fun c it hit ↦ h c it (hn c it hit)

/-- The rows of codes that are exempt may change. -/
theorem Current.rows {n : Node} (h : Current now ex (n, db)) {ex' : List Bytes} (hex : ex ⊆ ex')
    (hrows : ∀ c, c ∉ ex' → db'.links.lookup c = db.links.lookup c) : Current now ex' (n, db') := by
  intro c it hit
  by_cases hc : c ∈ ex'
  · exact .inl hc
  · rcases h c it hit with hmem | hshown
    · exact .inl (hex hmem)
    · refine .inr ?_
      rw [Shown, hrows c hc]
      exact hshown

/-- A code that is cached anew is no longer exempt. -/
theorem Current.cachePut {n : Node} (h : Current now (c :: ex) (n, db)) {u : Bytes} {e t : Int64}
    (hc : c ∉ ex → Shown now db c ⟨u, e, t⟩) : Current now ex (n.cachePut cfg c u e t, db) := by
  intro c' it hit
  by_cases heq : c' = c
  · rw [heq, Node.cached_cachePut_self, Option.some.injEq] at hit
    rw [heq, ← hit]
    exact or_iff_not_imp_left.mpr hc
  · rcases Node.cached_of_cachePut hit with ⟨heq', -⟩ | hit
    · exact absurd heq' heq
    · exact (h c' it hit).imp_left fun hmem ↦ (List.mem_cons.mp hmem).resolve_left heq

/-- Nor is one that is no longer cached. -/
theorem Current.cacheDel {n : Node} (h : Current now (c :: ex) (n, db)) :
    Current now ex (n.cacheDel c, db) := by
  intro c' it hit
  by_cases heq : c' = c
  · rw [heq, Node.cached_cacheDel_self] at hit
    cases hit
  · exact (h c' it (Node.cached_of_cacheDel hit)).imp_left fun hmem ↦
      (List.mem_cons.mp hmem).resolve_left heq

/-! ## Actions -/

variable {url code u v : Bytes} {exp created ttl e t : Int64} {clk : Clock} {β : Type}

section Actions

variable {Q : β → Node × RocksDB → Prop}

theorem ensures_dbGet {k : Option Bytes → RocksProg β}
    (h : ∀ codes, (k ((s.2.compact now codes).links.lookup c)).Ensures (stepIn cfg now) Q
      (s.1, s.2.compact now codes)) :
    (dbGet c >>= k).Ensures (stepIn cfg now) Q s :=
  fun e ↦ h e.compacted

theorem ensures_written {k : Bool → RocksProg β} {n : Node} {ok : Bool}
    (hfail : (k false).Ensures (stepIn cfg now) Q (n, db))
    (hok : (k true).Ensures (stepIn cfg now) Q (n, db')) :
    (k ok).Ensures (stepIn cfg now) Q (n, if ok = true then db' else db) := by
  cases ok with
  | false => exact hfail
  | true => exact hok

theorem ensures_dbPut {k : Bool → RocksProg β}
    (hfail : ∀ codes, (k false).Ensures (stepIn cfg now) Q (s.1, s.2.compact now codes))
    (hput : ∀ codes, (k true).Ensures (stepIn cfg now) Q
      (s.1, ⟨(s.2.compact now codes).links.insert c v, (s.2.compact now codes).hits⟩)) :
    (dbPut c v >>= k).Ensures (stepIn cfg now) Q s :=
  fun e ↦ ensures_written (hfail e.compacted) (hput e.compacted)

theorem ensures_dbPutAll {rows : List (Bytes × Bytes)} {k : Bool → RocksProg β}
    (hfail : ∀ codes, (k false).Ensures (stepIn cfg now) Q (s.1, s.2.compact now codes))
    (hput : ∀ codes, (k true).Ensures (stepIn cfg now) Q
      (s.1, ⟨putRows (s.2.compact now codes).links rows, (s.2.compact now codes).hits⟩)) :
    (dbPutAll rows >>= k).Ensures (stepIn cfg now) Q s :=
  fun e ↦ ensures_written (hfail e.compacted) (hput e.compacted)

theorem ensures_dbDelete {k : Bool → RocksProg β}
    (hfail : ∀ codes, (k false).Ensures (stepIn cfg now) Q (s.1, s.2.compact now codes))
    (hdelete : ∀ codes, (k true).Ensures (stepIn cfg now) Q
      (s.1, ⟨(s.2.compact now codes).links.erase c, (s.2.compact now codes).hits.erase c⟩)) :
    (dbDelete c >>= k).Ensures (stepIn cfg now) Q s :=
  fun e ↦ ensures_written (hfail e.compacted) (hdelete e.compacted)

theorem ensures_cacheGet {k : Option Bytes → RocksProg β}
    (h : ∀ codes, (k (s.1.cacheGet cfg c t).1).Ensures (stepIn cfg now) Q
      ((s.1.cacheGet cfg c t).2, s.2.compact now codes)) :
    (Backend.cacheGet c t >>= k).Ensures (stepIn cfg now) Q s :=
  fun e ↦ h e.compacted

theorem ensures_cachePut {k : Unit → RocksProg β}
    (h : ∀ codes, (k ()).Ensures (stepIn cfg now) Q
      (s.1.cachePut cfg c u e t, s.2.compact now codes)) :
    (Backend.cachePut c u e t >>= k).Ensures (stepIn cfg now) Q s :=
  fun e ↦ h e.compacted

theorem ensures_cacheDel {k : Unit → RocksProg β}
    (h : ∀ codes, (k ()).Ensures (stepIn cfg now) Q (s.1.cacheDel c, s.2.compact now codes)) :
    (Backend.cacheDel c >>= k).Ensures (stepIn cfg now) Q s :=
  fun e ↦ h e.compacted

end Actions

/-! ## Single requests -/

theorem shown_enc {it : KvEntry} (hrow : db.links.lookup c = some (enc it.e created it.u)) :
    Shown now db c it :=
  .inr ⟨_, by rw [hrow, Option.bind_some, dec_enc], rfl, rfl⟩

/-- A row that is written is exempt until it is cached. -/
theorem Current.insert {n : Node} (h : Current now ex (n, db)) (c v : Bytes) :
    Current now (c :: ex) (n, ⟨db.links.insert c v, db.hits⟩) :=
  h.rows (List.subset_cons_self c ex) fun _ hc' ↦
    AList.lookup_insert_ne (List.ne_of_not_mem_cons hc')

/-- A link that is created is cached, and takes the place of no other. -/
theorem ensures_shortenFree (h : Current now ex s) (gen : List Bytes) :
    (shortenFree url exp created clk gen).Ensures (stepIn cfg now)
      (fun _ s' ↦ Current now ex s' ∧ Kept now s.2 s'.2) s := by
  induction gen generalizing s with
  | nil => exact ⟨h, Kept.refl now s.2⟩
  | cons c gen ih =>
    refine ensures_dbGet fun codes ↦ ?_
    have hkept := @kept_compact now s.2 codes
    have h₁ := h.compact codes
    split_ifs with hthere
    · exact (ih h₁).mono fun _ s' hs' ↦ ⟨hs'.1, hkept.trans hs'.2⟩
    · have hfree := Option.not_isSome_iff_eq_none.mp hthere
      refine ensures_dbPut (fun codes' ↦ ?_) fun codes' ↦ ?_
      · exact ⟨h₁.compact codes', hkept.trans (kept_compact _ codes')⟩
      · refine ensures_cachePut fun codes'' ↦ ⟨?_, ?_⟩
        · refine Current.cachePut (((h₁.compact codes').insert c _).compact codes'') fun _ ↦ ?_
          exact (shown_enc (AList.lookup_insert _)).compact codes''
        · -- The row that is written takes the place of none.
          refine Kept.trans (fun c' v hv hlive ↦ ?_) (kept_compact _ codes'')
          have hv' := kept_compact _ codes' c' v (hkept c' v hv hlive) hlive
          by_cases hc : c' = c
          · rw [hc, lookup_compact_of_none hfree codes'] at hv'
            cases hv'
          · exact (AList.lookup_insert_ne hc).trans hv'

theorem ensures_update (h : Current now [] s) {hasTtl : Bool} :
    (Rocks.update code url ttl hasTtl clk).Ensures (stepIn cfg now)
      (fun _ s' ↦ Current now [] s') s := by
  refine ensures_dbGet fun codes ↦ ?_
  have h₁ := h.compact codes
  cases (AList.lookup code (s.2.compact now codes).links).bind dec with
  | none => exact h₁
  | some row =>
    refine ensures_dbPut (fun codes' ↦ h₁.compact codes') fun codes' ↦ ?_
    refine ensures_cacheDel fun codes'' ↦ ?_
    exact Current.cacheDel (((h₁.compact codes').insert code _).compact codes'')

theorem ensures_remove (h : Current now [] s) :
    (Rocks.remove code).Ensures (stepIn cfg now) (fun _ s' ↦ Current now [] s') s := by
  refine ensures_dbGet fun codes ↦ ?_
  have h₁ := h.compact codes
  split_ifs with hthere
  · exact h₁
  · refine ensures_dbDelete (fun codes' ↦ ?_) fun codes' ↦ ?_
    · refine ensures_cacheDel fun codes'' ↦ ?_
      exact ((h₁.compact codes').compact codes'').forget fun _ _ ↦ Node.cached_of_cacheDel
    · refine ensures_cacheDel fun codes'' ↦ Current.cacheDel (Current.compact ?_ codes'')
      refine (h₁.compact codes').rows (List.nil_subset _) fun c' hc' ↦ ?_
      exact AList.lookup_erase_ne (List.ne_of_not_mem_cons hc')

theorem ensures_bump (h : Current now [] s) (u : Option Bytes) :
    (Backend.bump cfg code >>= fun _ ↦ (.ret u : RocksProg _)).Ensures (stepIn cfg now)
      (fun u' s' ↦ u' = u ∧ Current now [] s') s := by
  rw [Backend.bump]
  split_ifs
  · exact fun e ↦ ⟨rfl, (h.compact e.compacted).forget fun _ _ hit ↦ hit⟩
  · exact ⟨rfl, h⟩

/-- What is found in the cache is what a read finds. -/
theorem Current.read_eq (h : Current now [] s) (hget : (s.1.cacheGet cfg code now).1 = some u) :
    s.2.read now code = some u := by
  obtain ⟨it, hit, hu, hlive, -⟩ := Node.cached_of_cacheGet_eq_some hget
  rcases h code it hit with hmem | hexp | ⟨row, hrow, hu', he⟩
  · exact absurd hmem List.not_mem_nil
  · rw [hlive] at hexp
    cases hexp
  · rw [RocksDB.read, hrow, ← hu, ← hu']
    exact if_neg (by rw [he, hlive]; exact Bool.false_ne_true)

theorem ensures_resolve (h : Current now [] s) :
    (Rocks.resolve cfg code fun _ ↦ now).Ensures (stepIn cfg now)
      (fun u s' ↦ u = s.2.read now code ∧ Current now [] s') s := by
  rw [Rocks.resolve, Backend.resolve]
  refine ensures_cacheGet fun codes₁ ↦ ?_
  have h₁ : Current now [] ((s.1.cacheGet cfg code now).2, s.2.compact now codes₁) :=
    (h.compact codes₁).forget fun _ _ ↦ Node.cached_of_cacheGet
  cases hget : (s.1.cacheGet cfg code now).1 with
  | some u =>
    rw [h.read_eq hget]
    exact ensures_bump h₁ (some u)
  | none =>
    refine ensures_dbGet fun codes ↦ ?_
    have h₂ := h₁.compact codes
    -- No compaction changes what a read finds.
    rw [← read_compact s.2 codes₁, ← read_compact _ codes, RocksDB.read]
    generalize (s.2.compact now codes₁).compact now codes = db at h₂ ⊢
    cases hrow : (AList.lookup code db.links).bind dec with
    | none => exact ⟨rfl, h₂⟩
    | some row =>
      dsimp only
      split_ifs with hexp
      · exact ⟨rfl, h₂⟩
      · refine ensures_cachePut fun codes' ↦ ensures_bump ?_ (some row.u)
        have h₃ := (h₂.rows (List.nil_subset [code]) fun _ _ ↦ rfl).compact codes'
        refine h₃.cachePut fun _ ↦ ?_
        exact Shown.compact (.inr ⟨row, hrow, rfl, rfl⟩) codes'

/-! ## Many links at once -/

/-- The codes of the links that are in the batch. -/
def batchCodes (l : List (Item × Option Bytes)) : List Bytes := l.filterMap Prod.snd

/-- Of the links that are in the batch with the same code, the last has the row. -/
def Backed (exp created : Int64) (db : RocksDB) : List (Item × Option Bytes) → Prop
  | [] => True
  | (_, none) :: l => Backed exp created db l
  | (it, some c) :: l =>
    (c ∉ batchCodes l → db.links.lookup c = some (enc exp created it.url)) ∧ Backed exp created db l

theorem Backed.kept {l : List (Item × Option Bytes)} (h : Backed exp created db l)
    (hlive : expired exp now = false) (hkept : Kept now db db') : Backed exp created db' l := by
  induction l with
  | nil => trivial
  | cons p l ih =>
    obtain ⟨it, _ | c⟩ := p
    · exact ih h
    · refine ⟨fun hc ↦ hkept c _ (h.1 hc) ?_, ih h.2⟩
      rw [expiredValue, dec_enc]
      exact hlive

theorem map_fst_batch (l : List (Item × Option Bytes)) :
    (batch exp created l).map Prod.fst = batchCodes l := by
  induction l with
  | nil => rfl
  | cons p l ih =>
    obtain ⟨it, _ | c⟩ := p
    · exact ih
    · exact congrArg (c :: ·) ih

theorem lookup_putRows {rows : List (Bytes × Bytes)} (hc : c ∉ rows.map Prod.fst)
    (links : AList fun _ : Bytes ↦ Bytes) : (putRows links rows).lookup c = links.lookup c := by
  induction rows generalizing links with
  | nil => rfl
  | cons p rows ih =>
    rw [List.map_cons] at hc
    exact (ih (List.not_mem_of_not_mem_cons hc) _).trans
      (AList.lookup_insert_ne (List.ne_of_not_mem_cons hc))

theorem backed_putRows (l : List (Item × Option Bytes)) (links hits : AList fun _ : Bytes ↦ Bytes) :
    Backed exp created ⟨putRows links (batch exp created l), hits⟩ l := by
  induction l generalizing links with
  | nil => trivial
  | cons p l ih =>
    obtain ⟨it, _ | c⟩ := p
    · exact ih links
    · refine ⟨fun hc ↦ ?_, ih _⟩
      rw [← map_fst_batch] at hc
      exact (lookup_putRows hc _).trans (AList.lookup_insert _)

theorem ensures_claim (h : Current now [] s) (items : List Item) :
    (claim items).Ensures (stepIn cfg now) (fun _ s' ↦ Current now [] s') s := by
  induction items generalizing s with
  | nil => exact h
  | cons it items ih =>
    refine ensures_dbGet fun codes ↦ ?_
    exact (ih (h.compact codes)).bind fun _ _ hs' ↦ hs'

/-- When the batch was not written, every link is attempted again. -/
theorem ensures_finish_unwritten (h : Current now [] s) (n : ℕ) (l : List (Item × Option Bytes)) :
    (finish exp ttl clk false n l).Ensures (stepIn cfg now) (fun _ s' ↦ Current now [] s') s := by
  induction l generalizing s n with
  | nil => exact h
  | cons p l ih =>
    have hattempt : (attempt exp ttl (fun k ↦ clk (n + k)) false p.1 p.2).Ensures (stepIn cfg now)
        (fun _ s' ↦ Current now [] s') s := by
      obtain ⟨it, _ | c⟩ := p
      · exact (ensures_shortenFree h _).bind fun _ _ hs' ↦ hs'.1
      · exact (ensures_shortenFree h _).bind fun _ _ hs' ↦ hs'.1
    exact hattempt.bind fun _ _ hs' ↦ (ih hs' (n + 2)).bind fun _ _ hs'' ↦ hs''

/-- When it was, the links of the batch are exempt until they are cached. -/
theorem ensures_finish_written (n : ℕ) (l : List (Item × Option Bytes))
    (h : Current now (batchCodes l) s)
    (hbacked : expired exp now = false → Backed exp created s.2 l) :
    (finish exp ttl clk true n l).Ensures (stepIn cfg now) (fun _ s' ↦ Current now [] s') s := by
  induction l generalizing s n with
  | nil => exact h
  | cons p l ih =>
    have hattempt : (attempt exp ttl (fun k ↦ clk (n + k)) true p.1 p.2).Ensures (stepIn cfg now)
        (fun _ s' ↦ Current now (batchCodes l) s' ∧
          (expired exp now = false → Backed exp created s'.2 l)) s := by
      obtain ⟨it, _ | c⟩ := p
      · refine (ensures_shortenFree h _).bind fun _ s' hs' ↦ ⟨hs'.1, fun hlive ↦ ?_⟩
        exact (hbacked hlive).kept hlive hs'.2
      · refine ensures_cachePut fun codes ↦ ⟨?_, fun hlive ↦ ?_⟩
        · refine Current.cachePut (h.compact codes) fun hc ↦ Shown.compact ?_ codes
          cases hlive : expired exp now with
          | true => exact .inl hlive
          | false => exact shown_enc ((hbacked hlive).1 hc)
        · exact (hbacked hlive).2.kept hlive (kept_compact s.2 codes)
    exact hattempt.bind fun _ _ hs' ↦ (ih (n + 2) hs'.1 hs'.2).bind fun _ _ hs'' ↦ hs''

theorem ensures_shortenMany (h : Current now [] s) (items : List Item) :
    (Rocks.shortenMany items ttl clk).Ensures (stepIn cfg now) (fun _ s' ↦ Current now [] s') s := by
  refine (ensures_claim h items).bind fun codes s' hs' ↦ ?_
  refine ensures_dbPutAll (fun dropped ↦ ?_) fun dropped ↦ ?_
  · exact ensures_finish_unwritten (hs'.compact dropped) 1 _
  · refine ensures_finish_written 1 _ ?_ fun _ ↦ backed_putRows _ _ _
    refine (hs'.compact dropped).rows (List.nil_subset _) fun c hc ↦ ?_
    rw [← map_fst_batch] at hc
    exact lookup_putRows hc _

/-! ## Runs -/

/-- What a request leaves behind, and what a `resolve` returns. -/
theorem ensures_prog (h : Current now [] s) (req : Request) :
    (req.prog cfg fun _ ↦ now).Ensures (stepIn cfg now) (fun out s' ↦ Current now [] s' ∧
      ∀ code, req = .resolve code → out = .url (s.2.read now code)) s := by
  cases req with
  | shorten url name gen ttl =>
    cases name with
    | none => exact (ensures_shortenFree h gen).bind fun _ _ hs' ↦ ⟨hs'.1, nofun⟩
    | some name =>
      -- An alias is a single candidate.
      change Ensures _ (shortenFree url (expiry now ttl) now (fun _ ↦ now) [name] >>= _) _ _
      exact (ensures_shortenFree h [name]).bind fun _ _ hs' ↦ ⟨hs'.1, nofun⟩
  | shortenMany items ttl => exact (ensures_shortenMany h items).bind fun _ _ hs' ↦ ⟨hs', nofun⟩
  | resolve code =>
    refine (ensures_resolve h).bind fun u _ hs' ↦ ⟨hs'.2, fun code' heq ↦ ?_⟩
    obtain rfl := Request.resolve.inj heq
    rw [hs'.1]
  | update code url ttl hasTtl => exact (ensures_update h).bind fun _ _ hs' ↦ ⟨hs', nofun⟩
  | remove code => exact (ensures_remove h).bind fun _ _ hs' ↦ ⟨hs', nofun⟩

theorem ensures_resolveUncached : (resolveUncached code fun _ ↦ now).Ensures (stepIn cfg now)
    (fun u _ ↦ u = s.2.read now code) s := by
  refine ensures_dbGet fun codes ↦ ?_
  rw [← read_compact s.2 codes, RocksDB.read]
  cases (AList.lookup code (s.2.compact now codes).links).bind dec with
  | none => rfl
  | some row =>
    dsimp only
    split_ifs
    · rfl
    · rfl

/-- Whatever is asked at non-decreasing times, what is cached is current. -/
theorem current_after {calls : List Call} (htimes : calls.Pairwise fun c c' ↦ c.now ≤ c'.now)
    {now : Int64} (hnow : ∀ c ∈ calls, c.now ≤ now) :
    Current now [] (after (serveCall cfg) ({}, db) calls) := by
  induction calls using List.reverseRecOn generalizing now with
  | nil =>
    intro c it hit
    cases hit
  | append_singleton calls c ih =>
    obtain ⟨hbefore, -, hlast⟩ := List.pairwise_append.mp htimes
    have hcurrent : Current c.now [] (after (serveCall cfg) ({}, db) calls) :=
      ih hbefore fun c' hc' ↦ hlast c' hc' c (List.mem_singleton_self c)
    rw [after_concat]
    exact ((ensures_prog hcurrent c.req).execWith c.env).1.later
      (hnow c (List.mem_append_right _ (List.mem_singleton_self c)))

/-- **The cache is transparent.** A node starts with an empty cache over any database. Whatever is
asked of it at non-decreasing times, whichever writes fail and whichever rows that have expired are
dropped, a `resolve` returns what it would return without the cache. -/
theorem cache_transparent {calls : List Call} (htimes : calls.Pairwise fun c c' ↦ c.now ≤ c'.now)
    {before later : List Call} {c : Call} (hcalls : calls = before ++ c :: later)
    (hreq : c.req = .resolve code) (env : List Circumstance) :
    (serveCall cfg (after (serveCall cfg) ({}, db) before) c).1 =
      .url ((resolveUncached code fun _ ↦ c.now).execWith (stepIn cfg c.now) env
        (after (serveCall cfg) ({}, db) before)).1 := by
  rw [hcalls, List.pairwise_append] at htimes
  obtain ⟨hbefore, -, hlast⟩ := htimes
  have hcurrent : Current c.now [] (after (serveCall cfg) ({}, db) before) :=
    current_after hbefore fun c' hc' ↦ hlast c' hc' c List.mem_cons_self
  rw [(@ensures_resolveUncached cfg c.now _ code).execWith env]
  exact ((ensures_prog hcurrent c.req).execWith c.env).2 code hreq

/-- Two links get the same code in one batch. -/
def twoAlike : List Call :=
  [{ now := 0, req := .shortenMany [⟨lit "u", lit "a", []⟩, ⟨lit "v", lit "a", []⟩] 0 }]

/-- The second has the row, and is cached. -/
theorem cache_transparent_twoAlike :
    (serveCall {} (after (serveCall {}) ({}, {}) twoAlike) ⟨1, .resolve (lit "a"), []⟩).1 =
      .url ((resolveUncached (lit "a") fun _ ↦ 1).execWith (stepIn {} 1) []
        (after (serveCall {}) ({}, {}) twoAlike)).1 :=
  @cache_transparent {} {} (lit "a") (twoAlike ++ [⟨1, .resolve (lit "a"), []⟩]) (by decide) twoAlike []
    ⟨1, .resolve (lit "a"), []⟩ rfl rfl []

end Shrt.Rocks
