import Shrt.Rocks.Transparent

/-!
# Bulk creation in RocksDB

`shorten_many` looks up a code for each url, writes those that are free in one batch, and creates
the others, or all of them when the batch failed, one by one. Two things are not looked at: whether
two urls of the batch were given the same code, and, when a link of a failed batch cannot be created
later either, that its code is still the one of the batch.

The outcomes of the writes are given in the order of the writes (`scripted`). How the second loop
goes on is `Fills`, and which of the codes are bound in the end is read off it (`bulk_bound_iff`).
-/

namespace Shrt.Rocks

open Backend (Act Config Item Node enc cachePut)
open Interleave (Prog)
open Interleave.Prog (exec_bind)

/-- The rows of the links. -/
abbrev Rows := AList fun _ : Bytes ↦ Bytes

/-! ## Writes with given outcomes -/

/-- Whether an action is a write. -/
def writes : Act Query → Bool
  | .query (.put _ _) | .query (.putAll _) | .query (.delete _) | .query (.merge _) => true
  | _ => false

/-- What an action does when the outcomes of the writes to come are known. -/
def scripted (cfg : Config) (a : Act Query) (p : (Node × RocksDB) × List Bool) :
    a.Reply Query.Reply × ((Node × RocksDB) × List Bool) :=
  let r := step cfg { ok := p.2.headD true } a p.1
  (r.1, r.2, if writes a then p.2.tail else p.2)

/-- The outcomes of that many writes. -/
def outcomes : ℕ → List Bool → List Bool
  | 0, _ => []
  | n + 1, oks => oks.headD true :: outcomes n oks.tail

/-- The code that the batch has for a url, if it was free. -/
def claimed (links : Rows) (it : Item) : Option Bytes :=
  if (links.lookup it.code).isSome then none else some it.code

/-- The candidate at which the search for a free code ends. -/
def firstFree (links : Rows) (gen : List Bytes) : Option Bytes :=
  gen.find? fun c ↦ (links.lookup c).isNone

variable {cfg : Config} {p : (Node × RocksDB) × List Bool} {clk : Clock} {exp now ttl : Int64}
  {url : Bytes}

theorem exec_claim (items : List Item) : (claim items).exec (scripted cfg) p =
    (items.map (claimed p.1.2.links), p) := by
  induction items with
  | nil => rfl
  | cons it items ih =>
    rw [claim, exec_bind]
    change Prog.exec _ (claim items >>= _) p = _
    rw [exec_bind, ih]
    rfl

theorem exec_dbPutAll (rows : List (Bytes × Bytes)) : (dbPutAll rows).exec (scripted cfg) p =
    (p.2.headD true, (p.1.1,
      if p.2.headD true then { p.1.2 with links := putRows p.1.2.links rows } else p.1.2),
      p.2.tail) := rfl

theorem exec_shortenFree (gen : List Bytes) :
    (shortenFree url exp now clk gen).exec (scripted cfg) p =
      match firstFree p.1.2.links gen with
      | none => (none, p)
      | some c =>
        if p.2.headD true then
          (some c, (p.1.1.cachePut cfg c url exp (clk 1),
            { p.1.2 with links := p.1.2.links.insert c (enc exp now url) }), p.2.tail)
        else (none, p.1, p.2.tail) := by
  induction gen with
  | nil => rfl
  | cons c gen ih =>
    rw [shortenFree, exec_bind]
    change Prog.exec _ (if (p.1.2.links.lookup c).isSome then _ else _) p = _
    cases hc : p.1.2.links.lookup c with
    | some v =>
      rw [firstFree, List.find?_cons_of_neg (by simp [hc])]
      exact ih
    | none =>
      rw [firstFree, List.find?_cons_of_pos (by simp [hc])]
      obtain ⟨s, oks⟩ := p
      rcases oks with _ | ⟨_ | _, oks⟩ <;> rfl

/-! ## The second loop -/

/-- How the second loop goes on: a link of a batch that was written is kept, and every other one is
given a free code, unless its write fails. The outcomes are those of the writes to come, `got` lists
the codes that are given, and the rows are those before and after the loop. -/
inductive Fills (written : Bool) :
    List (Item × Option Bytes) → Rows → List Bool → List (Option Bytes) → Rows → Prop
  | nil {links oks} : Fills written [] links oks [] links
  | kept {it c l links oks got links'} (hwritten : written = true)
      (h : Fills written l links oks got links') :
      Fills written ((it, some c) :: l) links oks (none :: got) links'
  | filled {it cl l links oks got links' d e k} (hagain : written = true → cl = none)
      (hgen : d ∈ it.gen) (hfree : links.lookup d = none) (hok : oks.headD true = true)
      (h : Fills written l (links.insert d (enc e k it.url)) oks.tail got links') :
      Fills written ((it, cl) :: l) links oks (some d :: got) links'
  | failed {it cl l links oks got links'} (hagain : written = true → cl = none)
      (hok : oks.headD true = false) (h : Fills written l links oks.tail got links') :
      Fills written ((it, cl) :: l) links oks (none :: got) links'

/-- What the loop returns for a link. -/
def codeOf (p : Item × Option Bytes) (g : Option Bytes) : Bytes := g.getD (p.2.getD [])

/-- The codes of the batch that are returned. -/
def leftOver (l : List (Item × Option Bytes)) (got : List (Option Bytes)) : List Bytes :=
  (l.zip got).filterMap fun q ↦ if q.2.isSome then none else q.1.2

/-- Every search for a free code ends. -/
def Ends (cfg : Config) (exp ttl : Int64) (clk : Clock) (written : Bool) :
    ℕ → List (Item × Option Bytes) → (Node × RocksDB) × List Bool → Prop
  | _, [], _ => True
  | n, (it, cl) :: l, p =>
    ((written = true → cl = none) → (firstFree p.1.2.links it.gen).isSome = true) ∧
    Ends cfg exp ttl clk written (n + 2) l
      ((attempt exp ttl (fun k ↦ clk (n + k)) written it cl).exec (scripted cfg) p).2

/-- One round in which a link is created. -/
theorem exec_attempt {written : Bool} {it : Item} {cl : Option Bytes}
    (hagain : written = true → cl = none) : (attempt exp ttl clk written it cl).exec (scripted cfg) p =
      (((shortenNew it.url it.gen ttl clk).exec (scripted cfg) p).1.getD (cl.getD []),
        ((shortenNew it.url it.gen ttl clk).exec (scripted cfg) p).2) := by
  cases cl with
  | none =>
    rw [attempt, exec_bind]
    rfl
  | some c =>
    cases written with
    | true => exact nomatch hagain rfl
    | false =>
      rw [attempt, if_neg Bool.false_ne_true, exec_bind]
      rfl

theorem fills_finish {written : Bool} (l : List (Item × Option Bytes)) :
    ∀ {p : (Node × RocksDB) × List Bool} {n : ℕ}, Ends cfg exp ttl clk written n l p →
      ∃ got, ((finish exp ttl clk written n l).exec (scripted cfg) p).1 = List.zipWith codeOf l got ∧
        Fills written l p.1.2.links p.2 got
          ((finish exp ttl clk written n l).exec (scripted cfg) p).2.1.2.links := by
  induction l with
  | nil => exact fun _ ↦ ⟨[], rfl, .nil⟩
  | cons q l ih =>
    intro p n hends
    obtain ⟨it, cl⟩ := q
    obtain ⟨hfree, hends⟩ := hends
    obtain ⟨got, hcodes, hfills⟩ := ih hends
    rw [finish, exec_bind, exec_bind]
    by_cases hagain : written = true → cl = none
    · obtain ⟨d, hd⟩ := Option.isSome_iff_exists.mp (hfree hagain)
      have hlook : p.1.2.links.lookup d = none := by
        simpa using List.find?_some hd
      rw [exec_attempt hagain, shortenNew, exec_shortenFree, hd] at hcodes hfills ⊢
      dsimp only at hcodes hfills ⊢
      cases hok : p.2.headD true with
      | true =>
        rw [hok] at hcodes hfills
        rw [if_pos rfl] at hcodes hfills ⊢
        exact ⟨some d :: got, congrArg (d :: ·) hcodes,
          .filled hagain (List.mem_of_find?_eq_some hd) hlook hok hfills⟩
      | false =>
        rw [hok] at hcodes hfills
        rw [if_neg Bool.false_ne_true] at hcodes hfills ⊢
        exact ⟨none :: got, congrArg (cl.getD [] :: ·) hcodes, .failed hagain hok hfills⟩
    · rw [Classical.not_imp] at hagain
      obtain ⟨rfl, hcl⟩ := hagain
      obtain ⟨c, rfl⟩ := Option.ne_none_iff_exists'.mp hcl
      exact ⟨none :: got, congrArg (c :: ·) hcodes, .kept rfl hfills⟩

namespace Fills

variable {written : Bool} {l : List (Item × Option Bytes)} {links links' : Rows} {oks : List Bool}
  {got : List (Option Bytes)}

/-- No row is lost or changed. -/
theorem lookup_of_some (h : Fills written l links oks got links') {c v : Bytes}
    (hc : links.lookup c = some v) : links'.lookup c = some v := by
  induction h with
  | nil => exact hc
  | kept _ _ ih => exact ih hc
  | filled _ _ hfree _ _ ih =>
    refine ih ?_
    rw [AList.lookup_insert_ne, hc]
    rintro rfl
    exact nomatch hfree.symm.trans hc
  | failed _ _ _ ih => exact ih hc

/-- The codes that are given were free. -/
theorem lookup_of_mem (h : Fills written l links oks got links') {d : Bytes} (hd : some d ∈ got) :
    links.lookup d = none := by
  induction h with
  | nil => exact absurd hd List.not_mem_nil
  | kept _ _ ih => exact ih (by simpa using hd)
  | filled _ _ hfree _ _ ih =>
    rcases List.mem_cons.mp hd with heq | hd
    · rw [Option.some.inj heq]
      exact hfree
    · have := ih hd
      by_contra hne
      obtain ⟨v, hv⟩ := Option.ne_none_iff_exists'.mp hne
      rw [AList.lookup_insert_ne, hv] at this
      · exact nomatch this
      · rintro rfl
        exact hne hfree
  | failed _ _ _ ih => exact ih (by simpa using hd)

/-- No code is given twice. -/
theorem nodup (h : Fills written l links oks got links') : got.reduceOption.Nodup := by
  induction h with
  | nil => exact List.nodup_nil
  | kept _ _ ih => exact ih
  | filled _ _ _ _ h ih =>
    rw [List.reduceOption_cons_of_some]
    refine List.nodup_cons.mpr ⟨fun hd ↦ ?_, ih⟩
    have := h.lookup_of_mem (List.reduceOption_mem_iff.mp hd)
    rw [AList.lookup_insert] at this
    exact nomatch this
  | failed _ _ _ ih => exact ih

/-- A new row is that of a code that is given. -/
theorem mem_of_lookup (h : Fills written l links oks got links') {c : Bytes}
    (hbefore : links.lookup c = none) (hafter : links'.lookup c ≠ none) : some c ∈ got := by
  induction h with
  | nil => exact absurd hbefore hafter
  | kept _ _ ih => exact List.mem_cons_of_mem _ (ih hbefore hafter)
  | @filled _ _ _ _ _ _ _ d _ _ _ _ _ _ _ ih =>
    by_cases hc : c = d
    · rw [hc]
      exact List.mem_cons_self
    · exact List.mem_cons_of_mem _ (ih (by rw [AList.lookup_insert_ne hc, hbefore]) hafter)
  | failed _ _ _ ih => exact List.mem_cons_of_mem _ (ih hbefore hafter)

/-- A code that is given is bound to its url. -/
theorem stored (h : Fills written l links oks got links') : List.Forall₂
    (fun q g ↦ ∀ d, g = some d → ∃ e k, links'.lookup d = some (enc e k q.1.url)) l got := by
  induction h with
  | nil => exact .nil
  | kept _ _ ih => exact .cons nofun ih
  | filled _ _ _ _ h ih =>
    refine .cons (fun d hd ↦ ?_) ih
    obtain rfl := Option.some.inj hd
    exact ⟨_, _, h.lookup_of_some (AList.lookup_insert _)⟩
  | failed _ _ _ ih => exact .cons nofun ih

/-- When the batch failed, there is a write for every link, and its outcome decides. -/
theorem map_isSome (h : Fills false l links oks got links') :
    got.map Option.isSome = outcomes l.length oks := by
  obtain ⟨w, hw⟩ : ∃ w, w = false := ⟨_, rfl⟩
  rw [← hw] at h
  induction h with
  | nil => rfl
  | kept hwritten => exact nomatch hw.symm.trans hwritten
  | filled _ _ _ hok _ ih =>
    rw [List.map_cons, ih, List.length_cons, outcomes, hok]
    rfl
  | failed _ hok _ ih =>
    rw [List.map_cons, ih, List.length_cons, outcomes, hok]
    rfl

/-- When it was written, its codes are returned. -/
theorem leftOver_eq (h : Fills true l links oks got links') : leftOver l got = batchCodes l := by
  obtain ⟨w, hw⟩ : ∃ w, w = true := ⟨_, rfl⟩
  rw [← hw] at h
  induction h with
  | nil => rfl
  | kept _ _ ih => exact congrArg (_ :: ·) ih
  | filled hagain _ _ _ _ ih =>
    obtain rfl := hagain hw
    exact ih
  | failed hagain _ _ ih =>
    obtain rfl := hagain hw
    exact ih

theorem perm_cons_leftOver {it : Item} {c : Bytes} (hc : c ≠ [])
    (h : ((List.zipWith codeOf l got).filter (· ≠ [])).Perm (got.reduceOption ++ leftOver l got)) :
    ((List.zipWith codeOf ((it, some c) :: l) (none :: got)).filter (· ≠ [])).Perm
      ((none :: got).reduceOption ++ leftOver ((it, some c) :: l) (none :: got)) := by
  rw [List.zipWith_cons_cons, List.filter_cons_of_pos (by simp [codeOf, hc])]
  exact (h.cons c).trans List.perm_middle.symm

/-- The codes that are returned are those that were given and those of the batch. -/
theorem perm_codes (h : Fills written l links oks got links')
    (hne : ∀ q ∈ l, q.2 ≠ some [] ∧ ∀ c ∈ q.1.gen, c ≠ []) :
    ((List.zipWith codeOf l got).filter (· ≠ [])).Perm (got.reduceOption ++ leftOver l got) := by
  induction h with
  | nil => exact .nil
  | @kept _ c _ _ _ _ _ _ _ ih =>
    have ih := ih fun q hq ↦ hne q (List.mem_cons_of_mem _ hq)
    have hc : c ≠ [] := fun hc ↦ (hne _ List.mem_cons_self).1 (congrArg some hc)
    exact perm_cons_leftOver hc ih
  | @filled _ _ _ _ _ _ _ d _ _ _ hgen _ _ _ ih =>
    have ih := ih fun q hq ↦ hne q (List.mem_cons_of_mem _ hq)
    have hd : d ≠ [] := (hne _ List.mem_cons_self).2 d hgen
    rw [List.zipWith_cons_cons, List.filter_cons_of_pos (by simp [codeOf, hd])]
    exact ih.cons d
  | @failed _ cl _ _ _ _ _ _ _ _ ih =>
    have ih := ih fun q hq ↦ hne q (List.mem_cons_of_mem _ hq)
    cases cl with
    | none =>
      rw [List.zipWith_cons_cons, List.filter_cons_of_neg (by simp [codeOf])]
      exact ih
    | some c =>
      have hc : c ≠ [] := fun hc ↦ (hne _ List.mem_cons_self).1 (congrArg some hc)
      exact perm_cons_leftOver hc ih

end Fills

/-! ## The codes that are bound -/

/-- Every code that is returned is bound to its url, and none is returned twice. Empty codes stand
for links that could not be created. -/
def Bound (links : Rows) (items : List Item) (codes : List Bytes) : Prop :=
  List.Forall₂ (fun it c ↦ c ≠ [] → ∃ e k, links.lookup c = some (enc e k it.url)) items codes ∧
    (codes.filter (· ≠ [])).Nodup

/-- The call returns: every search for a free code ends. -/
def Returns (cfg : Config) (items : List Item) (ttl : Int64) (clk : Clock)
    (p : (Node × RocksDB) × List Bool) : Prop :=
  let l := items.zip (items.map (claimed p.1.2.links))
  Ends cfg (expiry (clk 0) ttl) ttl clk (p.2.headD true) 1 l
    ((dbPutAll (batch (expiry (clk 0) ttl) (clk 0) l)).exec (scripted cfg) p).2

section Bound

variable {links links' : Rows} {l : List (Item × Option Bytes)} {oks : List Bool}
  {got : List (Option Bytes)}

/-- The rows of a batch without repeated codes are all there. -/
theorem lookup_batch (hnodup : (batchCodes l).Nodup) {it : Item} {c : Bytes}
    (hmem : (it, some c) ∈ l) (links : Rows) :
    (putRows links (batch exp now l)).lookup c = some (enc exp now it.url) := by
  induction l generalizing links with
  | nil => exact absurd hmem List.not_mem_nil
  | cons q l ih =>
    obtain ⟨it', _ | c'⟩ := q
    · exact ih hnodup (by simpa using hmem) links
    · obtain ⟨hc', hnodup⟩ := List.nodup_cons.mp (show (c' :: batchCodes l).Nodup from hnodup)
      rcases List.mem_cons.mp hmem with heq | hmem
      · obtain ⟨rfl, hcc⟩ := Prod.mk.inj heq
        obtain rfl := Option.some.inj hcc
        rw [← map_fst_batch] at hc'
        exact (lookup_putRows hc' _).trans (AList.lookup_insert _)
      · exact ih hnodup hmem _

/-- A code of a batch has a row after it. -/
theorem lookup_putRows_ne_none {rows : List (Bytes × Bytes)} {c : Bytes}
    (hc : c ∈ rows.map Prod.fst) (links : Rows) : (putRows links rows).lookup c ≠ none := by
  induction rows generalizing links with
  | nil => exact absurd hc List.not_mem_nil
  | cons q rows ih =>
    by_cases hrest : c ∈ rows.map Prod.fst
    · exact ih hrest _
    · obtain rfl : c = q.1 := (List.mem_cons.mp hc).resolve_right hrest
      have hlook := lookup_putRows hrest (links.insert q.1 q.2)
      rw [AList.lookup_insert] at hlook
      exact fun hnone ↦ nomatch hlook.symm.trans hnone

theorem forall₂_codes {P : Item → Bytes → Prop} : ∀ {l : List (Item × Option Bytes)}
    {got : List (Option Bytes)}, l.length = got.length →
    (List.Forall₂ P (l.map Prod.fst) (List.zipWith codeOf l got) ↔
      ∀ q ∈ l.zip got, P q.1.1 (codeOf q.1 q.2))
  | [], [], _ => by simp
  | q :: l, g :: got, h => by
    simp [forall₂_codes (Nat.succ.inj h)]

/-- What is bound of a batch that was written. -/
theorem Fills.bound_iff_of_written
    (h : Fills true l (putRows links (batch exp now l)) oks got links')
    (hne : ∀ q ∈ l, q.2 ≠ some [] ∧ ∀ c ∈ q.1.gen, c ≠ []) :
    Bound links' (l.map Prod.fst) (List.zipWith codeOf l got) ↔ (batchCodes l).Nodup := by
  have hperm := h.perm_codes hne
  rw [h.leftOver_eq] at hperm
  rw [Bound, hperm.nodup_iff, List.nodup_append]
  constructor
  · exact fun hbound ↦ hbound.2.2.1
  · intro hnodup
    refine ⟨(forall₂_codes h.stored.length_eq).mpr fun q hq hcode ↦ ?_, h.nodup, hnodup, ?_⟩
    · obtain ⟨⟨it, cl⟩, g⟩ := q
      cases g with
      | some d => exact (List.forall₂_iff_zip.mp h.stored).2 hq d rfl
      | none =>
        cases cl with
        | none => exact absurd rfl hcode
        | some c => exact ⟨exp, now, h.lookup_of_some (lookup_batch hnodup (List.of_mem_zip hq).1 _)⟩
    · rintro d hd _ hc rfl
      rw [← map_fst_batch] at hc
      exact lookup_putRows_ne_none hc links (h.lookup_of_mem (List.reduceOption_mem_iff.mp hd))

/-- What is bound when the batch failed. -/
theorem Fills.bound_iff_of_failed (h : Fills false l links oks got links')
    (hne : ∀ q ∈ l, q.2 ≠ some [] ∧ ∀ c ∈ q.1.gen, c ≠ [])
    (hclaimed : ∀ q ∈ l, ∀ c, q.2 = some c → links.lookup c = none) :
    Bound links' (l.map Prod.fst) (List.zipWith codeOf l got) ↔
      ∀ q ∈ l.zip got, q.1.2.isSome = true → q.2.isSome = true := by
  have hperm := h.perm_codes hne
  rw [Bound, hperm.nodup_iff, List.nodup_append, forall₂_codes h.stored.length_eq]
  constructor
  · rintro ⟨hstored, -, -, hdisjoint⟩ ⟨⟨it, cl⟩, g⟩ hq hcl
    by_contra hg
    obtain ⟨c, rfl⟩ := Option.isSome_iff_exists.mp hcl
    obtain rfl := Option.not_isSome_iff_eq_none.mp hg
    -- The code of the batch is returned, so it must have been given to another link.
    have hmem := (List.of_mem_zip hq).1
    have hc : c ≠ [] := fun hc ↦ (hne _ hmem).1 (congrArg some hc)
    obtain ⟨e, k, hlook⟩ := hstored _ hq hc
    have hgot := h.mem_of_lookup (hclaimed _ hmem c rfl) fun hnone ↦ nomatch hlook.symm.trans hnone
    refine hdisjoint c (List.reduceOption_mem_iff.mpr hgot) c ?_ rfl
    exact List.mem_filterMap.mpr ⟨_, hq, rfl⟩
  · intro hall
    have hnone : leftOver l got = [] := by
      rw [leftOver, List.filterMap_eq_nil_iff]
      rintro ⟨⟨it, cl⟩, g⟩ hq
      cases g with
      | some d => rfl
      | none =>
        cases cl with
        | none => rfl
        | some c => exact nomatch hall _ hq rfl
    refine ⟨fun q hq hcode ↦ ?_, h.nodup, hnone ▸ List.nodup_nil, by simp [hnone]⟩
    obtain ⟨⟨it, cl⟩, g⟩ := q
    cases g with
    | some d => exact (List.forall₂_iff_zip.mp h.stored).2 hq d rfl
    | none =>
      cases cl with
      | none => exact absurd rfl hcode
      | some c => exact nomatch hall _ hq rfl

end Bound

theorem zip_map_self {α β : Type} (f : α → β) (l : List α) :
    l.zip (l.map f) = l.map fun a ↦ (a, f a) := by
  induction l with
  | nil => rfl
  | cons a l ih => rw [List.map_cons, List.zip_cons_cons, ih, List.map_cons]

/-- **Bulk creation returns only codes it bound just when** the batch succeeds and gives no two urls
the same code, or it fails and the later write of every link that it held succeeds. -/
theorem bulk_bound_iff (cfg : Config) {items : List Item} {ttl : Int64} {clk : Clock}
    {s : Node × RocksDB} {oks : List Bool} (hne : ∀ it ∈ items, it.code ≠ [] ∧ ∀ c ∈ it.gen, c ≠ [])
    (hends : Returns cfg items ttl clk (s, oks)) :
    let r := (shortenMany items ttl clk).exec (scripted cfg) (s, oks)
    Bound r.2.1.2.links items r.1 ↔
      if oks.headD true then (items.filterMap (claimed s.2.links)).Nodup
      else ∀ q ∈ items.zip (outcomes items.length oks.tail),
        (claimed s.2.links q.1).isSome = true → q.2 = true := by
  intro r
  obtain ⟨l, hl⟩ : ∃ l, l = items.zip (items.map (claimed s.2.links)) := ⟨_, rfl⟩
  have hmap : l = items.map fun it ↦ (it, claimed s.2.links it) := hl.trans (zip_map_self _ items)
  have hfst : l.map Prod.fst = items := by
    rw [hmap, List.map_map]
    exact List.map_id items
  have hmem : ∀ q ∈ l, q.1 ∈ items ∧ q.2 = claimed s.2.links q.1 := by
    intro q hq
    rw [hmap] at hq
    obtain ⟨it, hit, rfl⟩ := List.mem_map.mp hq
    exact ⟨hit, rfl⟩
  have hnel : ∀ q ∈ l, q.2 ≠ some [] ∧ ∀ c ∈ q.1.gen, c ≠ [] := by
    intro q hq
    obtain ⟨hit, hcl⟩ := hmem q hq
    refine ⟨fun hnil ↦ ?_, (hne _ hit).2⟩
    rw [hcl, claimed] at hnil
    split_ifs at hnil
    exact (hne _ hit).1 (Option.some.inj hnil)
  have hr : r = (finish (expiry (clk 0) ttl) ttl clk (oks.headD true) 1 l).exec (scripted cfg)
      ((dbPutAll (batch (expiry (clk 0) ttl) (clk 0) l)).exec (scripted cfg) (s, oks)).2 := by
    rw [hl]
    change (shortenMany items ttl clk).exec (scripted cfg) (s, oks) = _
    rw [shortenMany, exec_bind, exec_claim, exec_bind]
    rfl
  rw [Returns, ← hl] at hends
  obtain ⟨got, hcodes, hfills⟩ := fills_finish l hends
  rw [← hr] at hcodes hfills
  rw [exec_dbPutAll] at hfills
  rw [hcodes]
  cases hok : oks.headD true with
  | true =>
    rw [hok] at hfills
    have hbatch : items.filterMap (claimed s.2.links) = batchCodes l := by
      rw [batchCodes, hmap, List.filterMap_map]
      rfl
    have hiff := hfills.bound_iff_of_written hnel
    rw [hfst] at hiff
    rw [if_pos rfl, hbatch]
    exact hiff
  | false =>
    rw [hok] at hfills
    have hiff := hfills.bound_iff_of_failed hnel fun q hq c hc ↦ ?_
    · have hzip : items.zip (outcomes items.length oks.tail)
          = (l.zip got).map (Prod.map Prod.fst Option.isSome) := by
        rw [← List.zip_map, hfst, hfills.map_isSome, ← hfst, List.length_map]
      rw [hfst] at hiff
      rw [if_neg Bool.false_ne_true, hzip, hiff]
      constructor
      · intro h q hq hcl
        obtain ⟨q, hq', rfl⟩ := List.mem_map.mp hq
        refine h q hq' ?_
        rwa [(hmem _ (List.of_mem_zip hq').1).2]
      · intro h q hq hcl
        refine h _ (List.mem_map.mpr ⟨q, hq, rfl⟩) ?_
        rwa [(hmem _ (List.of_mem_zip hq).1).2] at hcl
    · rw [(hmem q hq).2, claimed] at hc
      split_ifs at hc with hthere
      obtain rfl := Option.some.inj hc
      exact Option.not_isSome_iff_eq_none.mp hthere

/-- Two urls with codes of their own. -/
def twoCodes : List Item := [⟨lit "u", lit "a", []⟩, ⟨lit "v", lit "b", []⟩]

/-- Two urls that were given the same code. -/
def sameCode : List Item := [⟨lit "u", lit "a", []⟩, ⟨lit "v", lit "a", []⟩]

theorem bulk_bound_iff_twoCodes :
    Bound ((shortenMany twoCodes 0 fun _ ↦ 1).exec (scripted {}) (({}, {}), [])).2.1.2.links twoCodes
      ((shortenMany twoCodes 0 fun _ ↦ 1).exec (scripted {}) (({}, {}), [])).1 := by
  refine (@bulk_bound_iff {} twoCodes 0 (fun _ ↦ 1) ({}, {}) [] (by decide +kernel) ?_).mpr ?_
  · exact ⟨nofun, nofun, trivial⟩
  · decide +kernel

/-- Both are answered with the code, which is bound to the second of them. -/
theorem bulk_code_twice :
    ¬ Bound ((shortenMany sameCode 0 fun _ ↦ 1).exec (scripted {}) (({}, {}), [])).2.1.2.links sameCode
      ((shortenMany sameCode 0 fun _ ↦ 1).exec (scripted {}) (({}, {}), [])).1 :=
  fun h ↦ absurd h.2 (by decide +kernel)

end Shrt.Rocks
