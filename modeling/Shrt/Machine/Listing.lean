import Shrt.Lib.Survey
import Shrt.Machine.Basic
import Shrt.Store.Listing

/-!
# Listing links while other calls run

`Store::list` locks one shard at a time. While it is between two shards, other calls create, remove
and follow links, so a listing need not show the index as it ever was: a link that was removed after
its shard had been visited is shown beside one that was created after that
(`listed_meanwhile_neverTogether`).

What can be said is said code by code. A listing is one of an index in which every code is as it was
at some moment of the walk.
-/

namespace Shrt

open Survey (Passes goes)
open Transition (run)

namespace Store

/-- The links of one shard that are listed. -/
def shardItems (ord : Order) (q : Bytes) (st : Store) (k : Fin NUM_SHARDS) : List Link :=
  ((st.inner.shards.shardRows ord k).map linkOf).filter (listed q)

/-- What `Store::list` does with the links it has found: it sorts them and cuts out a page. -/
def finish (sorter : Sorter) (limit offset : UInt64) (sort : Bytes) (items : List Link) :
    List Link × ℕ :=
  let items := if sort = lit "hits" then sorter Link.hits items else sorter Link.createdAt items
  let total := items.length
  if total ≤ offset.toNat then ([], total)
  else ((items.take (min (offset + limit).toNat total)).drop offset.toNat, total)

theorem items_eq_shardItems (st : Store) (ord : Order) (q : Bytes) :
    st.items ord q = allShards.flatMap (st.shardItems ord q) := by
  rw [items, List.filter_flatMap]
  rfl

/-- The index whose shards are those of several stores. -/
def together (st : Store) (part : Fin NUM_SHARDS → Store) : Store :=
  st.mapInner fun s ↦ { s with shards := fun k ↦ (part k).inner.shards k }

variable (st : Store) (part : Fin NUM_SHARDS → Store)

theorem items_together (ord : Order) (q : Bytes) :
    (st.together part).items ord q = allShards.flatMap fun k ↦ (part k).shardItems ord q k :=
  items_eq_shardItems _ ord q

/-- A link is asked for in the put together index if it is in the store of its shard. -/
theorem mem_matching_together {q : Bytes} {l : Link} :
    l ∈ (st.together part).matching q ↔ l ∈ (part (shardOf l.code)).matching q := Iff.rfl

theorem nodup_codes_items (ord : Order) (q : Bytes) : ((st.items ord q).map Link.code).Nodup := by
  rw [items_eq]
  refine List.Nodup.sublist (List.Sublist.map _ List.filter_sublist) ?_
  rw [List.map_map]
  exact Shards.nodup_keys_rows ord st.inner.shards

end Store

namespace Machine

open Store (Link Sorter allShards)

/-- A machine one of whose threads is in `Store::list`. -/
abbrev Listing := Survey.Progress Machine (Fin NUM_SHARDS) Link

/-- What can happen next: a step of another call, or the next shard is visited. -/
def listStep (ord : Order) (q : Bytes) : Listing → Survey.Label Label → Option Listing :=
  Survey.step step fun m k ↦ m.store.shardItems ord q k

/-- **Listing while other calls run.** Whatever other calls do during a listing, it shows no code
twice, it shows only links as they were at a moment of the walk, and it finds every code that has a
link to show all the time. Its answer is the one for some index. -/
theorem listed_meanwhile {m : Machine} {ord : Order} {q : Bytes} {ls : List (Survey.Label Label)}
    {t : Listing} (hrun : run (listStep ord q) { state := m, rest := allShards } ls = some t)
    (hrest : t.rest = []) :
    (t.found.map Link.code).Nodup ∧
    (∀ l ∈ t.found, ∃ u, Passes step m (goes ls) u ∧ l ∈ u.store.matching q) ∧
    (∀ c, (∀ u, Passes step m (goes ls) u → ∃ l ∈ u.store.matching q, l.code = c) →
      ∃ l ∈ t.found, l.code = c) ∧
    ∃ st : Store, ∀ sorter limit offset sort,
      Store.finish sorter limit offset sort t.found = st.list ord sorter limit offset sort q := by
  obtain ⟨moment, hpasses, hfound⟩ := Survey.exists_moments
    (List.nodup_finRange NUM_SHARDS) hrun hrest
  obtain ⟨st, hst⟩ : ∃ st, st = m.store.together fun k ↦ (moment k).store := ⟨_, rfl⟩
  have hitems : t.found = st.items ord q := by
    rw [hst, Store.items_together]
    exact hfound
  have hmem : ∀ {l : Link}, l ∈ t.found ↔ l ∈ (moment (shardOf l.code)).store.matching q := by
    intro l
    rw [hitems, Store.mem_items, hst]
    exact Store.mem_matching_together _ _
  refine ⟨?_, fun l hl ↦ ⟨_, hpasses _, hmem.mp hl⟩, fun c hc ↦ ?_, st, fun _ _ _ _ ↦ ?_⟩
  · rw [hitems]
    exact Store.nodup_codes_items st ord q
  · obtain ⟨l, hl, rfl⟩ := hc _ (hpasses (shardOf c))
    exact ⟨l, hmem.mpr hl, rfl⟩
  · rw [hitems]
    rfl

private theorem codeOk_b : codeOk (lit "b") = true := by decide

/-- A link is made; when its shard has been visited it is removed, and another one is made. -/
def neverTogether : List (Survey.Label Label) :=
  [.go (.shorten (lit "u0") (some ⟨lit "a", codeOk_a⟩) 0 {}), .go (.advance 0 {})]
    ++ List.replicate 100 .visit
    ++ [.go (.remove (lit "a")), .go (.advance 0 {}),
      .go (.shorten (lit "u1") (some ⟨lit "b", codeOk_b⟩) 0 {})]
    ++ List.replicate 156 .visit

theorem listed_meanwhile_neverTogether : ∃ t : Listing,
    run (listStep (fun _ ↦ 0) []) { state := idle (openEmpty 0) 0, rest := allShards }
      neverTogether = some t ∧
    (t.found.map Link.code).Nodup ∧ t.found.map Link.code = [lit "a", lit "b"] ∧
    (t.state.store.stats (lit "a")).isNone = true := by
  obtain ⟨t, hrun, hrest, hfound, hgone⟩ : ∃ t : Listing,
      run (listStep (fun _ ↦ 0) []) { state := idle (openEmpty 0) 0, rest := allShards }
        neverTogether = some t ∧
      t.rest = [] ∧ t.found.map Link.code = [lit "a", lit "b"] ∧
      (t.state.store.stats (lit "a")).isNone = true := by
    decide +kernel
  exact ⟨t, hrun, (listed_meanwhile hrun hrest).1, hfound, hgone⟩

end Machine

end Shrt
