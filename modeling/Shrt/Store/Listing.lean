import Shrt.Lib.Paging
import Shrt.Store.Ops

/-!
# Listing links

`Store::list` walks all shards, keeps the links whose code or url contains the query, sorts them and
cuts out one page. Which of the permutations sorted by the key `std::sort` returns is not
determined, so the sort is an argument. Bounds are `size_t`.

The pages are those of one list of all the links that are asked for (`Paging`): whatever the sort
does among links with the same key, it does the same for every page, so nothing is shown twice or
left out.
-/

namespace Shrt

namespace Store

/-- What `std::sort` does to links when they are compared by a key, the greater one first. -/
abbrev Sorter := (Link → Int64) → List Link → List Link

/-- The link an index entry is listed as. -/
def linkOf (p : Bytes × Entry) : Link :=
  { code := p.1, url := p.2.u, hits := p.2.h, createdAt := p.2.a, expiresAt := p.2.e }

/-- Whether a link is listed. -/
def listed (q : Bytes) (l : Link) : Bool := q = [] || q <:+: l.code || q <:+: l.url

/-- All links that are listed, in the order of the walk. -/
def items (st : Store) (ord : Order) (q : Bytes) : List Link :=
  (allShards.flatMap fun k ↦ (st.inner.shards.shardRows ord k).map linkOf).filter (listed q)

/-- `Store::list`: a page, and the number of links it is taken from. -/
def list (st : Store) (ord : Order) (sorter : Sorter) (limit offset : UInt64) (sort q : Bytes) :
    List Link × ℕ :=
  let items := st.items ord q
  let items := if sort = lit "hits" then sorter Link.hits items else sorter Link.createdAt items
  let total := items.length
  if total ≤ offset.toNat then ([], total)
  else ((items.take (min (offset + limit).toNat total)).drop offset.toNat, total)

/-! ## The links that are asked for -/

/-- The links of the index whose code or url contains the query. -/
def matching (st : Store) (q : Bytes) : Set Link :=
  { l | st.stats l.code = some l ∧ (q <:+: l.code ∨ q <:+: l.url) }

/-- The sort returns a permutation of its input, sorted by the key. -/
def Sorter.Sorts (sorter : Sorter) : Prop := ∀ key l,
  (sorter key l).Perm l ∧ (sorter key l).Pairwise fun x y ↦ key y ≤ key x

/-- What links are compared by. -/
def sortKey (sort : Bytes) : Link → Int64 := if sort = lit "hits" then Link.hits else Link.createdAt

variable (st : Store) (ord : Order)

theorem items_eq (q : Bytes) :
    st.items ord q = ((st.inner.shards.rows ord).map linkOf).filter (listed q) := by
  rw [items, Shards.rows, List.map_flatMap]
  rfl

theorem listed_iff {q : Bytes} {l : Link} : listed q l = true ↔ q <:+: l.code ∨ q <:+: l.url := by
  rw [listed, Bool.or_eq_true, Bool.or_eq_true, decide_eq_true_iff, decide_eq_true_iff,
    decide_eq_true_iff, or_assoc, or_iff_right_of_imp]
  rintro rfl
  exact .inl (List.nil_infix)

theorem mem_items {q : Bytes} {l : Link} : l ∈ st.items ord q ↔ l ∈ st.matching q := by
  rw [items_eq, List.mem_filter, listed_iff, List.mem_map]
  refine and_congr_left fun _ ↦ ?_
  constructor
  · rintro ⟨⟨c, e⟩, hmem, rfl⟩
    have hfind : st.inner.find c = some e := (Shards.mem_rows ord _).mp hmem
    rw [stats, show (linkOf (c, e)).code = c from rfl, hfind]
    rfl
  · intro h
    obtain ⟨e, hfind, hl⟩ := Option.map_eq_some_iff.mp h
    exact ⟨(l.code, e), (Shards.mem_rows ord _).mpr hfind, hl⟩

theorem nodup_items (q : Bytes) : (st.items ord q).Nodup := by
  rw [items_eq]
  refine List.Nodup.filter _ (List.Nodup.of_map Link.code ?_)
  rw [List.map_map]
  exact Shards.nodup_keys_rows ord st.inner.shards

theorem ncard_matching (q : Bytes) : (st.matching q).ncard = (st.items ord q).length := by
  have hset : st.matching q = ((st.items ord q).toFinset : Set Link) := by
    ext l
    rw [← mem_items st ord, Finset.mem_coe, List.mem_toFinset]
  rw [hset, Set.ncard_coe_finset, List.toFinset_card_of_nodup (nodup_items st ord q)]

/-! ## Pages -/

/-- All that is listed, sorted. -/
def listing (sorter : Sorter) (sort q : Bytes) : List Link :=
  sorter (sortKey sort) (st.items ord q)

variable {sorter : Sorter} (sort q : Bytes)

theorem perm_listing (hsort : sorter.Sorts) :
    (st.listing ord sorter sort q).Perm (st.items ord q) := (hsort _ _).1

theorem pairwise_listing (hsort : sorter.Sorts) :
    (st.listing ord sorter sort q).Pairwise fun x y ↦ sortKey sort y ≤ sortKey sort x :=
  (hsort _ _).2

variable {limit offset : UInt64}

/-- **A page of the listing**, and the length of the listing. -/
theorem list_eq (hsort : sorter.Sorts) (hwrap : offset.toNat + limit.toNat < 2 ^ 64) :
    st.list ord sorter limit offset sort q
      = (Paging.page (st.listing ord sorter sort q) limit.toNat offset.toNat,
          (st.matching q).ncard) := by
  have hlen : (st.listing ord sorter sort q).length = (st.matching q).ncard := by
    rw [ncard_matching st ord, (perm_listing st ord sort q hsort).length_eq]
  have hsorted : (if sort = lit "hits" then sorter Link.hits (st.items ord q)
      else sorter Link.createdAt (st.items ord q)) = st.listing ord sorter sort q := by
    rw [listing, sortKey]
    split_ifs <;> rfl
  have hend : (offset + limit).toNat = offset.toNat + limit.toNat := by
    rw [UInt64.toNat_add, Nat.mod_eq_of_lt hwrap]
  rw [list, hsorted]
  simp only [hend]
  split_ifs with h
  · rw [Paging.page_eq_nil_of_le h, hlen]
  · rw [Paging.drop_take_min, hlen]

/-- **Pages tile the listing.** Every page is sorted, the total is the number of the links that are
asked for, and the bounds of a page are what they are without wrapping around. If the links fit into
a `std::vector`, the pages up to the first empty one show each of them once. -/
theorem pages_tile (hsort : sorter.Sorts) (hpos : 1 ≤ limit.toNat) (hlimit : limit.toNat ≤ 1000) :
    (∀ offset : UInt64, offset.toNat ≤ 2 ^ 63 - 1 →
      (st.list ord sorter limit offset sort q).1.Pairwise
        (fun x y ↦ sortKey sort y ≤ sortKey sort x) ∧
      (st.list ord sorter limit offset sort q).2 = (st.matching q).ncard ∧
      (offset.toNat < (st.matching q).ncard →
        (offset + limit).toNat = offset.toNat + limit.toNat ∧
        offset.toNat ≤ min (offset + limit).toNat (st.matching q).ncard)) ∧
    ((st.matching q).ncard < 2 ^ 63 → ∃ n : ℕ,
      let page k := (st.list ord sorter limit (UInt64.ofNat (k * limit.toNat)) sort q).1
      page n = [] ∧ (∀ k < n, page k ≠ []) ∧ ((List.range n).flatMap page).Nodup ∧
      ∀ l, l ∈ (List.range n).flatMap page ↔ l ∈ st.matching q) := by
  constructor
  · intro offset hoffset
    have hwrap : offset.toNat + limit.toNat < 2 ^ 64 := by omega
    have hend : (offset + limit).toNat = offset.toNat + limit.toNat := by
      rw [UInt64.toNat_add, Nat.mod_eq_of_lt hwrap]
    rw [list_eq st ord sort q hsort hwrap]
    refine ⟨?_, rfl, fun hlt ↦ ⟨hend, ?_⟩⟩
    · exact (pairwise_listing st ord sort q hsort).sublist (Paging.page_sublist ..)
    · exact le_min (hend ▸ Nat.le_add_right ..) hlt.le
  · intro hsize
    obtain ⟨n, hn, hempty, hbefore, htile⟩ :=
      Paging.exists_pages_eq (st.listing ord sorter sort q) hpos
    have hlen : (st.listing ord sorter sort q).length = (st.matching q).ncard := by
      rw [ncard_matching st ord, (perm_listing st ord sort q hsort).length_eq]
    -- The offsets that are asked for do not wrap around either.
    have hpage : ∀ k ≤ n, (st.list ord sorter limit (UInt64.ofNat (k * limit.toNat)) sort q).1
        = Paging.page (st.listing ord sorter sort q) limit.toNat (k * limit.toNat) := by
      intro k hk
      have hle := Nat.mul_le_mul_right limit.toNat hk
      have hto : (UInt64.ofNat (k * limit.toNat)).toNat = k * limit.toNat :=
        UInt64.toNat_ofNat_of_lt' (by rw [UInt64.size]; omega)
      rw [list_eq st ord sort q hsort (by omega), hto]
    have hconcat : ((List.range n).flatMap fun k ↦
        (st.list ord sorter limit (UInt64.ofNat (k * limit.toNat)) sort q).1)
          = st.listing ord sorter sort q := by
      rw [← htile]
      exact List.flatMap_congr fun k hk ↦ hpage k (List.mem_range.mp hk).le
    refine ⟨n, (hpage n le_rfl).trans hempty, fun k hk ↦ ?_, ?_, fun l ↦ ?_⟩
    · exact (hpage k hk.le).trans_ne (hbefore k hk)
    · rw [hconcat, (perm_listing st ord sort q hsort).nodup_iff]
      exact nodup_items st ord q
    · rw [hconcat, (perm_listing st ord sort q hsort).mem_iff, mem_items]

/-- A sort that keeps the order of links with the same key. -/
def stableSorter : Sorter := fun key l ↦ l.insertionSort fun x y ↦ key y ≤ key x

theorem sorts_stableSorter : stableSorter.Sorts := by
  intro key l
  refine ⟨List.perm_insertionSort _ _, ?_⟩
  have : Std.Total fun x y : Link ↦ key y ≤ key x := ⟨fun x y ↦ Int64.le_total ..⟩
  have : IsTrans Link fun x y ↦ key y ≤ key x := ⟨fun x y z h h' ↦ Int64.le_trans h' h⟩
  exact List.pairwise_insertionSort _ l

/-- A store with two links. -/
def twoLinks : Store where
  dir := ∅
  inner := (Inner.put {} (lit "a1")
    { u := lit "http://x", a := 1, e := 0, i := 0, h := 5, oh := 5 }).put (lit "b2")
    { u := lit "http://y", a := 2, e := 0, i := 0, h := 7, oh := 7 }

/-- Asking for the first of two pages counts both links. -/
theorem pages_tile_twoLinks : (twoLinks.matching []).ncard = 2 := by
  have hlimit : (1 : UInt64).toNat ≤ 1000 := by decide
  have h := (pages_tile twoLinks List.length (lit "hits") [] sorts_stableSorter le_rfl hlimit).1 0
    (by decide)
  rw [← h.2.1]
  decide +kernel

end Store

end Shrt
