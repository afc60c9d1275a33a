import Shrt.Common
import Shrt.Lib.UnorderedMap

/-!
# The sharded index

The index is an array of `NUM_SHARDS` shards, each a hash map from codes to entries together with
the map of hits not yet logged. A code lives in the shard its hash names, and that is part of the
type: a `Shard k` holds only codes that hash to `k`, so a lookup never has to look elsewhere and a
walk over all shards meets every code once (`mem_rows`, `nodup_keys_rows`).

Everything above this module sees the index through two functions, `find` and `dirtyOf`, and the
lemmas here say what each operation does to them. The shards themselves reappear only where the
source drains or snapshots them one at a time.
-/

namespace Shrt

/-- The number of shards. -/
def NUM_SHARDS : ℕ := 256

instance : NeZero NUM_SHARDS := ⟨by decide⟩

instance instLawfulBEqShard : LawfulBEq (Fin NUM_SHARDS) := inferInstance

/-- The shard of a code: FNV-1a, reduced to the low bits. -/
def shardOf (code : Bytes) : Fin NUM_SHARDS :=
  let h : UInt32 := code.foldl (fun h b ↦ (h ^^^ b.toUInt32) * 16777619) 2166136261
  Fin.ofNat NUM_SHARDS (h &&& 255).toNat

/-- A stored link. -/
structure Entry where
  /-- The target url. -/
  u : Bytes
  /-- Creation time in milliseconds. -/
  a : Int64
  /-- Expiry in milliseconds, `0` for never. -/
  e : Int64
  /-- The owning instance. -/
  i : Int32
  /-- Total hits. -/
  h : Int64 := 0
  /-- Hits counted by this instance. -/
  oh : Int64 := 0
  deriving DecidableEq

/-- One shard. Both of its maps hold only codes that belong to it. -/
structure Shard (k : Fin NUM_SHARDS) where
  /-- The entries. -/
  data : AList fun _ : Bytes ↦ Entry
  /-- Hits counted since the last drain. -/
  dirty : AList fun _ : Bytes ↦ Int64
  data_placed : ∀ c ∈ data, shardOf c = k
  dirty_placed : ∀ c ∈ dirty, shardOf c = k

/-- The array of shards. -/
abbrev Shards := (k : Fin NUM_SHARDS) → Shard k

/-- The order in which a hash map is walked. -/
abbrev Order := Bytes → ℕ

/-- Nothing is out of place in an empty map. -/
theorem placed_empty (β : Type) (k : Fin NUM_SHARDS) :
    ∀ c ∈ (∅ : AList fun _ : Bytes ↦ β), shardOf c = k :=
  fun c h ↦ absurd h (AList.notMem_empty c)

namespace Shard

variable {k : Fin NUM_SHARDS}

/-- An empty shard. -/
def empty : Shard k where
  data := ∅
  dirty := ∅
  data_placed := placed_empty Entry k
  dirty_placed := placed_empty Int64 k

/-- `data[c] = e`. -/
def put (sh : Shard k) (c : Bytes) (hc : shardOf c = k) (e : Entry) : Shard k where
  data := sh.data.insert c e
  dirty := sh.dirty
  data_placed := by
    intro c' h
    rcases (AList.mem_insert _).mp h with rfl | h
    · exact hc
    · exact sh.data_placed c' h
  dirty_placed := sh.dirty_placed

/-- `data.erase(c)`. -/
def erase (sh : Shard k) (c : Bytes) : Shard k where
  data := sh.data.erase c
  dirty := sh.dirty
  data_placed := fun c' h ↦ sh.data_placed c' (AList.mem_erase.mp h).2
  dirty_placed := sh.dirty_placed

/-- `dirty[c] += 1`. -/
def addDirty (sh : Shard k) (c : Bytes) (hc : shardOf c = k) : Shard k where
  data := sh.data
  dirty := sh.dirty.insert c ((sh.dirty.lookup c).getD 0 + 1)
  data_placed := sh.data_placed
  dirty_placed := by
    intro c' h
    rcases (AList.mem_insert _).mp h with rfl | h
    · exact hc
    · exact sh.dirty_placed c' h

/-- `dirty.clear()`. -/
def drain (sh : Shard k) : Shard k := { sh with dirty := ∅, dirty_placed := by simp }

end Shard

namespace Shards

/-- All shards empty. -/
def empty : Shards := fun _ ↦ Shard.empty

/-- The entry of a code. -/
def find (s : Shards) (c : Bytes) : Option Entry := (s (shardOf c)).data.lookup c

/-- The entry of a code in the map of pending hits. -/
def dirtyAt (s : Shards) (c : Bytes) : Option Int64 := (s (shardOf c)).dirty.lookup c

/-- The hits of a code that no flush has taken yet. -/
def dirtyOf (s : Shards) (c : Bytes) : Int64 := (s.dirtyAt c).getD 0

/-- Bind a code. -/
def put (s : Shards) (c : Bytes) (e : Entry) : Shards :=
  Function.update s (shardOf c) ((s (shardOf c)).put c rfl e)

/-- Unbind a code. -/
def erase (s : Shards) (c : Bytes) : Shards :=
  Function.update s (shardOf c) ((s (shardOf c)).erase c)

/-- Count one hit towards the next flush. -/
def addDirty (s : Shards) (c : Bytes) : Shards :=
  Function.update s (shardOf c) ((s (shardOf c)).addDirty c rfl)

/-- Forget the pending hits of one shard. -/
def drain (s : Shards) (k : Fin NUM_SHARDS) : Shards := Function.update s k (s k).drain

/-- The entries of one shard, in the order of its buckets. -/
def shardRows (ord : Order) (s : Shards) (k : Fin NUM_SHARDS) : List (Bytes × Entry) :=
  UnorderedMap.iterate ord (s k).data

/-- The pending hits of one shard, in the order of its buckets. -/
def shardDirty (ord : Order) (s : Shards) (k : Fin NUM_SHARDS) : List (Bytes × Int64) :=
  UnorderedMap.iterate ord (s k).dirty

/-- All entries, shard by shard. -/
def rows (ord : Order) (s : Shards) : List (Bytes × Entry) :=
  (List.finRange NUM_SHARDS).flatMap (s.shardRows ord)

/-! ## What the operations do to lookups -/

private theorem data_update (s : Shards) (k : Fin NUM_SHARDS) (sh : Shard k)
    (k' : Fin NUM_SHARDS) :
    (Function.update s k sh k').data = if k' = k then sh.data else (s k').data := by
  by_cases h : k' = k
  · subst h
    rw [Function.update_self, if_pos rfl]
  · rw [Function.update_of_ne h, if_neg h]

private theorem dirty_update (s : Shards) (k : Fin NUM_SHARDS) (sh : Shard k)
    (k' : Fin NUM_SHARDS) :
    (Function.update s k sh k').dirty = if k' = k then sh.dirty else (s k').dirty := by
  by_cases h : k' = k
  · subst h
    rw [Function.update_self, if_pos rfl]
  · rw [Function.update_of_ne h, if_neg h]

theorem dirty_put (s : Shards) (c : Bytes) (e : Entry) (k : Fin NUM_SHARDS) :
    ((s.put c e) k).dirty = (s k).dirty := by
  rw [put, dirty_update]
  split_ifs with h
  · rw [Shard.put, h]
  · rfl

theorem dirty_erase (s : Shards) (c : Bytes) (k : Fin NUM_SHARDS) :
    ((s.erase c) k).dirty = (s k).dirty := by
  rw [erase, dirty_update]
  split_ifs with h
  · rw [Shard.erase, h]
  · rfl

@[simp] theorem find_empty (c : Bytes) : empty.find c = none := AList.lookup_empty c

@[simp] theorem dirtyOf_empty (c : Bytes) : empty.dirtyOf c = 0 := rfl

theorem find_put (s : Shards) (c c' : Bytes) (e : Entry) :
    (s.put c e).find c' = if c' = c then some e else s.find c' := by
  rw [find, put, data_update, find]
  by_cases h : c' = c
  · subst h
    simp [Shard.put]
  · rw [if_neg h]
    split_ifs with hk
    · rw [Shard.put, AList.lookup_insert_ne h, hk]
    · rfl

theorem find_erase (s : Shards) (c c' : Bytes) :
    (s.erase c).find c' = if c' = c then none else s.find c' := by
  rw [find, erase, data_update, find]
  by_cases h : c' = c
  · subst h
    simp [Shard.erase]
  · rw [if_neg h]
    split_ifs with hk
    · rw [Shard.erase, AList.lookup_erase_ne h, hk]
    · rfl

@[simp] theorem find_addDirty (s : Shards) (c c' : Bytes) :
    (s.addDirty c).find c' = s.find c' := by
  rw [find, addDirty, data_update, find]
  split_ifs with hk
  · rw [Shard.addDirty, hk]
  · rfl

@[simp] theorem find_drain (s : Shards) (k : Fin NUM_SHARDS) (c : Bytes) :
    (s.drain k).find c = s.find c := by
  rw [find, drain, data_update, find]
  split_ifs with hk
  · rw [Shard.drain, hk]
  · rfl

theorem dirtyAt_put (s : Shards) (c c' : Bytes) (e : Entry) :
    (s.put c e).dirtyAt c' = s.dirtyAt c' := by
  rw [dirtyAt, dirty_put, dirtyAt]

theorem dirtyAt_erase (s : Shards) (c c' : Bytes) : (s.erase c).dirtyAt c' = s.dirtyAt c' := by
  rw [dirtyAt, dirty_erase, dirtyAt]

theorem dirtyAt_addDirty (s : Shards) (c c' : Bytes) :
    (s.addDirty c).dirtyAt c' = if c' = c then some (s.dirtyOf c + 1) else s.dirtyAt c' := by
  rw [dirtyAt, addDirty, dirty_update]
  by_cases h : c' = c
  · subst h
    simp [Shard.addDirty, dirtyOf, dirtyAt]
  · rw [if_neg h]
    split_ifs with hk
    · rw [Shard.addDirty, AList.lookup_insert_ne h, dirtyAt, hk]
    · rfl

theorem dirtyAt_drain (s : Shards) (k : Fin NUM_SHARDS) (c : Bytes) :
    (s.drain k).dirtyAt c = if shardOf c = k then none else s.dirtyAt c := by
  rw [dirtyAt, drain, dirty_update]
  split_ifs
  · rw [Shard.drain, AList.lookup_empty]
  · rfl

@[simp] theorem dirtyOf_put (s : Shards) (c c' : Bytes) (e : Entry) :
    (s.put c e).dirtyOf c' = s.dirtyOf c' := by
  rw [dirtyOf, dirtyAt_put, dirtyOf]

@[simp] theorem dirtyOf_erase (s : Shards) (c c' : Bytes) :
    (s.erase c).dirtyOf c' = s.dirtyOf c' := by
  rw [dirtyOf, dirtyAt_erase, dirtyOf]

theorem dirtyOf_addDirty (s : Shards) (c c' : Bytes) :
    (s.addDirty c).dirtyOf c' = if c' = c then s.dirtyOf c + 1 else s.dirtyOf c' := by
  rw [dirtyOf, dirtyAt_addDirty]
  split_ifs <;> rfl

theorem dirtyOf_drain (s : Shards) (k : Fin NUM_SHARDS) (c : Bytes) :
    (s.drain k).dirtyOf c = if shardOf c = k then 0 else s.dirtyOf c := by
  rw [dirtyOf, dirtyAt_drain]
  split_ifs <;> rfl

theorem mem_dirty_addDirty {s : Shards} {c c' : Bytes} {k : Fin NUM_SHARDS}
    (h : c' ∈ ((s.addDirty c) k).dirty) : c' = c ∨ c' ∈ (s k).dirty := by
  rw [addDirty, dirty_update] at h
  split_ifs at h with hk
  · rw [hk]
    exact (AList.mem_insert _).mp h
  · exact .inr h

theorem mem_dirty_drain {s : Shards} {c : Bytes} {k k' : Fin NUM_SHARDS}
    (h : c ∈ ((s.drain k) k').dirty) : c ∈ (s k').dirty := by
  rw [drain, dirty_update] at h
  split_ifs at h
  · exact absurd h (by simp [Shard.drain])
  · exact h

/-! ## Walking the shards -/

theorem mem_shardRows (ord : Order) (s : Shards) (k : Fin NUM_SHARDS) {c : Bytes} {e : Entry} :
    (c, e) ∈ s.shardRows ord k ↔ shardOf c = k ∧ s.find c = some e := by
  rw [shardRows, UnorderedMap.mem_iterate]
  constructor
  · intro h
    have hk : shardOf c = k := (s k).data_placed c (AList.lookup_isSome.mp (by rw [h]; rfl))
    subst hk
    exact ⟨rfl, h⟩
  · rintro ⟨rfl, h⟩
    exact h

/-- The walk meets exactly the entries. -/
theorem mem_rows (ord : Order) (s : Shards) {c : Bytes} {e : Entry} :
    (c, e) ∈ s.rows ord ↔ s.find c = some e := by
  rw [rows, List.mem_flatMap]
  constructor
  · rintro ⟨k, -, h⟩
    exact ((mem_shardRows ord s k).mp h).2
  · intro h
    exact ⟨shardOf c, List.mem_finRange _, (mem_shardRows ord s _).mpr ⟨rfl, h⟩⟩

/-- The walk meets no code twice. -/
theorem nodup_keys_rows (ord : Order) (s : Shards) : ((s.rows ord).map Prod.fst).Nodup := by
  rw [rows, List.map_flatMap, List.nodup_flatMap]
  refine ⟨fun k _ ↦ UnorderedMap.nodup_keys_iterate ord (s k).data, ?_⟩
  refine (List.nodup_finRange NUM_SHARDS).imp fun {k k'} hne ↦ ?_
  rw [Function.onFun, List.disjoint_left]
  intro c hc hc'
  obtain ⟨⟨c₁, e⟩, hmem, rfl⟩ := List.mem_map.mp hc
  obtain ⟨⟨c₂, e'⟩, hmem', rfl⟩ := List.mem_map.mp hc'
  exact hne (((mem_shardRows ord s k).mp hmem).1.symm.trans ((mem_shardRows ord s k').mp hmem').1)

theorem mem_shardDirty (ord : Order) (s : Shards) (k : Fin NUM_SHARDS) {c : Bytes} {d : Int64} :
    (c, d) ∈ s.shardDirty ord k ↔ shardOf c = k ∧ s.dirtyAt c = some d := by
  rw [shardDirty, UnorderedMap.mem_iterate]
  constructor
  · intro h
    have hk : shardOf c = k := (s k).dirty_placed c (AList.lookup_isSome.mp (by rw [h]; rfl))
    subst hk
    exact ⟨rfl, h⟩
  · rintro ⟨rfl, h⟩
    exact h

end Shards

end Shrt
