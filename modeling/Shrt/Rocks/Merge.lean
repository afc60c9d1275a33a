import Shrt.Lib.MergeTree
import Shrt.Rocks.Node

/-!
# The merge operator of the counters

RocksDB calls `U64AddMerge::Merge` when it likes: onto the value of a counter, or between two
operands that lie next to each other. Whatever it does, the counter becomes the sum
(`combines_mergeU64_iff`). This is why a batch of additions can be one action of the model that adds
from left to right (`combines_iff_lookup_add`).
-/

namespace Shrt.Rocks

open MergeTree (Combines Sums)

theorem sums_mergeU64 : Sums mergeU64 u64Of u64Bytes where
  dec_enc := u64Of_u64Bytes
  merge_eq base value := by
    cases base with
    | none => rfl
    | some v => rfl

/-- **The merge operator in any grouping.** Of a value that may be there and operands of any
lengths, RocksDB can make, whichever neighbours it merges first, exactly one thing: the eight bytes
of the sum of what they stand for. Without operands nothing is merged. -/
theorem combines_mergeU64_iff (existing : Option Bytes) (ops : List Bytes) (v : Bytes) :
    Combines mergeU64 existing ops v ↔
      ops ≠ [] ∧ v = u64Bytes (existing.elim 0 u64Of + (ops.map u64Of).sum) :=
  sums_mergeU64.combines_iff

/-- The operands that a batch has for a code. -/
def operandsOf (code : Bytes) (deltas : List (Bytes × Bytes)) : List Bytes :=
  deltas.filterMap fun p ↦ if p.1 = code then some p.2 else none

theorem lookup_add (db : RocksDB) (p : Bytes × Bytes) (code : Bytes) :
    (db.add p).hits.lookup code =
      if p.1 = code then some (mergeU64 (db.hits.lookup code) p.2) else db.hits.lookup code := by
  rw [RocksDB.add]
  split_ifs with h
  · rw [← h, AList.lookup_insert]
  · rw [AList.lookup_insert_ne (Ne.symm h)]

theorem lookup_foldl_add (deltas : List (Bytes × Bytes)) (db : RocksDB) (code : Bytes) :
    (deltas.foldl RocksDB.add db).hits.lookup code =
      MergeTree.inTurn mergeU64 (db.hits.lookup code) (operandsOf code deltas) := by
  induction deltas generalizing db with
  | nil => rfl
  | cons p deltas ih =>
    rw [List.foldl_cons, ih, lookup_add, operandsOf, operandsOf, List.filterMap_cons]
    split_ifs with h
    · rfl
    · rfl

/-- **A batch of additions is one action.** Whatever RocksDB makes of the additions that a batch has
for a code, it is what the model has for it after the batch. -/
theorem combines_iff_lookup_add (db : RocksDB) {code : Bytes} {deltas : List (Bytes × Bytes)}
    (h : operandsOf code deltas ≠ []) (v : Bytes) :
    Combines mergeU64 (db.hits.lookup code) (operandsOf code deltas) v ↔
      (deltas.foldl RocksDB.add db).hits.lookup code = some v := by
  rw [lookup_foldl_add, sums_mergeU64.combines_iff_inTurn h]

end Shrt.Rocks
