import Shrt.Backend.Node
import Shrt.Lib.Ledger

/-!
# The hits of a node

What the two external backends have in common where hits are counted: a hit is pending in the maps
of the node until a flush lists the maps and forgets them. Whether the list is written is another
matter, since the write may fail.
-/

namespace Shrt.Backend

open Ledger (Books Event)
open Store (allShards)
open UnorderedMap (iterate)

/-- What happens to the hits of a node. -/
inductive HitOp where
  | bump (code : Bytes)
  /-- A flush, and whether its write fails. -/
  | flush (fails : Bool)
  deriving DecidableEq

/-- What it means for the books. -/
def HitOp.event : HitOp → Event Bytes
  | .bump code => .hit code
  | .flush fails => if fails then .lose else .flush

theorem HitOp.event_eq_lose {op : HitOp} : op.event = .lose ↔ op = .flush true := by
  cases op with
  | bump code => simp [event]
  | flush fails => cases fails <;> simp [event]

theorem HitOp.event_eq_hit {op : HitOp} {c : Bytes} : op.event = .hit c ↔ op = .bump c := by
  cases op with
  | bump code => simp [event]
  | flush fails => cases fails <;> simp [event]

/-- The hits of a run are its bumps. -/
theorem count_events {σ θ : Type*} (f : σ → θ × HitOp → Unit × σ) (s : σ) (c : Bytes)
    (ops : List (θ × HitOp)) : (Ledger.events f (fun p _ ↦ p.2.event) s ops).count (.hit c) =
      (ops.map Prod.snd).count (.bump c) := by
  induction ops generalizing s with
  | nil => rfl
  | cons p ops ih =>
    have hcons : Ledger.events f (fun p _ ↦ p.2.event) s (p :: ops) =
      p.2.event :: Ledger.events f (fun p _ ↦ p.2.event) (f s p).2 ops := rfl
    rw [hcons, List.map_cons, List.count_cons, List.count_cons, ih]
    simp only [beq_iff_eq, HitOp.event_eq_hit]

/-- A sum of counters that fits. -/
theorem toInt_add_of_lt {x y : Int64} (hx : 0 ≤ x.toInt) (hy : 0 ≤ y.toInt)
    (h : x.toInt + y.toInt < 2 ^ 63) : (x + y).toInt = x.toInt + y.toInt := by
  rw [Int64.toInt_add, Int.bmod_eq_of_le (by omega) (by omega)]

/-- A resolve that finds the link is a hit. -/
theorem Node.pendingAt_resolved (cfg : Config) (n : Node) (code : Bytes) (clk : Clock)
    (v : Option Bytes) (c : Bytes) : ((n.resolved cfg code clk v).2.pendingAt c).getD 0 =
      (n.pendingAt c).getD 0 +
        if c = code ∧ cfg.track ∧ (n.resolved cfg code clk v).1.isSome then 1 else 0 := by
  rw [resolved]
  cases (n.cacheGet cfg code (clk 0)).1 with
  | some u =>
    dsimp only
    rw [pendingAt_bumped, pendingAt_cacheGet]
    simp
  | none =>
    cases v.bind dec with
    | none => simp
    | some row =>
      dsimp only
      split_ifs with hexp hhit hhit
      · simp at hhit
      · rw [pendingAt_cacheGet, add_zero]
      · rw [pendingAt_bumped, pendingAt_cachePut, pendingAt_cacheGet, if_pos ⟨hhit.1, hhit.2.1⟩]
      · rw [pendingAt_bumped, pendingAt_cachePut, pendingAt_cacheGet,
          if_neg fun h ↦ hhit ⟨h.1, h.2, rfl⟩]

theorem pendingAt_drained (ord : Order) (ks : List (Fin NUM_SHARDS)) (c : Bytes) :
    ∀ (n : Node) (deltas : List (Bytes × Int64)),
      (n.drained ord ks deltas).2.pendingAt c = if shardOf c ∈ ks then none else n.pendingAt c := by
  induction ks with
  | nil => exact fun _ _ ↦ rfl
  | cons k ks ih =>
    intro n deltas
    rw [Node.drained, ih, Node.pendingAt_drain]
    by_cases hks : shardOf c ∈ ks
    · rw [if_pos hks, if_pos (List.mem_cons_of_mem _ hks)]
    · rw [if_neg hks]
      exact if_congr (by simp [hks]) rfl rfl

/-- The deltas of one code. -/
def deltasOf (c : Bytes) (deltas : List (Bytes × Int64)) : List Int64 :=
  deltas.filterMap fun p ↦ if p.1 = c then some p.2 else none

/-- The shard loop lists a code once, if it has an entry. -/
theorem deltasOf_drained (ord : Order) {ks : List (Fin NUM_SHARDS)} (hks : ks.Nodup) (c : Bytes) :
    ∀ (n : Node) (deltas : List (Bytes × Int64)), deltasOf c (n.drained ord ks deltas).1 =
      deltasOf c deltas ++ if shardOf c ∈ ks then (n.pendingAt c).toList else [] := by
  induction ks with
  | nil => exact fun _ _ ↦ (List.append_nil _).symm
  | cons k ks ih =>
    intro n deltas
    obtain ⟨hk, hks⟩ := List.nodup_cons.mp hks
    have hpick : deltasOf c (iterate ord (n.dirty k).1) =
        if shardOf c = k then (n.pendingAt c).toList else [] := by
      rw [deltasOf, UnorderedMap.filterMap_iterate ord (n.dirty k).1 c some, Option.bind_fun_some]
      split_ifs with heq
      · rw [Node.pendingAt, heq]
      · rw [AList.lookup_eq_none.mpr fun hmem ↦ heq ((n.dirty k).2 c hmem)]
        rfl
    rw [Node.drained, ih hks, Node.pendingAt_drain, deltasOf, List.filterMap_append, ← deltasOf,
      ← deltasOf, hpick, List.append_assoc]
    congr 1
    by_cases heq : shardOf c = k
    · rw [if_pos heq, if_pos heq, if_neg (heq ▸ hk), if_pos (List.mem_cons.mpr (.inl heq)),
        List.append_nil]
    · rw [if_neg heq, if_neg heq, List.nil_append]
      exact if_congr (by simp [heq]) rfl rfl

/-- What a flush lists and leaves. -/
theorem drained_allShards (ord : Order) (n : Node) (c : Bytes) :
    deltasOf c (n.drained ord allShards []).1 = (n.pendingAt c).toList ∧
      (n.drained ord allShards []).2.pendingAt c = none := by
  have hall : shardOf c ∈ allShards := List.mem_finRange _
  have hnodup : allShards.Nodup := List.nodup_finRange _
  constructor
  · rw [deltasOf_drained ord hnodup, if_pos hall]
    rfl
  · rw [pendingAt_drained, if_pos hall]

/-! ## Books -/

/-- The books of a node, with the links and the counters of its backend. -/
def Node.books (n : Node) (present : Bytes → Prop) (stored : Bytes → Int64) : Books Bytes where
  present := present
  stored c := (stored c).toInt
  pending c := ((n.pendingAt c).getD 0).toInt

/-- The counters fit. -/
abbrev Fits (B : Books Bytes) : Prop := B.Within ((2 ^ 63 - 1 : ℕ) - 1)

variable {n n' : Node} {present : Bytes → Prop} {stored : Bytes → Int64} {code : Bytes}

theorem Fits.bounds (h : Fits (n.books present stored)) (c : Bytes) : 0 ≤ (stored c).toInt ∧
    0 ≤ ((n.pendingAt c).getD 0).toInt ∧
    (stored c).toInt + ((n.pendingAt c).getD 0).toInt < 2 ^ 63 - 1 := by
  obtain ⟨hstored, hpending, hle⟩ := h c
  refine ⟨hstored, hpending, ?_⟩
  change (stored c).toInt + ((n.pendingAt c).getD 0).toInt ≤ _ at hle
  omega

/-- A balance that fits is what is read. -/
theorem toInt_balance {k : ℕ} (h : (n.books present stored).Within k) (hk : k < 2 ^ 63) (c : Bytes) :
    (stored c + (n.pendingAt c).getD 0).toInt = (n.books present stored).balance c := by
  obtain ⟨hstored, hpending, hle⟩ := h c
  change (stored c).toInt + ((n.pendingAt c).getD 0).toInt ≤ _ at hle
  exact toInt_add_of_lt hstored hpending (by omega)

theorem books_hit (h : Fits (n.books present stored))
    (hn : ∀ c, (n'.pendingAt c).getD 0 = (n.pendingAt c).getD 0 + if c = code then 1 else 0) :
    n'.books present stored = (n.books present stored).after (.hit code) := by
  refine Books.ext rfl rfl (funext fun c ↦ ?_)
  simp only [Node.books, Books.after, Function.update_apply, hn c]
  split_ifs with hc
  · obtain ⟨hstored, hpending, hlt⟩ := h.bounds code
    have hone : (1 : Int64).toInt = 1 := rfl
    rw [hc, toInt_add_of_lt hpending (by decide) (by omega), hone]
  · rw [add_zero]

/-- Nothing is pending after a flush, whatever became of the list. -/
theorem books_lose (ord : Order) : ((n.drained ord allShards []).2).books present stored =
    (n.books present stored).after .lose := by
  refine Books.ext rfl rfl (funext fun c ↦ ?_)
  simp only [Node.books, Books.after, (drained_allShards ord n c).2, Option.getD_none,
    Int64.toInt_zero]

end Shrt.Backend
