import Mathlib

/-!
# Merging in any grouping

A store that is given a merge function may apply it whenever it likes: operands are merged onto the
value one after another, or neighbours are merged with each other first, in any bracketing, and the
results are merged onto the value later. `Combines` holds of all values that can come out.

When merging adds up what values stand for (`Sums`), all of them are the same: the operands that
went in decide what comes out (`Sums.combines_iff`).
-/

namespace MergeTree

variable {α M : Type*}

/-- A bracketing of neighbouring operands. -/
inductive Grouping (α : Type*) where
  | one (a : α)
  | pair (l r : Grouping α)

namespace Grouping

/-- The operands in their order. -/
def operands : Grouping α → List α
  | one a => [a]
  | pair l r => l.operands ++ r.operands

/-- The operand they become. -/
def eval (merge : Option α → α → α) : Grouping α → α
  | one a => a
  | pair l r => merge (some (l.eval merge)) (r.eval merge)

theorem operands_ne_nil (g : Grouping α) : g.operands ≠ [] := by
  induction g with
  | one a => exact List.cons_ne_nil a []
  | pair l r hl _ => exact List.append_ne_nil_of_left_ne_nil hl r.operands

end Grouping

/-- The values that come out when operands are merged onto what is there, if anything is. -/
inductive Combines (merge : Option α → α → α) (base : Option α) : List α → α → Prop
  | first (g : Grouping α) : Combines merge base g.operands (merge base (g.eval merge))
  | next {ops : List α} {v : α} (h : Combines merge base ops v) (g : Grouping α) :
    Combines merge base (ops ++ g.operands) (merge (some v) (g.eval merge))

theorem Combines.ne_nil {merge : Option α → α → α} {base : Option α} {ops : List α} {v : α}
    (h : Combines merge base ops v) : ops ≠ [] := by
  cases h with
  | first g => exact g.operands_ne_nil
  | next _ g => exact List.append_ne_nil_of_right_ne_nil _ g.operands_ne_nil

/-- One operand after another is merged onto what is there. -/
def inTurn (merge : Option α → α → α) (base : Option α) (ops : List α) : Option α :=
  ops.foldl (fun o a ↦ some (merge o a)) base

/-- That is one of the ways. -/
theorem exists_inTurn (merge : Option α → α → α) (base : Option α) {ops : List α} (h : ops ≠ []) :
    ∃ v, inTurn merge base ops = some v ∧ Combines merge base ops v := by
  induction ops using List.reverseRecOn with
  | nil => exact absurd rfl h
  | append_singleton ops a ih =>
    rw [inTurn, List.foldl_append]
    by_cases hnil : ops = []
    · subst hnil
      exact ⟨_, rfl, .first (.one a)⟩
    · obtain ⟨v, hv, hc⟩ := ih hnil
      rw [inTurn] at hv
      rw [hv]
      exact ⟨_, rfl, hc.next (.one a)⟩

/-- Merging adds up what values stand for. -/
structure Sums [AddMonoid M] (merge : Option α → α → α) (dec : α → M) (enc : M → α) : Prop where
  dec_enc : ∀ m, dec (enc m) = m
  merge_eq : ∀ base a, merge base a = enc (base.elim 0 dec + dec a)

namespace Sums

variable [AddMonoid M] {merge : Option α → α → α} {dec : α → M} {enc : M → α}

theorem dec_eval (h : Sums merge dec enc) (g : Grouping α) :
    dec (g.eval merge) = (g.operands.map dec).sum := by
  induction g with
  | one a => rw [Grouping.eval, Grouping.operands, List.map_singleton, List.sum_singleton]
  | pair l r hl hr =>
    rw [Grouping.eval, Grouping.operands, h.merge_eq, h.dec_enc, Option.elim_some, hl, hr,
      List.map_append, List.sum_append]

/-- Whatever the grouping, the sum comes out. -/
theorem eq_of_combines (h : Sums merge dec enc) {base : Option α} {ops : List α} {v : α}
    (hv : Combines merge base ops v) : v = enc (base.elim 0 dec + (ops.map dec).sum) := by
  induction hv with
  | first g => rw [h.merge_eq, h.dec_eval]
  | next hv g ih =>
    rw [h.merge_eq, Option.elim_some, ih, h.dec_enc, h.dec_eval, List.map_append, List.sum_append,
      add_assoc]

/-- **All groupings agree.** -/
theorem combines_iff (h : Sums merge dec enc) {base : Option α} {ops : List α} {v : α} :
    Combines merge base ops v ↔ ops ≠ [] ∧ v = enc (base.elim 0 dec + (ops.map dec).sum) := by
  constructor
  · exact fun hv ↦ ⟨hv.ne_nil, h.eq_of_combines hv⟩
  · rintro ⟨hne, rfl⟩
    obtain ⟨v, -, hv⟩ := exists_inTurn merge base hne
    exact h.eq_of_combines hv ▸ hv

/-- In particular, all of them agree with merging in turn. -/
theorem combines_iff_inTurn (h : Sums merge dec enc) {base : Option α} {ops : List α}
    (hne : ops ≠ []) {v : α} : Combines merge base ops v ↔ inTurn merge base ops = some v := by
  obtain ⟨w, hw, hc⟩ := exists_inTurn merge base hne
  rw [hw, Option.some.injEq]
  constructor
  · exact fun hv ↦ (h.eq_of_combines hc).trans (h.eq_of_combines hv).symm
  · exact fun heq ↦ heq ▸ hc

end Sums

end MergeTree
