import Mathlib

/-!
# Hash maps with an arbitrary iteration order

A hash map is an association list with distinct keys. Its iteration order is an accident of the
bucket layout, so it is a parameter here: `iterate rank m` lists the bindings of `m` by increasing
`rank`, and every order is that of some `rank`. Results that hold for every `rank` hold whatever
the buckets look like.
-/

namespace UnorderedMap

variable {κ ν : Type*}

/-- The bindings of a map in the order its buckets happen to have. -/
def iterate (rank : κ → ℕ) (m : AList fun _ : κ ↦ ν) : List (κ × ν) :=
  (m.entries.map fun e ↦ (e.1, e.2)).insertionSort fun x y ↦ rank x.1 ≤ rank y.1

variable (rank : κ → ℕ) (m : AList fun _ : κ ↦ ν)

theorem iterate_perm : (iterate rank m).Perm (m.entries.map fun e ↦ (e.1, e.2)) :=
  List.perm_insertionSort _ _

@[simp] theorem iterate_empty : iterate rank (∅ : AList fun _ : κ ↦ ν) = [] := rfl

/-- No key is visited twice. -/
theorem nodup_keys_iterate : ((iterate rank m).map Prod.fst).Nodup := by
  rw [((iterate_perm rank m).map Prod.fst).nodup_iff, List.map_map]
  exact m.nodupKeys

variable [DecidableEq κ]

/-- The iteration visits exactly the bindings. -/
@[simp] theorem mem_iterate {k : κ} {v : ν} : (k, v) ∈ iterate rank m ↔ m.lookup k = some v := by
  rw [(iterate_perm rank m).mem_iff, List.mem_map]
  have hlookup : m.lookup k = some v ↔ (⟨k, v⟩ : Sigma fun _ : κ ↦ ν) ∈ m.entries :=
    AList.mem_lookup_iff
  rw [hlookup]
  constructor
  · rintro ⟨⟨k', v'⟩, hmem, heq⟩
    obtain ⟨rfl, rfl⟩ := Prod.mk.inj heq
    exact hmem
  · intro h
    exact ⟨_, h, rfl⟩

private theorem filterMap_key {β : Type*} {l : List (κ × ν)} (hnd : (l.map Prod.fst).Nodup)
    {k : κ} {o : Option ν} (hmem : ∀ v, (k, v) ∈ l ↔ o = some v) (f : ν → Option β) :
    l.filterMap (fun p ↦ if p.1 = k then f p.2 else none) = (o.bind f).toList := by
  induction l with
  | nil =>
    cases o with
    | none => rfl
    | some v => exact absurd ((hmem v).mpr rfl) List.not_mem_nil
  | cons p l ih =>
    obtain ⟨k', v'⟩ := p
    rw [List.map_cons, List.nodup_cons] at hnd
    by_cases hk : k' = k
    · -- No later binding has this key.
      subst hk
      have hrest : l.filterMap (fun p ↦ if p.1 = k' then f p.2 else none) = [] := by
        refine List.filterMap_eq_nil_iff.mpr fun q hq ↦ if_neg fun heq ↦ hnd.1 ?_
        exact List.mem_map.mpr ⟨q, hq, heq⟩
      simp only [List.filterMap_cons, if_true, hrest, (hmem v').mp List.mem_cons_self,
        Option.bind_some]
      cases f v' with
      | none => rfl
      | some b => rfl
    · simp only [List.filterMap_cons, if_neg hk]
      refine ih hnd.2 fun v ↦ ?_
      rw [← hmem v, List.mem_cons, Prod.mk.injEq]
      simp [Ne.symm hk]

/-- Picking one key out of the iteration is a lookup. -/
theorem filterMap_iterate {β : Type*} (k : κ) (f : ν → Option β) :
    (iterate rank m).filterMap (fun p ↦ if p.1 = k then f p.2 else none)
      = ((m.lookup k).bind f).toList :=
  filterMap_key (nodup_keys_iterate rank m) (fun _ ↦ mem_iterate rank m) f

end UnorderedMap
