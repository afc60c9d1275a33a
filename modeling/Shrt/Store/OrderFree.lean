import Shrt.Store.Cells

/-!
# The order of the lines

An instance reads the logs of its siblings in the order its polls find them, so the hits of a link
may arrive before its row or after it. As long as nothing parked is dropped, that makes no
difference for a code with one row and no tombstone: its account is that of a counter that is set
once.
-/

namespace Shrt

open CounterLog (Touch Cell replay weight weight_append once_set_cons)

namespace Op

/-- The line is a row for the code. -/
def IsRow (c : Bytes) (o : Op) : Prop := o.touch c = some (.set o.n)

/-- The line counts hits of the code, or it is about another one. -/
def OnlyCounts (c : Bytes) (o : Op) : Prop := ∀ t ∈ o.touch c, t.isAdd = true

/-- The hits of the code that a line counts. -/
def delta (c : Bytes) (o : Op) : ℤ := if o.touch c = some (.add o.d) then o.d.toInt else 0

/-- Those of them that are hits of the instance. -/
def ownDelta (inst : InstanceId) (c : Bytes) (o : Op) : ℤ :=
  if instInt inst = o.i.toInt32 then o.delta c else 0

instance (c : Bytes) (o : Op) : Decidable (o.IsRow c) := inferInstanceAs (Decidable (_ = _))

instance (c : Bytes) (o : Op) : Decidable (o.OnlyCounts c) :=
  inferInstanceAs (Decidable (∀ t ∈ o.touch c, t.isAdd = true))

variable {inst : InstanceId} {c : Bytes} {o : Op}

theorem mark_of_isRow (h : o.IsRow c) : o.mark inst c = some (.set ({o.body}, o.n, o.n)) := by
  rw [mark, h]
  rfl

/-- The hits that a line counts are its `d`. -/
theorem touch_of_onlyCounts (h : o.OnlyCounts c) :
    o.touch c = none ∨ o.touch c = some (.add o.d) := by
  rw [OnlyCounts] at h
  rw [touch] at h ⊢
  split_ifs at h ⊢ with hx hxc hh hhc hc
  · exact absurd (h _ rfl) Bool.false_ne_true
  · exact .inl rfl
  · exact .inr rfl
  · exact .inl rfl
  · exact absurd (h _ rfl) Bool.false_ne_true
  · exact .inl rfl

/-- A line that counts weighs what it counts. -/
theorem mark_of_onlyCounts (inst : InstanceId) (h : o.OnlyCounts c) : weight (o.mark inst c).toList
    = (0, Int64.ofInt (o.delta c), Int64.ofInt (o.ownDelta inst c)) ∧
      ∀ t ∈ (o.mark inst c).toList, t.isAdd = true := by
  rw [mark, ownDelta, delta]
  rcases touch_of_onlyCounts h with h | h
  · rw [h]
    simp
    rfl
  · rw [h, Option.map_some, if_pos rfl, Int64.ofInt_toInt]
    refine ⟨?_, by simp [Touch.isAdd]⟩
    split_ifs <;> simp [weight, Touch.weight]

end Op

/-- Lines that only count weigh the sum of their hits, and set nothing. -/
theorem weight_of_onlyCounts (inst : InstanceId) {c : Bytes} {ops : List Op}
    (h : ∀ o ∈ ops, o.OnlyCounts c) : weight (ops.filterMap (Op.mark inst c))
      = (0, Int64.ofInt (ops.map (Op.delta c)).sum,
          Int64.ofInt (ops.map (Op.ownDelta inst c)).sum) := by
  induction ops with
  | nil => rfl
  | cons o ops ih =>
    have ho := (Op.mark_of_onlyCounts inst (h o List.mem_cons_self)).1
    rw [filterMap_cons_toList, weight_append, ho, ih fun o ho ↦ h o (List.mem_cons_of_mem _ ho),
      List.map_cons, List.sum_cons, List.map_cons, List.sum_cons, Int64.ofInt_add, Int64.ofInt_add]
    rfl

theorem isAdd_of_onlyCounts (inst : InstanceId) {c : Bytes} {ops : List Op}
    (h : ∀ o ∈ ops, o.OnlyCounts c) : ∀ t ∈ ops.filterMap (Op.mark inst c), t.isAdd = true := by
  intro t ht
  obtain ⟨o, ho, hot⟩ := List.mem_filterMap.mp ht
  exact (Op.mark_of_onlyCounts inst (h o ho)).2 t (Option.mem_toList.mpr hot)

namespace Inner

variable (ord : Order) {c : Bytes}

/-- **A log touches the account of its code**, while there is room for more parked hits. -/
theorem account_foldl_apply {ops : List Op} : ∀ {s : Inner}, s.ParksAt c →
    (∀ ops₁, ops₁ <+: ops →
      (ops₁.foldl (apply ord) s).tail.stray.entries.length < MAX_STRAY_HITS) →
    (ops.foldl (apply ord) s).account c
      = replay (s.account c) (ops.filterMap (Op.mark s.inst c)) := by
  induction ops with
  | nil => intro s _ _; rfl
  | cons o ops ih =>
    intro s hp hroom
    have hsafe : s.Safe c := .inr (hroom [] List.nil_prefix)
    have hrest : ∀ ops₁, ops₁ <+: ops → ((ops₁.foldl (apply ord)
        (apply ord s o)).tail.stray.entries.length < MAX_STRAY_HITS) :=
      fun ops₁ h ↦ hroom (o :: ops₁) (List.cons_prefix_cons.mpr ⟨rfl, h⟩)
    rw [List.foldl_cons, ih (parksAt_apply ord hp o) hrest, apply_inst,
      account_apply ord hp hsafe, filterMap_cons_toList, CounterLog.replay_append]

/-- An entry is known by its account. -/
theorem find_of_account {s : Inner} {b : Body} {h oh : Int64}
    (hacc : s.account c = ⟨true, ({b}, h, oh)⟩) :
    s.find c = some { u := b.1, a := b.2.1, e := b.2.2.1, i := b.2.2.2, h, oh } := by
  cases hfind : s.find c with
  | none =>
    rw [account_of_find_eq_none hfind] at hacc
    exact nomatch congrArg Cell.present hacc
  | some e =>
    rw [account_of_find_eq_some hfind] at hacc
    have htotal : ({e.body}, e.h, e.oh) = (({b}, h, oh) : Books) := congrArg Cell.total hacc
    simp only [Prod.mk.injEq, Multiset.singleton_inj] at htotal
    obtain ⟨rfl, rfl, rfl⟩ := htotal
    rfl

end Inner

/-- **Replay is order-free for hits.** Take a row for a code and any lines that count hits of the
code or are about other codes. Whichever order they are applied in, from a state that knows nothing
of the code and without the parked hits ever reaching their limit, the code ends with the entry of
its row, with all the hits added to the total and those of this instance to its own. -/
theorem replay_order_free (ord : Order) {s : Inner} {c : Bytes} {row : Op} {rest ops : List Op}
    (hfind : s.find c = none) (hstray : s.tail.stray.lookup c = none)
    (hrow : row.IsRow c) (hrest : ∀ o ∈ rest, o.OnlyCounts c) (hops : ops.Perm (row :: rest))
    (hroom : ∀ ops₁, ops₁ <+: ops →
      (ops₁.foldl (apply ord) s).tail.stray.entries.length < MAX_STRAY_HITS) :
    (ops.foldl (apply ord) s).find c = some
      { u := row.u, a := row.a, e := if row.hasE then row.e else 0, i := row.i.toInt32,
        h := Int64.ofInt (row.n.toInt + (rest.map (Op.delta c)).sum),
        oh := Int64.ofInt (row.n.toInt + (rest.map (Op.ownDelta s.inst c)).sum) } := by
  have hparks : s.ParksAt c := fun _ ↦ hfind
  have hstart : s.account c = ⟨false, 0⟩ := by
    rw [Inner.account_of_find_eq_none hfind, hstray]
    rfl
  -- The marks of the lines, in any order: one sets the account, the others only count.
  have hmarks : (ops.filterMap (Op.mark s.inst c)).Perm
      (.set ({row.body}, row.n, row.n) :: rest.filterMap (Op.mark s.inst c)) := by
    have h := hops.filterMap (Op.mark s.inst c)
    rwa [List.filterMap_cons, Op.mark_of_isRow hrow] at h
  have hone := (once_set_cons ({row.body}, row.n, row.n) (isAdd_of_onlyCounts s.inst hrest)).perm hmarks
  have hweight : ({row.body}, row.n, row.n) + weight (rest.filterMap (Op.mark s.inst c))
      = ({row.body}, row.n + Int64.ofInt (rest.map (Op.delta c)).sum,
          row.n + Int64.ofInt (rest.map (Op.ownDelta s.inst c)).sum) := by
    rw [weight_of_onlyCounts s.inst hrest]
    simp
  have hacc := Inner.account_foldl_apply ord hparks hroom
  rw [hstart, hone.replay, hweight] at hacc
  rw [Inner.find_of_account hacc, Int64.ofInt_add, Int64.ofInt_add, Int64.ofInt_toInt]
  rfl

/-- Two hits, from this instance and from another one. -/
def earlyHits : List Op := [{ h := lit "a1", d := 2, i := 10 }, { h := lit "a1", d := 3, i := 11 }]

/-- Their link. -/
def lateRow : Op := { c := lit "a1", u := lit "http://x.y", a := 7, i := 11, n := 4 }

theorem replay_order_free_hitsFirst :
    ((earlyHits ++ [lateRow]).foldl (apply List.length) { inst := 10 }).find (lit "a1")
      = some { u := lit "http://x.y", a := 7, e := 0, i := 11, h := 9, oh := 6 } :=
  @replay_order_free List.length { inst := 10 } (lit "a1") lateRow earlyHits
    (earlyHits ++ [lateRow]) (by decide) (by decide) (by decide) (by decide) (by decide)
    fun ops₁ h ↦ by
      have hall : ∀ ops₁ ∈ (earlyHits ++ [lateRow]).inits, (ops₁.foldl (apply List.length)
          ({ inst := 10 } : Inner)).tail.stray.entries.length < MAX_STRAY_HITS := by
        decide +kernel
      exact hall ops₁ ((List.mem_inits ops₁ _).mpr h)

end Shrt
