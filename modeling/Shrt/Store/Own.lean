import Shrt.Store.Links

/-!
# The lines and entries of one instance

An instance writes rows and hits under its own id, for codes that pass `code_ok`. Folding such lines
into an index leaves an index of own links (`Inner.OwnIndex`), in which every entry belongs to the
instance and every hit it counts is its own. The lines a flush and a snapshot are made of are again
of this kind (`hitLines_eq_logText`, `rowLines_eq_logText`).
-/

namespace Shrt

/-! ## Generated codes -/

private theorem codeByte_alphabet : ∀ n : Fin MAX_INSTANCES,
    codeByte (ALPHABET.getD n 0) = true := by
  decide +kernel

/-- Generated codes pass `code_ok`. -/
theorem codeOk_genCode (inst : InstanceId) (r : Draw) : codeOk (genCode inst r) = true := by
  have hlen : (genCode inst r).length ≤ 64 := by
    rw [genCode, List.length_cons, List.length_ofFn]
    decide
  have hall : ∀ b ∈ genCode inst r, codeByte b = true := by
    intro b hb
    rw [genCode, List.mem_cons, List.mem_ofFn] at hb
    rcases hb with rfl | ⟨k, rfl⟩
    · exact codeByte_alphabet inst
    · have hlt : (r k % UInt64.ofNat MAX_INSTANCES).toNat < MAX_INSTANCES := by
        rw [UInt64.toNat_mod]
        exact Nat.mod_lt _ (by decide)
      exact codeByte_alphabet ⟨_, hlt⟩
  simp only [codeOk, Bool.and_eq_true, List.all_eq_true, decide_eq_true_eq]
  exact ⟨⟨rfl, hlen⟩, hall⟩

/-- The retry loop ends with a code that is free. -/
theorem freshCode_spec {sh : Shards} {inst : InstanceId} {rng rng' : List Draw} {c : Bytes}
    (h : freshCode sh inst rng = some (c, rng')) : sh.find c = none ∧ codeOk c = true := by
  induction rng with
  | nil => exact absurd h (by simp [freshCode])
  | cons r rs ih =>
    rw [freshCode] at h
    split_ifs at h with htaken
    · exact ih h
    · obtain ⟨rfl, -⟩ := Prod.mk.inj (Option.some.inj h)
      exact ⟨by simpa using htaken, codeOk_genCode inst r⟩

/-- A picked code is free, and admitted when the alias is. -/
theorem Store.pickCode_spec {st : Store} {al : Option Code} {rng : List Draw} {c : Bytes}
    (h : st.pickCode (al.map Subtype.val) rng = some (some c)) :
    st.inner.find c = none ∧ codeOk c = true := by
  cases al with
  | some code =>
    rw [Option.map_some, pickCode, Option.some.injEq] at h
    split_ifs at h with htaken
    obtain rfl := Option.some.inj h
    exact ⟨by simpa using htaken, code.2⟩
  | none =>
    obtain ⟨p, hp, hc⟩ := Option.map_eq_some_iff.mp h
    obtain rfl := Option.some.inj hc
    exact freshCode_spec hp

/-! ## Instance ids in their two widths -/

theorem toInt64_instInt : ∀ i : InstanceId, (instInt i).toInt64 = instLong i := by decide

theorem toInt32_instLong : ∀ i : InstanceId, (instLong i).toInt32 = instInt i := by decide

/-! ## An index of own links -/

/-- All entries belong to the instance, under admitted codes, and all hits are its own. -/
structure Inner.OwnIndex (s : Inner) : Prop where
  codeOk : ∀ {c e}, s.find c = some e → codeOk c = true
  owner : ∀ {c e}, s.find c = some e → e.i = instInt s.inst
  hits : ∀ {c e}, s.find c = some e → e.h = e.oh
  stray : ∀ {c st}, s.tail.stray.lookup c = some st → st.t = st.o

theorem apply_row (ord : Order) (s : Inner) (c : Code) (u : Bytes) (a e i n : Int64) :
    apply ord s (LogOp.row c u a e i n).toOp = applyRow s (LogOp.row c u a e i n).toOp := by
  simp [apply, LogOp.toOp, c.ne_nil]

theorem apply_hit (ord : Order) (s : Inner) (c : Code) (d i : Int64) :
    apply ord s (LogOp.hit c d i).toOp = applyHit ord s c.1 d (instInt s.inst = i.toInt32) := by
  rw [apply, if_neg (by simp [LogOp.toOp]), if_pos (by simp [LogOp.toOp, c.ne_nil])]
  rfl

theorem apply_del (ord : Order) (s : Inner) (c : Code) :
    apply ord s (LogOp.del c).toOp = applyDel s c.1 := by
  simp [apply, LogOp.toOp, c.ne_nil]

/-- Making room only drops parked hits. -/
theorem lookup_strayRoom {ord : Order} {m : AList fun _ : Bytes ↦ StrayHit} {c : Bytes}
    {st : StrayHit} (h : (strayRoom ord m).lookup c = some st) : m.lookup c = some st := by
  rw [strayRoom] at h
  split_ifs at h
  · split at h
    · rename_i c' _ _ _
      by_cases hc : c = c'
      · rw [hc, AList.lookup_erase] at h
        exact absurd h (by simp)
      · rwa [AList.lookup_erase_ne hc] at h
    · exact h
  · exact h

namespace Inner.OwnIndex

variable {s : Inner}

theorem put (hs : s.OwnIndex) {c : Bytes} {e : Entry} (hc : Shrt.codeOk c = true)
    (hi : e.i = instInt s.inst) (hh : e.h = e.oh) : (s.put c e).OwnIndex where
  codeOk := by
    intro c' e' h
    rw [Inner.find_put] at h
    split_ifs at h with heq
    · rw [heq]
      exact hc
    · exact hs.codeOk h
  owner := by
    intro c' e' h
    rw [Inner.find_put] at h
    split_ifs at h with heq
    · rw [← Option.some.inj h]
      exact hi
    · exact hs.owner h
  hits := by
    intro c' e' h
    rw [Inner.find_put] at h
    split_ifs at h with heq
    · rw [← Option.some.inj h]
      exact hh
    · exact hs.hits h
  stray := hs.stray

theorem erase (hs : s.OwnIndex) (c : Bytes) : (s.erase c).OwnIndex := by
  have hfind : ∀ {c' e}, (s.erase c).find c' = some e → s.find c' = some e := by
    intro c' e h
    rw [Inner.find_erase] at h
    split_ifs at h
    exact h
  exact { codeOk := fun h ↦ hs.codeOk (hfind h), owner := fun h ↦ hs.owner (hfind h),
          hits := fun h ↦ hs.hits (hfind h), stray := hs.stray }

theorem withStray (hs : s.OwnIndex) {m : AList fun _ : Bytes ↦ StrayHit}
    (hm : ∀ {c st}, m.lookup c = some st → st.t = st.o) :
    OwnIndex { s with tail := { s.tail with stray := m } } where
  codeOk := hs.codeOk
  owner := hs.owner
  hits := hs.hits
  stray := hm

theorem stray_getD (hs : s.OwnIndex) (c : Bytes) :
    ((s.tail.stray.lookup c).getD {}).t = ((s.tail.stray.lookup c).getD {}).o := by
  cases h : s.tail.stray.lookup c with
  | none => rfl
  | some st => exact hs.stray h

theorem stray_erase (hs : s.OwnIndex) (c : Bytes) {c' : Bytes} {st : StrayHit}
    (h : (s.tail.stray.erase c).lookup c' = some st) : st.t = st.o := by
  by_cases hc : c' = c
  · rw [hc, AList.lookup_erase] at h
    exact absurd h (by simp)
  · rw [AList.lookup_erase_ne hc] at h
    exact hs.stray h

/-- **Own lines keep the index own.** -/
theorem apply (hs : s.OwnIndex) (ord : Order) {op : LogOp} (hop : op.Own s.inst) :
    (Shrt.apply ord s op.toOp).OwnIndex := by
  cases op with
  | row c u a e i n =>
    rw [apply_row]
    have hput : (s.put c.1 ((LogOp.row c u a e i n).toOp.entry
        ((s.tail.stray.lookup c.1).getD {}))).OwnIndex := by
      refine hs.put c.2 ?_ ?_
      · have hi : i = instLong s.inst := hop
        rw [← toInt32_instLong, ← hi]
        rfl
      · rw [Op.entry, hs.stray_getD c.1]
    exact hput.withStray fun h ↦ hs.stray_erase c.1 h
  | hit c d i =>
    have hi : i = instLong s.inst := hop
    have hown : decide (instInt s.inst = i.toInt32) = true := by
      rw [hi, toInt32_instLong, decide_eq_true rfl]
    rw [apply_hit, hown, applyHit]
    cases hf : s.find c.1 with
    | some e =>
      have howner : e.i = instInt s.inst := hs.owner hf
      refine hs.put (e := e.addHits d true) c.2 howner ?_
      rw [Entry.addHits, hs.hits hf, if_pos rfl]
    | none =>
      refine hs.withStray fun {c' st} h ↦ ?_
      by_cases hc : c' = c.1
      · rw [hc, AList.lookup_insert] at h
        rw [← Option.some.inj h, StrayHit.addHits, if_pos rfl]
        cases hr : (strayRoom ord s.tail.stray).lookup c.1 with
        | none => rfl
        | some st' =>
          have := hs.stray (lookup_strayRoom hr)
          rw [Option.getD_some, this]
      · rw [AList.lookup_insert_ne hc] at h
        exact hs.stray (lookup_strayRoom h)
  | del c =>
    rw [apply_del]
    exact (hs.erase c.1).withStray fun h ↦ hs.stray_erase c.1 h

theorem foldl_apply (ord : Order) {ops : List LogOp} : ∀ {s : Inner}, s.OwnIndex →
    (∀ op ∈ ops, op.Own s.inst) → ((ops.map LogOp.toOp).foldl (Shrt.apply ord) s).OwnIndex := by
  induction ops with
  | nil => intro s hs _; exact hs
  | cons op ops ih =>
    intro s hs hops
    refine ih (hs.apply ord (hops op List.mem_cons_self)) fun op' h ↦ ?_
    rw [apply_inst]
    exact hops op' (List.mem_cons_of_mem _ h)

theorem replayInto (hs : s.OwnIndex) (ord : Order) {content : Bytes}
    (h : ReplaysOwn s.inst content) : (Shrt.replayInto ord s content).OwnIndex := by
  obtain ⟨ops, hops, hc⟩ := h
  rw [replayInto_eq, hc]
  exact foldl_apply ord hs hops

end Inner.OwnIndex

/-! ## The lines of a flush and of a snapshot -/

/-- The operation of one pending delta. -/
def hitOp (inst : InstanceId) (p : Bytes × Int64) : Op :=
  { h := p.1, d := p.2, i := instLong inst }

/-- The hit lines of pending deltas. -/
theorem hitLines_eq_logText (inst : InstanceId) {ds : List (Bytes × Int64)}
    (h : ∀ p ∈ ds, codeOk p.1 = true) :
    Store.hitLines inst ds
      = logText (ds.pmap (fun p hp ↦ LogOp.hit ⟨p.1, hp⟩ p.2 (instLong inst)) h) := by
  rw [Store.hitLines, logText, List.map_pmap]
  congr 1
  exact (List.pmap_eq_map (p := fun p : Bytes × Int64 ↦ codeOk p.1 = true) h).symm

theorem isLog_hitLines (inst : InstanceId) {ds : List (Bytes × Int64)}
    (h : ∀ p ∈ ds, codeOk p.1 = true) : IsLog inst (Store.hitLines inst ds) := by
  rw [hitLines_eq_logText inst h]
  refine isLog_logText fun op hop ↦ ?_
  obtain ⟨p, hp, rfl⟩ := List.mem_pmap.mp hop
  rfl

theorem replayOps_hitLines (inst : InstanceId) {ds : List (Bytes × Int64)}
    (h : ∀ p ∈ ds, codeOk p.1 = true) :
    replayOps (Store.hitLines inst ds) = ds.map (hitOp inst) := by
  rw [hitLines_eq_logText inst h, replayOps_logText, List.map_pmap]
  exact List.pmap_eq_map (p := fun p : Bytes × Int64 ↦ codeOk p.1 = true) (f := hitOp inst) h

/-- Hit lines are about no link. -/
theorem writesOf_hitLines (inst : InstanceId) {ds : List (Bytes × Int64)}
    (h : ∀ p ∈ ds, codeOk p.1 = true) : writesOf (Store.hitLines inst ds) = [] := by
  rw [writesOf, replayOps_hitLines inst h, List.flatMap_map]
  refine List.flatMap_eq_nil_iff.mpr fun p hp ↦ ?_
  exact writes_hit ⟨p.1, h p hp⟩ p.2 (instLong inst)

/-- The row lines of a snapshot. -/
def rowLines (rows : List (Bytes × Entry)) : Bytes :=
  Framing.frame NL (rows.map fun p ↦ rowLine p.1 p.2.u p.2.a p.2.e p.2.i.toInt64 p.2.oh)

/-- The operation of one row of a snapshot. -/
def rowOp (p : Bytes × Entry) : Op :=
  { c := p.1, u := p.2.u, a := p.2.a, e := p.2.e, i := p.2.i.toInt64, n := p.2.oh,
    hasE := p.2.e ≠ 0 }

theorem rowLines_eq_logText {rows : List (Bytes × Entry)} (h : ∀ p ∈ rows, codeOk p.1 = true) :
    rowLines rows = logText (rows.pmap
      (fun p hp ↦ LogOp.row ⟨p.1, hp⟩ p.2.u p.2.a p.2.e p.2.i.toInt64 p.2.oh) h) := by
  rw [rowLines, logText, List.map_pmap]
  congr 1
  exact (List.pmap_eq_map (p := fun p : Bytes × Entry ↦ codeOk p.1 = true) h).symm

theorem isLog_rowLines {inst : InstanceId} {rows : List (Bytes × Entry)}
    (h : ∀ p ∈ rows, codeOk p.1 = true) (hi : ∀ p ∈ rows, p.2.i = instInt inst) :
    IsLog inst (rowLines rows) := by
  rw [rowLines_eq_logText h]
  refine isLog_logText fun op hop ↦ ?_
  obtain ⟨p, hp, rfl⟩ := List.mem_pmap.mp hop
  rw [LogOp.Own, hi p hp, toInt64_instInt]

theorem replayOps_rowLines {rows : List (Bytes × Entry)} (h : ∀ p ∈ rows, codeOk p.1 = true) :
    replayOps (rowLines rows) = rows.map rowOp := by
  rw [rowLines_eq_logText h, replayOps_logText, List.map_pmap]
  exact List.pmap_eq_map (p := fun p : Bytes × Entry ↦ codeOk p.1 = true) (f := rowOp) h

/-- Rows put the links of their entries. -/
theorem writesOf_rowLines {rows : List (Bytes × Entry)} (h : ∀ p ∈ rows, codeOk p.1 = true) :
    writesOf (rowLines rows) = LastWrite.puts (rows.map fun p ↦ (p.1, p.2.link)) := by
  rw [writesOf, replayOps_rowLines h, List.flatMap_map, LastWrite.puts, List.map_map,
    List.map_eq_flatMap]
  refine List.flatMap_congr fun p hp ↦ ?_
  refine (writes_row ⟨p.1, h p hp⟩ p.2.u p.2.a p.2.e p.2.i.toInt64 p.2.oh).trans ?_
  rw [Int32.toInt32_toInt64]
  rfl

end Shrt
