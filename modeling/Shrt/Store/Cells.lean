import Shrt.Store.Solo
import Shrt.Store.Touches

/-!
# The index, one code at a time

Seen from one code, the index is a `CounterLog.Cell`: what the entry says, or the hits parked for a
code without one. Folding a line into the index touches the account of the code the line is about
and no other, except that parked hits are dropped when too many codes have some. A code none of
whose hits are parked is not concerned by that.

The account of a code holds its total hits, those of this instance, and what else the entry says;
most results are about the total hits alone, the `cell` of the code.
-/

namespace Shrt

open CounterLog (Touch Cell replay Settled)

/-! ## Accounts and cells -/

/-- What an entry says apart from its hits: url, creation time, deadline and owner. -/
abbrev Body := Bytes × Int64 × Int64 × Int32

/-- The rows that a counter was set by, the total hits, and those of this instance. -/
abbrev Books := Multiset Body × Int64 × Int64

/-- The total hits. -/
def Books.hits : Books →+ Int64 :=
  (AddMonoidHom.fst Int64 Int64).comp (AddMonoidHom.snd (Multiset Body) (Int64 × Int64))

def Entry.body (e : Entry) : Body := (e.u, e.a, e.e, e.i)

def Op.body (o : Op) : Body := (o.u, o.a, if o.hasE then o.e else 0, o.i.toInt32)

/-- What a line does to the account of a code, on an instance. -/
def Op.mark (inst : InstanceId) (c : Bytes) (o : Op) : Option (Touch Books) :=
  (o.touch c).map fun
    | .add d => .add (0, d, if instInt inst = o.i.toInt32 then d else 0)
    | .set n => .set ({o.body}, n, n)
    | .del => .del

/-- Seen from the total hits, the mark of a line is its touch. -/
theorem Op.map_mark (inst : InstanceId) (c : Bytes) (o : Op) :
    (o.mark inst c).map (Touch.map Books.hits) = o.touch c := by
  rw [Op.mark, Option.map_map]
  refine (Option.map_congr fun t _ ↦ ?_).trans Option.map_id'
  cases t <;> rfl

namespace Inner

/-- The account of a code: what its entry says, or the hits parked for it. -/
def account (s : Inner) (c : Bytes) : Cell Books := match s.find c with
  | some e => ⟨true, ({e.body}, e.h, e.oh)⟩
  | none =>
    let st := (s.tail.stray.lookup c).getD {}
    ⟨false, (0, st.t, st.o)⟩

/-- The hits of a code: those of its entry, or those parked for it. -/
def cell (s : Inner) (c : Bytes) : Cell Int64 := match s.find c with
  | some e => ⟨true, e.h⟩
  | none => ⟨false, ((s.tail.stray.lookup c).getD {}).t⟩

/-- Hits are parked for the code only while it has no entry. -/
def ParksAt (s : Inner) (c : Bytes) : Prop := c ∈ s.tail.stray → s.find c = none

/-- Hits are parked only for codes without an entry. -/
def Parks (s : Inner) : Prop := ∀ {c}, c ∈ s.tail.stray → s.find c = none

/-- The hits of a code are safe: none are parked, or there is room for more. -/
def Safe (s : Inner) (c : Bytes) : Prop :=
  s.tail.stray.lookup c = none ∨ s.tail.stray.entries.length < MAX_STRAY_HITS

variable {s : Inner} {c : Bytes} (ord : Order)

theorem cell_of_find_eq_some {e : Entry} (h : s.find c = some e) : s.cell c = ⟨true, e.h⟩ := by
  rw [cell, h]

theorem cell_of_find_eq_none (h : s.find c = none) :
    s.cell c = ⟨false, ((s.tail.stray.lookup c).getD {}).t⟩ := by
  rw [cell, h]

theorem find_of_cell_present {n : Int64} (h : s.cell c = ⟨true, n⟩) :
    ∃ e, s.find c = some e ∧ e.h = n := by
  cases hfind : s.find c with
  | none =>
    rw [cell_of_find_eq_none hfind] at h
    exact nomatch congrArg Cell.present h
  | some e =>
    rw [cell_of_find_eq_some hfind] at h
    exact ⟨e, rfl, congrArg Cell.total h⟩

theorem map_account (s : Inner) (c : Bytes) : (s.account c).map Books.hits = s.cell c := by
  rw [account, cell]
  cases s.find c <;> rfl

theorem lookup_strayRoom_of_safe (h : s.Safe c) :
    (strayRoom ord s.tail.stray).lookup c = s.tail.stray.lookup c := by
  rcases h with h | h
  · rw [h]
    refine Option.eq_none_iff_forall_ne_some.mpr fun st hst ↦ ?_
    rw [lookup_strayRoom hst] at h
    exact nomatch h
  · rw [strayRoom, if_neg (not_le.mpr h)]

/-! ## One line -/

theorem account_of_find_eq_some {e : Entry} (h : s.find c = some e) :
    s.account c = ⟨true, ({e.body}, e.h, e.oh)⟩ := by
  rw [account, h]

theorem account_of_find_eq_none (h : s.find c = none) : s.account c
    = ⟨false, (0, ((s.tail.stray.lookup c).getD {}).t, ((s.tail.stray.lookup c).getD {}).o)⟩ := by
  rw [account, h]

theorem account_congr {s' : Inner} (hf : s'.find c = s.find c)
    (hl : s'.tail.stray.lookup c = s.tail.stray.lookup c) : s'.account c = s.account c := by
  rw [account, hf, hl, account]

theorem account_applyDel (x : Bytes) : (applyDel s x).account c
    = if x = c then ⟨false, 0⟩ else s.account c := by
  have hfind : (applyDel s x).find c = if c = x then none else s.find c := Inner.find_erase ..
  split_ifs with hc
  · subst hc
    rw [if_pos rfl] at hfind
    rw [account_of_find_eq_none hfind]
    simp only [applyDel, AList.lookup_erase, Option.getD_none]
    rfl
  · rw [if_neg (Ne.symm hc)] at hfind
    exact account_congr hfind (AList.lookup_erase_ne (Ne.symm hc))

/-- A hit on a code without an entry is parked. -/
theorem applyHit_of_find_eq_none {h : Bytes} (hf : s.find h = none) (d : Int64) (own : Bool) :
    applyHit ord s h d own = { s with tail := { s.tail with
      stray := (strayRoom ord s.tail.stray).insert h
        ((((strayRoom ord s.tail.stray).lookup h).getD {}).addHits d own) } } := by
  rw [applyHit, hf]

theorem applyHit_of_find_eq_some {h : Bytes} {e : Entry} (hf : s.find h = some e) (d : Int64)
    (own : Bool) : applyHit ord s h d own = s.put h (e.addHits d own) := by
  rw [applyHit, hf]

theorem account_applyHit (hc : s.Safe c) (h : Bytes) (d : Int64) (own : Bool) :
    (applyHit ord s h d own).account c
      = if h = c then (s.account c).touch (.add (0, d, if own then d else 0)) else s.account c := by
  cases hf : s.find h with
  | some e =>
    rw [applyHit_of_find_eq_some ord hf]
    have hfind : (s.put h (e.addHits d own)).find c
        = if c = h then some (e.addHits d own) else s.find c := Inner.find_put ..
    by_cases hch : h = c
    · subst hch
      rw [if_pos rfl] at hfind
      rw [if_pos rfl, account_of_find_eq_some hfind, account_of_find_eq_some hf]
      cases own <;> simp [Entry.addHits, Entry.body, Cell.touch]
    · rw [if_neg (Ne.symm hch)] at hfind
      rw [if_neg hch]
      exact account_congr hfind rfl
  | none =>
    rw [applyHit_of_find_eq_none ord hf]
    have hroom := lookup_strayRoom_of_safe ord hc
    generalize strayRoom ord s.tail.stray = m at hroom
    by_cases hch : h = c
    · subst hch
      rw [if_pos rfl, account_of_find_eq_none hf, ← hroom]
      refine (account_of_find_eq_none (s := { s with tail := { s.tail with
        stray := m.insert h (((m.lookup h).getD {}).addHits d own) } }) hf).trans ?_
      simp only [AList.lookup_insert, Option.getD_some]
      cases own <;> simp [StrayHit.addHits, Cell.touch]
    · rw [if_neg hch]
      exact account_congr rfl ((AList.lookup_insert_ne (Ne.symm hch)).trans hroom)

theorem account_applyRow (hp : s.ParksAt c) (o : Op) : (applyRow s o).account c
    = if o.c = c then (s.account c).touch (.set ({o.body}, o.n, o.n)) else s.account c := by
  have hfind : (applyRow s o).find c
      = if c = o.c then some (o.entry ((s.tail.stray.lookup o.c).getD {})) else s.find c :=
    Inner.find_put ..
  split_ifs with hc
  · subst hc
    rw [if_pos rfl] at hfind
    rw [account_of_find_eq_some hfind]
    cases hf : s.find o.c with
    | some e =>
      have hnone : s.tail.stray.lookup o.c = none :=
        AList.lookup_eq_none.mpr fun hmem ↦ by rw [hp hmem] at hf; exact nomatch hf
      rw [account_of_find_eq_some hf, hnone]
      simp [Op.entry, Op.body, Entry.body, Cell.touch]
    | none =>
      rw [account_of_find_eq_none hf]
      simp [Op.entry, Op.body, Entry.body, Cell.touch]
  · rw [if_neg (Ne.symm hc)] at hfind
    exact account_congr hfind (AList.lookup_erase_ne (Ne.symm hc))

/-- **One line touches one account.** -/
theorem account_apply (hp : s.ParksAt c) (hc : s.Safe c) (o : Op) :
    (apply ord s o).account c = replay (s.account c) (o.mark s.inst c).toList := by
  rw [apply, Op.mark, Op.touch]
  by_cases hx : o.x = []
  · by_cases hh : o.h = []
    · by_cases ho : o.c = []
      · simp [hx, hh, ho]
      · simp only [hx, hh, ho, ne_eq, not_true_eq_false, if_false, not_false_eq_true, true_and,
          account_applyRow hp]
        split_ifs <;> rfl
    · simp only [hx, hh, ne_eq, not_true_eq_false, if_false, not_false_eq_true, if_true,
        account_applyHit ord hc]
      by_cases hc : o.h = c
      · rw [if_pos hc, if_pos hc, Option.map_some]
        simp only [decide_eq_true_eq]
        rfl
      · rw [if_neg hc, if_neg hc]
        rfl
  · simp only [hx, ne_eq, not_false_eq_true, if_true, account_applyDel]
    split_ifs <;> rfl

/-- **One line touches one cell.** -/
theorem cell_apply (hp : s.Parks) (hc : s.Safe c) (o : Op) :
    (apply ord s o).cell c = replay (s.cell c) (o.touch c).toList := by
  rw [← map_account, account_apply ord (fun h ↦ hp h) hc, ← CounterLog.replay_map, map_account,
    ← Op.map_mark s.inst c o]
  cases o.mark s.inst c <;> rfl

/-- Hits go on being parked for a code only while it has no entry. -/
theorem parksAt_apply (hp : s.ParksAt c) (o : Op) : (apply ord s o).ParksAt c := by
  intro hmem
  rw [apply] at hmem ⊢
  split_ifs at hmem ⊢ with hx hh ho
  · obtain ⟨hne, hmem⟩ := AList.mem_erase.mp hmem
    refine (Inner.find_erase s o.x c).trans ?_
    rw [if_neg hne, hp hmem]
  · cases hf : s.find o.h with
    | some e =>
      rw [applyHit_of_find_eq_some ord hf] at hmem ⊢
      have hne : c ≠ o.h := fun heq ↦ by
        rw [heq] at hp hmem
        rw [hp hmem] at hf
        contradiction
      refine (Inner.find_put s o.h c _).trans ?_
      rw [if_neg hne]
      exact hp hmem
    | none =>
      rw [applyHit_of_find_eq_none ord hf] at hmem ⊢
      rcases (AList.mem_insert _).mp hmem with rfl | hmem
      · exact hf
      · refine hp (AList.lookup_isSome.mp ?_)
        obtain ⟨st, hst⟩ := Option.isSome_iff_exists.mp (AList.lookup_isSome.mpr hmem)
        rw [lookup_strayRoom hst]
        rfl
  · exact hp hmem
  · obtain ⟨hne, hmem⟩ := AList.mem_erase.mp hmem
    refine (Inner.find_put s o.c c _).trans ?_
    rw [if_neg hne, hp hmem]

theorem parks_apply (hp : s.Parks) (o : Op) : (apply ord s o).Parks :=
  fun h ↦ parksAt_apply ord (fun h ↦ hp h) o h

/-- No hits of the code are parked by a line that counts only on an entry. -/
theorem lookup_stray_apply (hc : s.tail.stray.lookup c = none) (o : Op)
    (hset : Settled (s.cell c).present (o.touch c).toList) :
    (apply ord s o).tail.stray.lookup c = none := by
  have herase : ∀ x, (s.tail.stray.erase x).lookup c = none := by
    intro x
    by_cases hx : c = x
    · rw [hx, AList.lookup_erase]
    · rw [AList.lookup_erase_ne hx, hc]
  rw [apply]
  by_cases hx : o.x = []
  · by_cases hh : o.h = []
    · rw [if_neg (not_not.mpr hx), if_neg (not_not.mpr hh)]
      split_ifs
      · exact hc
      · exact herase o.c
    · rw [if_neg (not_not.mpr hx), if_pos hh]
      cases hf : s.find o.h with
      | some e =>
        rw [applyHit_of_find_eq_some ord hf]
        exact hc
      | none =>
        -- The hit is parked, so it is about another code.
        have hne : c ≠ o.h := by
          rintro rfl
          rw [Op.touch, if_neg (not_not.mpr hx), if_pos hh, if_pos rfl, cell_of_find_eq_none hf]
            at hset
          exact Bool.false_ne_true hset.1
        rw [applyHit_of_find_eq_none ord hf]
        exact (AList.lookup_insert_ne hne).trans
          ((lookup_strayRoom_of_safe ord (.inl hc)).trans hc)
  · rw [if_pos hx]
    exact herase o.x

/-- **A log that needs no parking touches the cell of its code, whatever else it holds.** -/
theorem cell_foldl_apply {ops : List Op} : ∀ {s : Inner}, s.Parks →
    s.tail.stray.lookup c = none → Settled (s.cell c).present (ops.filterMap (Op.touch c)) →
      (ops.foldl (apply ord) s).Parks ∧ (ops.foldl (apply ord) s).tail.stray.lookup c = none ∧
      (ops.foldl (apply ord) s).cell c = replay (s.cell c) (ops.filterMap (Op.touch c)) := by
  induction ops with
  | nil => intro s hp hc _; exact ⟨hp, hc, rfl⟩
  | cons o ops ih =>
    intro s hp hc hset
    have hsplit := filterMap_cons_toList (Op.touch c) o ops
    rw [hsplit, CounterLog.settled_append] at hset
    have hcell := cell_apply ord hp (.inl hc) o
    rw [hsplit, CounterLog.replay_append, ← hcell]
    rw [← hcell] at hset
    exact ih (parks_apply ord hp o) (lookup_stray_apply ord hc o hset.1) hset.2

end Inner

/-- **What a restart counts.** If the lines about a code need no parking, opening a directory
without siblings leaves the code with what replaying them gives. -/
theorem SoloDir.cell_openStore {inst : InstanceId} {d : Dir} (hd : SoloDir inst d) (ord : Order)
    {c : Bytes} (hset : Settled false
      (touches c (d.content (snapName inst)) ++ touches c (d.content (logName inst)))) :
    (openStore ord d inst).inner.cell c = replay ⟨false, 0⟩
      (touches c (d.content (snapName inst)) ++ touches c (d.content (logName inst))) := by
  obtain ⟨s, hs⟩ : ∃ s : Inner, s = { aof := some { path := logName inst }, inst } := ⟨_, rfl⟩
  have hcell : s.cell c = ⟨false, 0⟩ := by rw [hs]; rfl
  have hp : s.Parks := by
    intro c' h
    rw [hs] at h
    exact absurd h (by simp)
  have hstray : s.tail.stray.lookup c = none := by rw [hs]; rfl
  have htouches : touches c (d.content (snapName inst)) ++ touches c (d.content (logName inst))
      = (replayOps (d.content (snapName inst)) ++ replayOps (d.content (logName inst))).filterMap
        (Op.touch c) := (List.filterMap_append ..).symm
  rw [htouches] at hset ⊢
  rw [hd.openStore_eq, replayInto_eq, replayInto_eq, ← List.foldl_append, ← hs, ← hcell]
  refine (Inner.cell_foldl_apply ord hp hstray ?_).2.2
  rwa [hcell]

end Shrt
