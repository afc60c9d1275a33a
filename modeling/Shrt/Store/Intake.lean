import Shrt.Store.Follow
import Shrt.Store.OrderFree

/-!
# What a newcomer takes in

An instance that opens among siblings replays their snapshots, and its first poll reads their logs
from the start. All of it is lines folded into one index, and seen from one code a log of its
counter, as long as the hit lines are about fewer codes than can be parked (`TakesIn`).
-/

namespace Shrt

open CounterLog (Touch Cell replay)

/-- The code whose hits a line counts. -/
def Op.hitCode (o : Op) : Option Bytes := if o.x = [] ∧ o.h ≠ [] then some o.h else none

/-- The codes whose hits a file counts. -/
def hitCodes (content : Bytes) : List Bytes := (replayOps content).filterMap Op.hitCode

/-- The index has taken in some lines: it parks hits of the codes they count, and if these are few,
the cell of each code has been touched as the lines say. -/
structure TakesIn (s : Inner) (ops : List Op) (s' : Inner) : Prop where
  parks : s.Parks → s'.Parks
  stray : ∀ c ∈ s'.tail.stray, c ∈ s.tail.stray ∨ c ∈ ops.filterMap Op.hitCode
  cell : s.Parks → ∀ codes : Finset Bytes, codes.card < MAX_STRAY_HITS →
    (∀ c ∈ s.tail.stray, c ∈ codes) → (∀ c ∈ ops.filterMap Op.hitCode, c ∈ codes) →
    ∀ c, s'.cell c = replay (s.cell c) (ops.filterMap (Op.touch c))

/-- Hits are parked for the codes that lines count, and for no others. -/
theorem mem_stray_apply {ord : Order} {s : Inner} {o : Op} {c : Bytes}
    (h : c ∈ (apply ord s o).tail.stray) : c ∈ s.tail.stray ∨ o.hitCode = some c := by
  rw [apply] at h
  split_ifs at h with hx hh ho
  · exact .inl (AList.mem_erase.mp h).2
  · cases hf : s.find o.h with
    | some e =>
      rw [Inner.applyHit_of_find_eq_some ord hf] at h
      exact .inl h
    | none =>
      rw [Inner.applyHit_of_find_eq_none ord hf] at h
      rcases (AList.mem_insert _).mp h with rfl | h
      · exact .inr (if_pos ⟨not_not.mp hx, hh⟩)
      · obtain ⟨st, hst⟩ := Option.isSome_iff_exists.mp (AList.lookup_isSome.mpr h)
        refine .inl (AList.lookup_isSome.mp ?_)
        rw [lookup_strayRoom hst]
        rfl
  · exact .inl h
  · exact .inl (AList.mem_erase.mp h).2

/-- There is room for more while the parked hits are of few codes. -/
theorem Inner.safe_of_card {s : Inner} {codes : Finset Bytes} (hcard : codes.card < MAX_STRAY_HITS)
    (h : ∀ c ∈ s.tail.stray, c ∈ codes) (c : Bytes) : s.Safe c := by
  have hkeys : s.tail.stray.keys.toFinset ⊆ codes := fun c hc ↦
    h c (AList.mem_keys.mpr (List.mem_toFinset.mp hc))
  have hlen : s.tail.stray.keys.toFinset.card = s.tail.stray.entries.length := by
    rw [List.toFinset_card_of_nodup s.tail.stray.keys_nodup, AList.keys, List.keys, List.length_map]
  refine .inr ?_
  rw [← hlen]
  exact (Finset.card_le_card hkeys).trans_lt hcard

namespace TakesIn

variable {s s' s'' : Inner} {ops ops' : List Op}

theorem refl (s : Inner) : TakesIn s [] s := ⟨id, fun _ h ↦ .inl h, fun _ _ _ _ _ _ ↦ rfl⟩

theorem trans (h : TakesIn s ops s') (h' : TakesIn s' ops' s'') : TakesIn s (ops ++ ops') s'' := by
  refine ⟨fun hp ↦ h'.parks (h.parks hp), fun c hc ↦ ?_, fun hp codes hcard hs hops c ↦ ?_⟩
  · rw [List.filterMap_append]
    rcases h'.stray c hc with hc | hc
    · exact (h.stray c hc).imp_right (List.mem_append_left _)
    · exact .inr (List.mem_append_right _ hc)
  · rw [List.filterMap_append] at hops
    have hops₁ : ∀ c ∈ ops.filterMap Op.hitCode, c ∈ codes :=
      fun c hc ↦ hops c (List.mem_append_left _ hc)
    have hs' : ∀ c ∈ s'.tail.stray, c ∈ codes := fun c hc ↦ (h.stray c hc).elim (hs c) (hops₁ c)
    rw [h'.cell (h.parks hp) codes hcard hs' (fun c hc ↦ hops c (List.mem_append_right _ hc)),
      h.cell hp codes hcard hs hops₁, List.filterMap_append, CounterLog.replay_append]

/-- The readers are of no concern. -/
theorem congr (h : TakesIn s ops s') (hshards : s''.shards = s'.shards)
    (hstray : s''.tail.stray = s'.tail.stray) : TakesIn s ops s'' := by
  have hfind : ∀ c, s''.find c = s'.find c := fun c ↦ by rw [Inner.find, hshards, Inner.find]
  refine ⟨fun hp c hc ↦ ?_, fun c hc ↦ ?_, fun hp codes hcard hs hops c ↦ ?_⟩
  · rw [hstray] at hc
    rw [hfind]
    exact h.parks hp hc
  · rw [hstray] at hc
    exact h.stray c hc
  · rw [← h.cell hp codes hcard hs hops c, Inner.cell, Inner.cell, hfind, hstray]

end TakesIn

/-- **One line.** -/
theorem takesIn_apply (ord : Order) (s : Inner) (o : Op) : TakesIn s [o] (apply ord s o) := by
  refine ⟨fun hp ↦ Inner.parks_apply ord hp o, fun c hc ↦ ?_, fun hp codes hcard hs _ c ↦ ?_⟩
  · rw [filterMap_cons_toList, List.filterMap_nil, List.append_nil, Option.mem_toList]
    exact mem_stray_apply hc
  · rw [filterMap_cons_toList, List.filterMap_nil, List.append_nil]
    exact Inner.cell_apply ord hp (Inner.safe_of_card hcard hs c) o

theorem takesIn_foldl_apply (ord : Order) (ops : List Op) : ∀ s : Inner,
    TakesIn s ops (ops.foldl (apply ord) s) := by
  induction ops with
  | nil => exact TakesIn.refl
  | cons o ops ih => exact fun s ↦ (takesIn_apply ord s o).trans (ih (apply ord s o))

/-! ## Opening -/

theorem takesIn_openSibling (ord : Order) (d : Dir) (s : Inner) (j : InstanceId) :
    TakesIn s (replayOps (d.content (snapName j))) (openSibling ord d s (logName j)) := by
  have h := takesIn_foldl_apply ord (replayOps (d.content (snapOf (logName j)))) s
  rw [← replayInto_eq] at h
  rw [← snapOf_logName]
  exact h.congr rfl rfl

theorem takesIn_foldl_openSibling (ord : Order) (d : Dir) (js : List InstanceId) : ∀ s : Inner,
    TakesIn s (js.flatMap fun j ↦ replayOps (d.content (snapName j)))
      ((js.map logName).foldl (openSibling ord d) s) := by
  induction js with
  | nil => exact TakesIn.refl
  | cons j js ih => exact fun s ↦ (takesIn_openSibling ord d s j).trans (ih _)

/-! ## The first poll -/

/-- A log that is read from the start. -/
theorem takesIn_readTail (ord : Order) (d : Dir) {s : Inner} {j : InstanceId} (h : s.reader j = {}) :
    TakesIn s (replayOps (d.content (logName j))) (readTail ord d s (logName j)) ∧
      ∀ i, i ≠ j → (readTail ord d s (logName j)).reader i = s.reader i := by
  have hlines : ((s.reader j).readNew (d.content (logName j))).1
      = replayFile (d.content (logName j)) := by
    rw [h, TailReader.readNew_eq TailReader.sound_default (Nat.zero_le _)]
    rfl
  have hset : TakesIn s []
      (s.setReader (logName j) ((s.reader j).readNew (d.content (logName j))).2) :=
    (TakesIn.refl s).congr rfl rfl
  rw [readTail_eq, hlines]
  constructor
  · rw [foldl_applyLine]
    exact hset.trans (takesIn_foldl_apply ord _ _)
  · intro i hi
    rw [Inner.reader, foldl_applyLine_keeps (f := fun s ↦ s.tail.readers) (apply_readers ord)]
    exact (Inner.reader_setReader ..).trans (if_neg hi)

theorem takesIn_foldl_readTail (ord : Order) (d : Dir) {js : List InstanceId} (hjs : js.Nodup) :
    ∀ {s : Inner}, (∀ j ∈ js, s.reader j = {}) →
      TakesIn s (js.flatMap fun j ↦ replayOps (d.content (logName j)))
        ((js.map logName).foldl (readTail ord d) s) := by
  induction js with
  | nil => exact fun {s} _ ↦ TakesIn.refl s
  | cons j js ih =>
    intro s h
    rw [List.nodup_cons] at hjs
    obtain ⟨htakes, hreader⟩ := takesIn_readTail ord d (h j List.mem_cons_self)
    refine htakes.trans (ih hjs.2 fun i hi ↦ ?_)
    rw [hreader i fun heq ↦ hjs.1 (heq ▸ hi)]
    exact h i (List.mem_cons_of_mem _ hi)

theorem addReaders_keeps {names : List Bytes} : ∀ {s : Inner},
    (addReaders s names).shards = s.shards ∧ (addReaders s names).tail.stray = s.tail.stray ∧
      ∀ j, (addReaders s names).reader j = s.reader j := by
  induction names with
  | nil => exact ⟨rfl, rfl, fun _ ↦ rfl⟩
  | cons n names ih =>
    intro s
    rw [addReaders, List.foldl_cons]
    split_ifs with hmem
    · exact ih
    · obtain ⟨hshards, hstray, hreader⟩ := @ih
        { s with tail := { s.tail with readers := s.tail.readers.insert n {} } }
      refine ⟨hshards, hstray, fun j ↦ (hreader j).trans ?_⟩
      rw [Inner.reader, Inner.reader]
      by_cases hj : logName j = n
      · rw [hj, AList.lookup_insert, AList.lookup_eq_none.mpr hmem]
        rfl
      · rw [AList.lookup_insert_ne hj]

/-- A poll by an instance that has read nothing takes in the logs, each of them once. -/
theorem takesIn_pollLocked {d : Dir} {s : Inner} (hs : s.FollowsSiblings)
    (hd : ∀ n ∈ d, isShardLog n = true → ∃ j, n = logName j) (hnew : ∀ j, s.reader j = {})
    (ord : Order) (now : Int64) : ∃ js : List InstanceId, js.Nodup ∧ (∀ j ∈ js, j ≠ s.inst) ∧
      (∀ j, j ≠ s.inst → logName j ∈ d → j ∈ js) ∧
      TakesIn s (js.flatMap fun j ↦ replayOps (d.content (logName j))) (pollLocked ord d s now) := by
  obtain ⟨js, hnodup, hne, hall, heq⟩ := pollLocked_eq hs hd ord now
  obtain ⟨hshards, hstray, hreader⟩ := @addReaders_keeps (shardFiles d (logName s.inst)) s
  have hadd : TakesIn s [] (addReaders s (shardFiles d (logName s.inst))) :=
    (TakesIn.refl s).congr hshards hstray
  have hread := hadd.trans (takesIn_foldl_readTail ord d hnodup fun j _ ↦ (hreader j).trans (hnew j))
  refine ⟨js, hnodup, hne, hall, ?_⟩
  rw [heq]
  exact hread.congr rfl rfl

/-! ## A newcomer -/

theorem filterMap_touch_flatMap (c : Bytes) (file : InstanceId → Bytes) (js : List InstanceId) :
    (js.flatMap fun j ↦ replayOps (file j)).filterMap (Op.touch c)
      = js.flatMap fun j ↦ touches c (file j) := List.filterMap_flatMap ..

theorem mem_filterMap_hitCode {file : InstanceId → Bytes} {js : List InstanceId} {x : Bytes}
    (hx : x ∈ (js.flatMap fun j ↦ replayOps (file j)).filterMap Op.hitCode) :
    ∃ j, x ∈ hitCodes (file j) := by
  rw [List.filterMap_flatMap] at hx
  obtain ⟨j, -, hx⟩ := List.mem_flatMap.mp hx
  exact ⟨j, hx⟩

theorem Store.inner_pollTails {st : Store} (haof : st.inner.aof.isNone = false) (ord : Order)
    (now : Int64) : (st.pollTails ord now).inner = pollLocked ord st.dir st.inner now := by
  rw [Store.pollTails, if_neg (Bool.eq_false_iff.mp haof)]
  rfl

/-- **A newcomer** opens with no files of its own and polls: it takes in the snapshots of its
siblings, and then their logs. -/
theorem cell_newcomer {d : Dir} {f : InstanceId}
    (hd : ∀ n ∈ d, isShardLog n = true → ∃ j, n = logName j) (hlog : d.content (logName f) = [])
    (hsnap : d.content (snapName f) = []) {codes : Finset Bytes}
    (hcard : codes.card < MAX_STRAY_HITS)
    (hcodes : ∀ j, ∀ x ∈ hitCodes (d.content (snapName j)) ++ hitCodes (d.content (logName j)),
      x ∈ codes) (ord ord' : Order) (now : Int64) :
    ∃ js js' : List InstanceId, js.Nodup ∧ js'.Nodup ∧
      (∀ j, j ≠ f → logName j ∈ d → j ∈ js ∧ j ∈ js') ∧
      ∀ c, ((openStore ord d f).pollTails ord' now).inner.cell c = replay ⟨false, 0⟩
        ((js.flatMap fun j ↦ touches c (d.content (snapName j)))
          ++ js'.flatMap fun j ↦ touches c (d.content (logName j))) := by
  obtain ⟨js, hnodup, hjs, hopen⟩ := openStore_eq ord hd hlog hsnap
  obtain ⟨js₀, hjs₀, hdir, hopens⟩ := opens_openStore ord hd hlog hsnap
  have hsiblings : (openStore ord d f).inner.FollowsSiblings := by
    intro n hn
    rcases hopens.mem n hn with hn | ⟨j, hj, rfl⟩
    · exact absurd hn (AList.notMem_empty n)
    · exact ⟨j, hopens.inst.symm ▸ ((hjs₀ j).mp hj).1, rfl⟩
  obtain ⟨js', hnodup', -, hall, htakes'⟩ :=
    takesIn_pollLocked hsiblings (hdir ▸ names_create hd) hopens.reader ord' now
  have htakes := takesIn_foldl_openSibling ord (d.create (logName f)) js
    { aof := some { path := logName f }, inst := f }
  rw [← hopen] at htakes
  have hboth := htakes.trans htakes'
  simp only [hdir, Dir.content_create] at hboth
  refine ⟨js, js', hnodup, hnodup', fun j hj hmem ↦ ⟨(hjs j).mpr ⟨hj, hmem⟩, ?_⟩, fun c ↦ ?_⟩
  · exact hall j (hopens.inst.symm ▸ hj) ((AList.mem_insert _).mpr (.inr hmem))
  · have hcell := hboth.cell (fun hx ↦ absurd hx (AList.notMem_empty _)) codes hcard
      (fun x hx ↦ absurd hx (AList.notMem_empty x)) (fun x hx ↦ ?_) c
    · have hfresh : ({ aof := some { path := logName f }, inst := f } : Inner).cell c = ⟨false, 0⟩ :=
        rfl
      have haof : (openStore ord d f).inner.aof.isNone = false := by
        rw [hopens.aof]
        rfl
      rw [Store.inner_pollTails haof, hdir, hcell, hfresh, List.filterMap_append,
        filterMap_touch_flatMap, filterMap_touch_flatMap]
    · rw [List.filterMap_append] at hx
      rcases List.mem_append.mp hx with hx | hx
      · obtain ⟨i, hx⟩ := mem_filterMap_hitCode hx
        exact hcodes i x (List.mem_append_left _ hx)
      · obtain ⟨i, hx⟩ := mem_filterMap_hitCode hx
        exact hcodes i x (List.mem_append_right _ hx)

end Shrt
