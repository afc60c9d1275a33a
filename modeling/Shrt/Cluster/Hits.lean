import Shrt.Cluster.Steps
import Shrt.Machine.Counters
import Shrt.Store.Intake

/-!
# Hits on the links of siblings

An instance counts the hits on a sibling's link in its own log. Its compaction takes only its own
links over to the snapshot, with their hits, and truncates the log: the hits on other links are
gone.

What an instance has about a code in its files, its buffer and its pending hits is its `books`. As
long as one instance creates the code, all books together are worth the resolves that succeeded,
less what compactions have dropped (`Booked`). An instance that opens when all others have flushed
takes in all books, so it counts the resolves exactly when nothing was dropped
(`hits_of_newcomer_iff`).
-/

namespace Shrt

open CounterLog (Touch Once weight once_set)
open WriteBehind (Counter)
open Replication (Reserved)
open Transition (run Meets Reaches ghost withGhost)

/-! ## Lines that others write about a code -/

/-- The lines of an instance that does not write a code only count hits of it, under its own id. -/
theorem touch_of_silent {i : InstanceId} {b c : Bytes} (hlog : IsLog i b)
    (hsilent : LastWrite.Silent c (writesOf b)) :
    ∀ o ∈ replayOps b, ∀ t ∈ o.touch c, t.isAdd = true ∧ o.i.toInt32 = instInt i := by
  obtain ⟨ops, hops, rfl⟩ := hlog
  rw [writesOf_logText] at hsilent
  rw [replayOps_logText]
  intro o ho t ht
  obtain ⟨op, hop, rfl⟩ := List.mem_map.mp ho
  have hquiet : ∀ w ∈ op.toOp.writes, w.key ≠ c :=
    fun w hw ↦ hsilent w (List.mem_flatMap.mpr ⟨op, hop, hw⟩)
  cases op with
  | row c' u a e i' n =>
    rw [writes_row] at hquiet
    have hne : c'.1 ≠ c := hquiet _ (List.mem_singleton_self _)
    rw [touch_row, if_neg hne] at ht
    exact nomatch ht
  | hit c' d i' =>
    have hi : i' = instLong i := hops _ hop
    rw [touch_hit] at ht
    split_ifs at ht
    · obtain rfl := Option.some.inj ht
      exact ⟨rfl, (congrArg Int64.toInt32 hi).trans (toInt32_instLong i)⟩
    · exact nomatch ht
  | del c' =>
    rw [writes_del] at hquiet
    have hne : c'.1 ≠ c := hquiet _ (List.mem_singleton_self _)
    rw [touch_del, if_neg hne] at ht
    exact nomatch ht

theorem isAdd_of_silent {i : InstanceId} {b c : Bytes} (hlog : IsLog i b)
    (hsilent : LastWrite.Silent c (writesOf b)) : ∀ t ∈ touches c b, t.isAdd = true := by
  intro t ht
  obtain ⟨o, ho, ht⟩ := List.mem_filterMap.mp ht
  exact (touch_of_silent hlog hsilent o ho t ht).1

/-- A line that counts hits of another instance leaves the own hits of a link as they are. -/
theorem oh_apply (ord : Order) {s : Inner} {o : Op} {c : Bytes}
    (h : ∀ t ∈ o.touch c, t.isAdd = true ∧ o.i.toInt32 ≠ instInt s.inst) :
    ((apply ord s o).find c).map Entry.oh = (s.find c).map Entry.oh := by
  rw [Op.touch] at h
  rw [apply]
  by_cases hx : o.x = []
  · rw [if_neg (not_not.mpr hx)] at h ⊢
    by_cases hh : o.h = []
    · rw [if_neg (not_not.mpr hh)] at h ⊢
      by_cases ho : o.c = []
      · rw [if_pos ho]
      · -- A row of the code would not only count.
        have hne : c ≠ o.c := by
          rintro rfl
          rw [if_pos ⟨ho, rfl⟩] at h
          exact Bool.false_ne_true (h _ rfl).1
        rw [if_neg ho]
        exact congrArg _ ((Inner.find_put ..).trans (if_neg hne))
    · rw [if_pos hh] at h ⊢
      cases hf : s.find o.h with
      | none =>
        rw [Inner.applyHit_of_find_eq_none ord hf]
        rfl
      | some e =>
        rw [Inner.applyHit_of_find_eq_some ord hf, Inner.find_put]
        split_ifs with hc
        · rw [if_pos hc.symm] at h
          have hother : ¬ instInt s.inst = o.i.toInt32 := fun heq ↦ (h _ rfl).2 heq.symm
          rw [hc, hf, decide_eq_false hother]
          rfl
        · rfl
  · rw [if_pos hx] at h ⊢
    have hne : c ≠ o.x := by
      rintro rfl
      rw [if_pos rfl] at h
      exact Bool.false_ne_true (h _ rfl).1
    exact congrArg _ ((Inner.find_erase ..).trans (if_neg hne))

theorem oh_foldl_apply (ord : Order) {c : Bytes} {ops : List Op} : ∀ {s : Inner},
    (∀ o ∈ ops, ∀ t ∈ o.touch c, t.isAdd = true ∧ o.i.toInt32 ≠ instInt s.inst) →
    ((ops.foldl (apply ord) s).find c).map Entry.oh = (s.find c).map Entry.oh := by
  induction ops with
  | nil => exact fun _ ↦ rfl
  | cons o ops ih =>
    intro s h
    rw [List.foldl_cons, ih, oh_apply ord (h o List.mem_cons_self)]
    intro o' ho'
    rw [apply_inst]
    exact h o' (List.mem_cons_of_mem _ ho')

/-- The lines that a reader delivers are among those it had yet to deliver. -/
theorem TailReader.filterMap_readNew {t : TailReader} (ht : t.Sound) (content : Bytes) :
    ∀ o ∈ (t.readNew content).1.filterMap parseOp, o ∈ replayOps (t.unread content) := by
  have hpart : t.offset ≤ content.length ∨ (content ++ []).length < t.offset := by
    rw [List.append_nil]
    exact le_or_gt t.offset content.length
  obtain ⟨x, hunread, hlines, -⟩ := readNew_spec ht hpart
  intro o ho
  rw [List.append_nil, List.append_nil] at hunread
  have hcut := replayOps_cut x []
  rw [List.append_nil] at hcut
  rw [hunread, hcut, ← hlines]
  exact List.mem_append_left _ ho

namespace Cluster

variable {s s' : Cluster} {l : Label} {c : Bytes} {i j k : InstanceId} {inner : Inner} {st' : Store}

/-! ## Books -/

/-- The counter of a code at an instance. -/
def counter (s : Cluster) (k : InstanceId) (c : Bytes) : Counter Int64 :=
  (s.nodes k).elim ⟨false, 0, [], none⟩ fun inner ↦ (⟨s.dir, inner⟩ : Store).counter c

/-- What an instance has about the hits of a code: the lines in its files and its buffer, and what
the next flush will write. -/
def books (s : Cluster) (k : InstanceId) (c : Bytes) : List (Touch Int64) :=
  (s.counter k c).files ++ (s.counter k c).todo

theorem counter_eq (h : s.nodes k = some inner) (c : Bytes) :
    s.counter k c = (⟨s.dir, inner⟩ : Store).counter c := by
  rw [counter, h]
  rfl

theorem counter_set_self (s : Cluster) (k : InstanceId) (st : Store) (c : Bytes) :
    (s.set k st).counter k c = st.counter c := counter_eq (nodes_set_self s k st) c

/-- An instance has its own files. -/
theorem counter_set_of_ne (hs : Formed s) (hik : i ≠ k)
    (hlog : st'.dir.content (logName i) = s.log i)
    (hsnap : st'.dir.content (snapName i) = s.snap i) :
    (s.set k st').counter i c = s.counter i c := by
  rw [counter, nodes_set_of_ne s hik, counter]
  cases hi : s.nodes i with
  | none => rfl
  | some inner =>
    have hinst : inner.inst = i := (hs.member hi).inst
    refine Store.counter_congr rfl ?_ ?_ rfl
    · rw [Store.snap, Store.snap, hinst]
      exact hsnap
    · rw [Store.logTouches, Store.logTouches, Store.log, Store.log, hinst]
      exact congrArg (fun b ↦ touches c b ++ _) hlog

theorem counter_set_of_content (hs : Formed s)
    (hcontent : ∀ n, n ≠ logName k → st'.dir.content n = s.dir.content n) :
    ∀ i, i ≠ k → (s.set k st').counter i c = s.counter i c := fun i hi ↦
  counter_set_of_ne hs hi (hcontent _ (logName_injective.ne hi))
    (hcontent _ (snapName_ne_logName i k))

/-- All that is on its way to a newcomer: without anything pending or buffered, the books are the
files. -/
theorem books_eq_files (hs : Formed s)
    (hflushed : ∀ inner, s.nodes k = some inner →
      (⟨s.dir, inner⟩ : Store).buf = [] ∧ inner.shards.dirtyAt c = none) :
    s.books k c = touches c (s.snap k) ++ touches c (s.log k) := by
  cases hk : s.nodes k with
  | none =>
    obtain ⟨hlog, hsnap⟩ := hs.absent hk
    rw [books, counter, hk, hlog, hsnap]
    rfl
  | some inner =>
    obtain ⟨hbuf, hdirty⟩ := hflushed inner hk
    have hinst : inner.inst = k := (hs.member hk).inst
    have htodo : ((⟨s.dir, inner⟩ : Store).counter c).todo = [] := by
      rw [Counter.todo, Store.counter, hdirty]
      rfl
    rw [books, counter_eq hk, htodo, List.append_nil, Store.counter, Store.logTouches, hbuf,
      touches_nil, List.append_nil, Store.snap, Store.log, hinst]
    rfl

/-! ## One instance writes the code -/

theorem Explains.leaves {σ : Nodes} {a : Replication.Action InstanceId Bytes LinkRow}
    (h : Explains s l σ a) (hsole : c ∈ s.codes l → l.node = j) : a.Leaves j c := by
  obtain ⟨-, h⟩ := h
  cases a with
  | push m ws =>
    obtain ⟨-, rfl, hkeys⟩ := h
    intro hm w hw hkey
    exact hm (hsole (hkey ▸ hkeys w hw))
  | flush | read | compact | join => trivial

theorem reserved_step (hs : Formed s) (hio : l.io = {}) (hsteady : s.Steady l)
    (hstep : s.step l = some s') (hsole : c ∈ s.codes l → l.node = j)
    (h : Reserved Owns j c s.abs) : Reserved Owns j c s'.abs := by
  obtain ⟨-, hreach, -⟩ := reaches_step hs hio hsteady hstep
  refine hreach.invariant (fun σ a σ' hσ ha hact ↦ ?_) h
  obtain rfl := Option.some.inj hact
  exact hσ.act owns_unique ha.1 (ha.leaves hsole)

theorem reserved_reading {σ σ' : Nodes} (hreach : Reaches actStep (Reading k) σ σ')
    (h : Reserved Owns j c σ) : Reserved Owns j c σ' := by
  refine hreach.invariant (fun τ a τ' hτ ha hact ↦ ?_) h
  obtain ⟨hal, i, n, hi, rfl⟩ := ha
  obtain rfl := Option.some.inj hact
  exact hτ.act owns_unique ⟨hi.symm, hal⟩ trivial

theorem reserved_empty : Reserved Owns j c empty.abs := ⟨sole_empty.silent, marked_empty⟩

/-- A code that might be any instance's is known to none. -/
theorem links_of_reserved (h : ∀ i, Reserved Owns i c s.abs) (k : InstanceId) : s.links k c = none :=
  (h 0).view_eq_none owns_unique (by decide) (h 1) k

/-- The instances that do not write the code only count hits. -/
theorem isAdd_books (hs : Formed s) (h : Reserved Owns j c s.abs) (hij : i ≠ j) :
    ∀ t ∈ s.books i c, t.isAdd = true := by
  obtain ⟨hsnap, hlog, hbuf, -⟩ := h.lone i hij
  intro t ht
  rw [books] at ht
  cases hi : s.nodes i with
  | none =>
    rw [counter, hi] at ht
    exact nomatch ht
  | some inner =>
    have hinst : inner.inst = i := (hs.member hi).inst
    rw [counter_eq hi, Store.counter, Store.logTouches, Store.snap, Store.log, hinst] at ht
    rcases List.mem_append.mp ht with ht | ht
    · rcases List.mem_append.mp ht with ht | ht
      · exact isAdd_of_silent (hs.isLog_snap i) hsnap t ht
      · rcases List.mem_append.mp ht with ht | ht
        · exact isAdd_of_silent (hs.isLog_log i) hlog t ht
        · refine isAdd_of_silent (hs.isLog_buf i) hbuf t ?_
          rw [buf_eq hi]
          exact ht
    · exact Counter.isAdd_of_mem_todo ht

theorem instInt_injective {i i' : InstanceId} (h : instInt i = instInt i') : i = i' :=
  owns_unique i i' ⟨[], 0, 0, instInt i⟩ rfl h

/-- Following siblings leaves the own hits of a link that only this instance writes as they are. -/
theorem oh_follows {js : List InstanceId} {d : Dir} {inner inner' : Inner}
    (h : Follows d inner js inner') : ∀ {s : Cluster}, Formed s → s.nodes j = some inner → d = s.dir →
      Reserved Owns j c s.abs → (inner'.find c).map Entry.oh = (inner.find c).map Entry.oh := by
  induction h with
  | refl inner => exact fun _ _ _ _ ↦ rfl
  | @step inner inner₁ inner' o js hf _ ih =>
    rintro s hs hj rfl hres
    obtain ⟨hs₁, -, hreach, -, -⟩ := sim_follow hs hj (sees_dir s inner) hf
    rw [ih hs₁ (nodes_set_self s j _) rfl (reserved_reading hreach hres)]
    have hm := hs.member hj
    cases hf with
    | @read ord _ i hi =>
      have hij : i ≠ j := fun heq ↦ hi (heq.trans hm.inst.symm)
      have hunread : (inner.reader i).unread (s.dir.content (logName i)) = s.unread j i := by
        rw [unread, reader_eq hj]
        rfl
      rw [readTail_eq, foldl_applyLine]
      refine oh_foldl_apply ord fun o ho t ht ↦ ?_
      have hmem := TailReader.filterMap_readNew (hm.sound i) _ o ho
      rw [hunread] at hmem
      have hsilent := (hres.lone i hij).2.2.2 j
      obtain ⟨hadd, hid⟩ := touch_of_silent (hs.isLog_unread j i) hsilent o hmem t ht
      have hinst : (inner.setReader (logName i) ((inner.reader i).readNew
          (s.dir.content (logName i))).2).inst = j := hm.inst
      refine ⟨hadd, ?_⟩
      rw [hid, hinst]
      exact fun heq ↦ hij (instInt_injective heq)
    | start hi hnew => rfl
    | time now => rfl

/-! ## The balance -/

/-- The resolves of a code that a step counts. -/
def hits (c : Bytes) (s : Cluster) : Label → ℕ
  | .call k call => (s.nodes k).elim 0 fun inner ↦ call.hits c ⟨s.dir, inner⟩
  | _ => 0

/-- The hits of a code that a step drops: a compaction drops the books of a code whose link is not
one of the instance. -/
def drops (c : Bytes) (s : Cluster) : Label → Int64
  | .call k (.compact _) =>
    if (s.links k c).any fun v ↦ v.i = instInt k then 0 else weight (s.books k c)
  | _ => 0

/-- A code that is created by one instance only. Until it is, nothing is known of it. From then on
the creator's books set its counter once and are worth the hits it has in memory. All books
together, with what was dropped, are worth the resolves so far. -/
structure Booked (j : InstanceId) (c : Bytes) (s : Cluster) (R : ℕ) (lost : Int64) : Prop where
  formed : Formed s
  reserved : Reserved Owns j c s.abs
  fresh : (s.counter j c).present = false →
    (∀ i, Reserved Owns i c s.abs) ∧ ∀ k, s.books k c = []
  own : (s.counter j c).present = true → Once (s.counter j c).own (s.books j c)
  total : ∑ k, weight (s.books k c) + lost = hitsHom R

theorem booked_empty : Booked j c empty 0 0 where
  formed := formed_empty
  reserved := reserved_empty
  fresh := fun _ ↦ ⟨fun _ ↦ reserved_empty, fun _ ↦ rfl⟩
  own := fun h ↦ nomatch h
  total := by
    have hzero : ∀ k, weight (empty.books k c) = 0 := fun _ ↦ rfl
    rw [Finset.sum_congr rfl fun k _ ↦ hzero k, Finset.sum_const_zero, add_zero, map_zero]

/-- What all books are worth, when those of one instance change. -/
theorem sum_weight_books (hother : ∀ i, i ≠ k → s'.counter i c = s.counter i c) :
    ∑ i, weight (s'.books i c) + weight (s.books k c)
      = ∑ i, weight (s.books i c) + weight (s'.books k c) := by
  have hrest : ∑ i ∈ Finset.univ.erase k, weight (s'.books i c)
      = ∑ i ∈ Finset.univ.erase k, weight (s.books i c) :=
    Finset.sum_congr rfl fun i hi ↦ by rw [books, hother i (Finset.ne_of_mem_erase hi), books]
  rw [← Finset.add_sum_erase _ (fun i ↦ weight (s'.books i c)) (Finset.mem_univ k),
    ← Finset.add_sum_erase _ (fun i ↦ weight (s.books i c)) (Finset.mem_univ k), hrest]
  abel

namespace Booked

variable {R : ℕ} {lost : Int64} (h : Booked j c s R lost)
include h

/-- An instance that knows the code has it from the creator. -/
theorem present_of_links (hk : s.links k c ≠ none) : (s.counter j c).present = true := by
  cases hp : (s.counter j c).present with
  | true => rfl
  | false => exact absurd (links_of_reserved (h.fresh hp).1 k) hk

/-- A step of one instance that leaves its books alone. -/
theorem of_same (hs' : Formed s') (hres : ∀ i, Reserved Owns i c s.abs → Reserved Owns i c s'.abs)
    (hbooks : s'.books k c = s.books k c)
    (hself : k = j → (s'.counter k c).present = (s.counter k c).present ∧
      (s'.counter k c).own = (s.counter k c).own)
    (hother : ∀ i, i ≠ k → s'.counter i c = s.counter i c) : Booked j c s' R lost := by
  have hall : ∀ i, s'.books i c = s.books i c := by
    intro i
    by_cases hik : i = k
    · rw [hik, hbooks]
    · rw [books, hother i hik, books]
  have hj : (s'.counter j c).present = (s.counter j c).present ∧
      (s'.counter j c).own = (s.counter j c).own := by
    by_cases hkj : k = j
    · exact hkj ▸ hself hkj
    · rw [hother j (Ne.symm hkj)]
      exact ⟨rfl, rfl⟩
  refine ⟨hs', hres j h.reserved, fun hp ↦ ?_, fun hp ↦ ?_, ?_⟩
  · rw [hj.1] at hp
    obtain ⟨hfree, hnil⟩ := h.fresh hp
    exact ⟨fun i ↦ hres i (hfree i), fun i ↦ (hall i).trans (hnil i)⟩
  · rw [hj.1] at hp
    rw [hall, hj.2]
    exact h.own hp
  · rw [Finset.sum_congr rfl fun i _ ↦ congrArg weight (hall i)]
    exact h.total

/-- A step of one instance that does nothing about the code. -/
theorem of_counter (hs' : Formed s')
    (hres : ∀ i, Reserved Owns i c s.abs → Reserved Owns i c s'.abs)
    (hself : s'.counter k c = s.counter k c)
    (hother : ∀ i, i ≠ k → s'.counter i c = s.counter i c) : Booked j c s' R lost :=
  h.of_same hs' hres (by rw [books, hself, books]) (fun _ ↦ by rw [hself]; exact ⟨rfl, rfl⟩) hother

/-- The creation of the code. -/
theorem create (habsent : (s.counter j c).present = false) (hs' : Formed s')
    (hres : Reserved Owns j c s'.abs)
    (hj : s'.counter j c = { (s.counter j c).write [.set 0] with present := true, own := 0 })
    (hother : ∀ i, i ≠ j → s'.counter i c = s.counter i c) : Booked j c s' R lost := by
  obtain ⟨-, hnil⟩ := h.fresh habsent
  obtain ⟨hfiles, htodo⟩ := List.append_eq_nil_iff.mp (hnil j)
  have hbooks : s'.books j c = [.set 0] := by
    have htodo' : (s'.counter j c).todo = (s.counter j c).todo := by rw [hj]; rfl
    rw [books, htodo', htodo, hj, Counter.write, hfiles]
    rfl
  refine ⟨hs', hres, fun hp ↦ ?_, fun _ ↦ ?_, ?_⟩
  · rw [hj] at hp
    contradiction
  · rw [hbooks, hj]
    exact once_set 0
  · have hzero : ∀ k, weight (s'.books k c) = weight (s.books k c) := by
      intro k
      by_cases hkj : k = j
      · rw [hkj, hbooks, hnil]
        rfl
      · rw [books, hother k hkj, books]
    rw [Finset.sum_congr rfl fun k _ ↦ hzero k]
    exact h.total

/-- A hit. -/
theorem hit (hk : s.links k c ≠ none) (hs' : Formed s') (habs : s'.abs = s.abs)
    (hself : s'.counter k c = { s.counter k c with
      own := (s.counter k c).own + 1
      pending := some ((s.counter k c).pending.getD 0 + 1) })
    (hother : ∀ i, i ≠ k → s'.counter i c = s.counter i c) : Booked j c s' (R + 1) lost := by
  have hp := h.present_of_links hk
  have hpresent : (s'.counter j c).present = true := by
    by_cases hjk : j = k
    · subst hjk
      rw [hself]
      exact hp
    · rw [hother j hjk]
      exact hp
  refine ⟨hs', habs ▸ h.reserved, fun hp' ↦ ?_, fun _ ↦ ?_, ?_⟩
  · rw [hpresent] at hp'
    exact nomatch hp'
  · by_cases hjk : j = k
    · subst hjk
      obtain ⟨hkept, hsets, hweight⟩ := Counter.once_files_todo.mp (h.own hp)
      refine Counter.once_files_todo.mpr ?_
      rw [hself]
      refine ⟨hkept, hsets, ?_⟩
      rw [Option.getD_some, ← add_assoc, hweight]
    · rw [books, hother j hjk]
      exact h.own hp
  · have hsum := sum_weight_books hother
    have hweight : weight (s'.books k c) = weight (s.books k c) + 1 := by
      rw [books, CounterLog.weight_append, Counter.weight_todo, books, CounterLog.weight_append,
        Counter.weight_todo, hself, Option.getD_some, add_assoc]
    have htotal := h.total
    rw [map_add, ← htotal, hitsHom_one]
    simp only [hweight] at hsum
    rw [← add_right_cancel_iff (a := weight (s.books k c)), add_right_comm, hsum]
    abel

/-- A compaction of the creator, or of another instance. -/
theorem compact (hs' : Formed s') (hres : ∀ i, Reserved Owns i c s.abs → Reserved Owns i c s'.abs)
    (hself : s'.counter k c = { s.counter k c with
      files := if k = j ∧ (s.counter k c).present then [.set (s.counter k c).own] else []
      pending := none })
    (hother : ∀ i, i ≠ k → s'.counter i c = s.counter i c) :
    Booked j c s' R (lost + if k = j then 0 else weight (s.books k c)) := by
  have hbooks : s'.books k c
      = if k = j ∧ (s.counter k c).present then [.set (s.counter k c).own] else [] := by
    have htodo : (s'.counter k c).todo = [] := by rw [hself]; rfl
    rw [books, htodo, List.append_nil, hself]
  have hsum := sum_weight_books hother
  have hpresent : (s'.counter j c).present = (s.counter j c).present := by
    by_cases hjk : j = k
    · subst hjk
      rw [hself]
    · rw [hother j hjk]
  refine ⟨hs', hres j h.reserved, fun hp ↦ ?_, fun hp ↦ ?_, ?_⟩
  · rw [hpresent] at hp
    obtain ⟨hall, hnil⟩ := h.fresh hp
    refine ⟨fun i ↦ hres i (hall i), fun i ↦ ?_⟩
    by_cases hik : i = k
    · rw [hik, hbooks, if_neg]
      rintro ⟨rfl, hp'⟩
      rw [hp] at hp'
      exact nomatch hp'
    · rw [books, hother i hik]
      exact hnil i
  · rw [hpresent] at hp
    by_cases hjk : j = k
    · subst hjk
      rw [hbooks, if_pos ⟨rfl, hp⟩, hself]
      exact once_set _
    · rw [books, hother j hjk]
      exact h.own hp
  · have htotal := h.total
    have hweight : weight (s'.books k c) + (if k = j then 0 else weight (s.books k c))
        = weight (s.books k c) := by
      rw [hbooks]
      by_cases hkj : k = j
      · subst hkj
        rw [if_pos rfl, add_zero]
        cases hp : (s.counter k c).present with
        | true => rw [if_pos ⟨rfl, rfl⟩, (h.own hp).weight, (once_set _).weight]
        | false => rw [(h.fresh hp).2 k, if_neg fun hc ↦ nomatch hc.2]
      · rw [if_neg fun hc ↦ hkj hc.1, if_neg hkj, CounterLog.weight_nil, zero_add]
    rw [← htotal, ← add_right_cancel_iff (a := weight (s.books k c))]
    calc ∑ i, weight (s'.books i c) + (lost + if k = j then 0 else weight (s.books k c))
          + weight (s.books k c)
        = (∑ i, weight (s'.books i c) + weight (s.books k c))
          + (lost + if k = j then 0 else weight (s.books k c)) := by abel
      _ = ∑ i, weight (s.books i c) + lost
          + (weight (s'.books k c) + if k = j then 0 else weight (s.books k c)) := by rw [hsum]; abel
      _ = ∑ i, weight (s.books i c) + lost + weight (s.books k c) := by rw [hweight]

end Booked

/-! ## Steps -/

/-- Following siblings changes neither the log nor the pending hits. -/
theorem follow_keeps {d : Dir} {s s' : Inner} {o : Option InstanceId} (h : Follow d s o s') :
    s'.aof = s.aof ∧ ∀ c, s'.shards.dirtyAt c = s.shards.dirtyAt c := by
  cases h with
  | read ord hj =>
    refine ⟨foldl_applyLine_keeps (f := Inner.aof) (apply_aof ord) _ _, fun c ↦ ?_⟩
    exact foldl_applyLine_keeps (f := fun s ↦ s.shards.dirtyAt c)
      (fun s o ↦ congrArg (AList.lookup c) (apply_dirty ord s o (shardOf c))) _ _
  | start hj hnew => exact ⟨rfl, fun _ ↦ rfl⟩
  | time now => exact ⟨rfl, fun _ ↦ rfl⟩

theorem follows_keeps {d : Dir} {s s' : Inner} {js : List InstanceId} (h : Follows d s js s') :
    s'.aof = s.aof ∧ ∀ c, s'.shards.dirtyAt c = s.shards.dirtyAt c := by
  refine h.invariant (P := fun t ↦ t.aof = s.aof ∧ ∀ c, t.shards.dirtyAt c = s.shards.dirtyAt c)
    (fun hf ht ↦ ?_) ⟨rfl, fun _ ↦ rfl⟩
  obtain ⟨haof, hdirty⟩ := follow_keeps hf
  exact ⟨haof.trans ht.1, fun c ↦ (hdirty c).trans (ht.2 c)⟩

namespace Booked

variable {R : ℕ} {lost : Int64}

/-- **Following siblings.** -/
theorem follows (h : Booked j c s R lost) (hk : s.nodes k = some inner) {inner' : Inner}
    {js : List InstanceId} (hf : Follows s.dir inner js inner') :
    Booked j c (s.set k ⟨s.dir, inner'⟩) R lost := by
  have hs := h.formed
  obtain ⟨hs', hreach, -, -⟩ := sim_follows hf hs hk (sees_dir s inner)
  obtain ⟨haof, hdirty⟩ := follows_keeps hf
  have hfiles : ((⟨s.dir, inner'⟩ : Store).counter c).files = (s.counter k c).files := by
    rw [counter_eq hk, Store.counter, Store.counter, Store.logTouches, Store.logTouches, Store.snap,
      Store.snap, Store.log, Store.log, Store.buf, Store.buf, hf.inst, haof]
  have hpending : ((⟨s.dir, inner'⟩ : Store).counter c).pending = (s.counter k c).pending := by
    rw [counter_eq hk]
    exact hdirty c
  have hself : k = j → ((⟨s.dir, inner'⟩ : Store).counter c).present = (s.counter k c).present ∧
      ((⟨s.dir, inner'⟩ : Store).counter c).own = (s.counter k c).own := by
    rintro rfl
    have hoh := oh_follows hf hs hk rfl h.reserved
    rw [counter_eq hk, Store.counter, Store.counter, Store.ownHits, Store.ownHits]
    refine ⟨?_, congrArg (Option.getD · 0) hoh⟩
    have hsome := congrArg Option.isSome hoh
    rwa [Option.isSome_map, Option.isSome_map] at hsome
  rw [← counter_set_self s] at hfiles hpending hself
  refine h.of_same hs' (fun i ↦ reserved_reading hreach) ?_ hself
    (counter_set_of_content hs fun _ _ ↦ rfl)
  rw [books, Counter.todo, hfiles, hpending, books, Counter.todo]

/-- **A resolve.** -/
theorem resolve (h : Booked j c s R lost) (hk : s.nodes k = some inner) (code : Bytes) (env : Env) :
    Booked j c (s.set k ((⟨s.dir, inner⟩ : Store).resolve code env.clk env.track env.ord).1)
      (R + (Call.resolve code env).hits c ⟨s.dir, inner⟩) lost := by
  have hm := h.formed.member hk
  obtain ⟨inner₁, js, hf, hcase⟩ := @Store.resolve_follows ⟨s.dir, inner⟩ hm.siblings h.formed.names
    code env.clk env.track env.ord
  have h₁ := h.follows hk hf
  rw [Call.hits]
  rcases hcase with ⟨e, hfind, htrack, heq⟩ | ⟨r, heq, hnone⟩
  · have hhit := sim_hit h₁.formed (nodes_set_self s k _) hfind rfl
    rw [dir_set, set_set] at hhit
    have hcounter := @Store.counter_hit ⟨s.dir, inner₁⟩ c code e hfind
    rw [heq]
    by_cases hc : code = c
    · subst hc
      rw [if_pos ⟨rfl, htrack, rfl⟩]
      have hlink : (s.set k ⟨s.dir, inner₁⟩).links k code ≠ none := by
        rw [links_eq (nodes_set_self s k _), Inner.links, hfind]
        exact Option.some_ne_none _
      refine h₁.hit hlink hhit.1 hhit.2.1 ?_ fun i hi ↦ ?_
      · rw [counter_set_self, counter_set_self, hcounter, if_pos rfl]
      · rw [counter_set_of_ne h.formed hi rfl rfl, counter_set_of_ne h.formed hi rfl rfl]
    · rw [if_neg fun hcond ↦ hc hcond.1]
      refine h₁.of_counter (k := k) hhit.1 (fun i ↦ (congrArg (Reserved Owns i c) hhit.2.1).mpr) ?_
        fun i hi ↦ ?_
      · rw [counter_set_self, counter_set_self, hcounter, if_neg (Ne.symm hc)]
      · rw [counter_set_of_ne h.formed hi rfl rfl, counter_set_of_ne h.formed hi rfl rfl]
  · have hzero : ¬ (code = c ∧ env.track = true ∧
        (((⟨s.dir, inner⟩ : Store).resolve code env.clk env.track env.ord).2.isSome = true)) := by
      rintro ⟨-, htrack, hsome⟩
      rw [heq, hnone htrack] at hsome
      contradiction
    rw [if_neg hzero, heq]
    exact h₁

/-- **An instance opens.** -/
theorem boot (h : Booked j c s R lost) (hk : s.nodes k = none) (ord : Order)
    (hs' : Formed (s.set k (openStore ord s.dir k)))
    (hres : ∀ i, Reserved Owns i c s.abs → Reserved Owns i c (s.set k (openStore ord s.dir k)).abs) :
    Booked j c (s.set k (openStore ord s.dir k)) R lost := by
  have hs := h.formed
  obtain ⟨hlog, hsnap⟩ := hs.absent hk
  obtain ⟨js, -, hdir, hopens⟩ := opens_openStore ord hs.names hlog hsnap
  have hcontent : ∀ n, (openStore ord s.dir k).dir.content n = s.dir.content n := fun n ↦ by
    rw [hdir, Dir.content_create]
  have hnone : s.counter k c = ⟨false, 0, [], none⟩ := by
    rw [counter, hk]
    rfl
  -- It has no lines of its own.
  have hinst : (openStore ord s.dir k).inner.inst = k := hopens.inst
  have hbuf : (openStore ord s.dir k).buf = [] := by
    rw [Store.buf, hopens.aof]
    rfl
  have hfiles : ((openStore ord s.dir k).counter c).files = [] := by
    rw [Store.counter, Store.logTouches, Store.snap, Store.log, hbuf, hinst, hcontent, hcontent]
    rw [log] at hlog
    rw [snap] at hsnap
    rw [hlog, hsnap]
    rfl
  have hpending : ((openStore ord s.dir k).counter c).pending = none :=
    congrArg (AList.lookup c) (hopens.dirty (shardOf c))
  refine h.of_same hs' hres ?_ ?_ (counter_set_of_content hs fun n _ ↦ hcontent n)
  · rw [books, counter_set_self, Counter.todo, hfiles, hpending, books, hnone]
    rfl
  · -- If it is to create the code, nobody has created it yet.
    rintro rfl
    have hfresh := (h.fresh (by rw [hnone])).1
    have hlinks := links_of_reserved (fun i ↦ hres i (hfresh i)) k
    rw [links_eq (nodes_set_self s k _), Inner.links, Option.map_eq_none_iff] at hlinks
    rw [counter_set_self, hnone, Store.counter, Store.ownHits, hlinks]
    exact ⟨rfl, rfl⟩

/-- **A creation.** -/
theorem shorten (h : Booked j c s R lost) (hk : s.nodes k = some inner) {url : Bytes}
    {al : Option Code} {ttl : Int64} {env : Env} {p : Store × Option Bytes}
    (hp : (⟨s.dir, inner⟩ : Store).shorten url (al.map Subtype.val) ttl env.clk env.rng = some p)
    (hs' : Formed (s.set k p.1)) (hcreator : p.2 = some c → k = j)
    (hres : ∀ i, (p.2 = some c → k = i) → Reserved Owns i c s.abs →
      Reserved Owns i c (s.set k p.1).abs) :
    Booked j c (s.set k p.1) R lost := by
  have hs := h.formed
  have hm := hs.member hk
  have hinst : inner.inst = k := hm.inst
  have hcontent : ∀ n, n ≠ logName k → p.1.dir.content n = s.dir.content n := by
    obtain ⟨pick, hpick, rfl⟩ := Option.map_eq_some_iff.mp hp
    cases pick with
    | none => exact fun _ _ ↦ rfl
    | some code =>
      obtain ⟨hfree, hcode⟩ := Store.pickCode_spec hpick
      have hpush := (hm.toTidy.recorded_nil.bind hfree hcode url (env.clk 0)
        (expiry (env.clk 0) ttl)).pushes
      rw [List.nil_append, ← Machine.push_eq_pushRaw] at hpush
      intro n hn
      rcases hpush.tidy.flushIfFull_writes with hf | hf
      · exact (hf.content n (by rw [hpush.inst]; exact hinst.symm ▸ hn)).trans
          (congrArg (Dir.content · n) hpush.dir)
      · simp only [hf]
        exact congrArg (Dir.content · n) hpush.dir
  have hother := counter_set_of_content (c := c) hs hcontent
  rcases hm.toTidy.counter_shorten (c := c) hp with ⟨hcode, habsent, heq⟩ | ⟨hcode, heq⟩
  · obtain rfl := hcreator hcode
    rw [← counter_eq hk] at habsent heq
    refine h.create habsent hs' (hres k (fun _ ↦ rfl) h.reserved) ?_ hother
    rw [counter_set_self, heq]
  · refine h.of_counter hs' (fun i ↦ hres i fun hc ↦ absurd hc hcode) ?_ hother
    rw [counter_set_self, heq, counter_eq hk]

/-- **A flush.** -/
theorem flush (h : Booked j c s R lost) (hk : s.nodes k = some inner) (ord : Order)
    (hs' : Formed (s.set k ((⟨s.dir, inner⟩ : Store).flushLocked ord)))
    (hres : ∀ i, Reserved Owns i c s.abs →
      Reserved Owns i c (s.set k ((⟨s.dir, inner⟩ : Store).flushLocked ord)).abs) :
    Booked j c (s.set k ((⟨s.dir, inner⟩ : Store).flushLocked ord)) R lost := by
  have hs := h.formed
  have hm := hs.member hk
  have hinst : inner.inst = k := hm.inst
  have hf := hm.toTidy.flushed ord
  have hcontent : ∀ n, n ≠ logName k →
      ((⟨s.dir, inner⟩ : Store).flushLocked ord).dir.content n = s.dir.content n :=
    fun n hn ↦ hf.content n (by rw [hinst]; exact hn)
  have hcounter := @Tidy.counter_flushLocked _ hm.toTidy c ord
  rw [← counter_eq hk] at hcounter
  rw [← counter_set_self s k] at hcounter
  refine h.of_same hs' hres ?_ (fun _ ↦ ?_) (counter_set_of_content hs hcontent)
  · rw [books, hcounter]
    exact List.append_nil _
  · rw [hcounter]
    exact ⟨rfl, rfl⟩

/-- The links that an instance has for the code are the creator's. -/
theorem owner_eq (h : Booked j c s R lost) (hk : s.nodes k = some inner) {e : Entry}
    (hfind : inner.find c = some e) : e.i = instInt j := by
  refine h.reserved.marked.owner k e.link ?_
  have hlinks : s.abs.view k = inner.links := links_eq hk
  rw [hlinks, Inner.links, hfind]
  rfl

/-- **A compaction.** -/
theorem compacted (h : Booked j c s R lost) (hk : s.nodes k = some inner) {env : Env}
    (hio : env.io = {})
    (hs' : Formed (s.set k ((⟨s.dir, inner⟩ : Store).compact env.ord env.io)))
    (hres : ∀ i, Reserved Owns i c s.abs →
      Reserved Owns i c (s.set k ((⟨s.dir, inner⟩ : Store).compact env.ord env.io)).abs) :
    Booked j c (s.set k ((⟨s.dir, inner⟩ : Store).compact env.ord env.io)) R
      (lost + s.drops c (.call k (.compact env))) := by
  have hs := h.formed
  have hm := hs.member hk
  have hinst : inner.inst = k := hm.inst
  have hown : OwnCodesOk inner := by
    intro c e hfind _
    refine hm.codes c ?_
    rw [Inner.links, hfind]
    rfl
  have hc := hm.toTidy.compacted hown env.ord
  have hcounter := @Tidy.counter_compacted _ hm.toTidy c hown env.ord
  rw [hio] at hs' hres ⊢
  have hother : ∀ i, i ≠ k →
      (s.set k ((⟨s.dir, inner⟩ : Store).compact env.ord {})).counter i c = s.counter i c := by
    have hcontent := hc.content
    rw [hinst] at hcontent
    obtain ⟨hlogs, hsnaps⟩ := siblings_content (s := s) hcontent
    exact fun i hi ↦ counter_set_of_ne hs hi (hlogs i hi) (hsnaps i hi)
  -- The snapshot takes the link if it is the creator's own.
  have hrow : (⟨s.dir, inner⟩ : Store).snapRow c
      = if k = j ∧ (s.counter k c).present then [.set (s.counter k c).own] else [] := by
    rw [counter_eq hk, Store.snapRow, Store.counter, Store.ownHits]
    cases hfind : inner.find c with
    | none =>
      rw [if_neg fun hp ↦ Bool.false_ne_true hp.2]
      rfl
    | some e =>
      rw [Option.bind_some, h.owner_eq hk hfind, hinst]
      by_cases hkj : k = j
      · rw [if_pos (congrArg instInt hkj.symm), if_pos ⟨hkj, rfl⟩]
        rfl
      · rw [if_neg fun heq ↦ hkj (instInt_injective heq).symm, if_neg fun hp ↦ hkj hp.1]
        rfl
  have hdrops : s.drops c (.call k (.compact env)) = if k = j then 0 else weight (s.books k c) := by
    rw [drops, links_eq hk, Inner.links]
    cases hfind : inner.find c with
    | none =>
      rw [Option.map_none, Option.any_none, if_neg Bool.false_ne_true]
      by_cases hkj : k = j
      · subst hkj
        have habsent : (s.counter k c).present = false := by
          rw [counter_eq hk, Store.counter, hfind]
          rfl
        rw [if_pos rfl, (h.fresh habsent).2 k]
        rfl
      · rw [if_neg hkj]
    | some e =>
      have hi : e.link.i = instInt j := h.owner_eq hk hfind
      rw [Option.map_some, Option.any_some, hi]
      by_cases hkj : k = j
      · rw [if_pos (decide_eq_true (congrArg instInt hkj.symm)), if_pos hkj]
      · rw [if_neg fun heq ↦ hkj (instInt_injective (of_decide_eq_true heq)).symm, if_neg hkj]
  rw [hdrops]
  refine h.compact hs' hres ?_ hother
  rw [counter_set_self, hcounter, hrow, counter_eq hk]

end Booked

/-- The steps considered here: an instance opens, creates a link, resolves, flushes, polls or
compacts. -/
def Label.tallies : Label → Bool
  | boot .. | call _ (.shorten ..) | call _ (.resolve ..) | call _ (.flush _) | call _ (.pollTails _)
  | call _ (.compact _) => true
  | _ => false

theorem drops_of_not_compacts (h : l.compacts = false) : s.drops c l = 0 := by
  cases l with
  | call k call =>
    cases call with
    | compact env => exact nomatch h
    | _ => rfl
  | boot | glimpse => rfl

/-- **One step.** -/
theorem Booked.of_step {R : ℕ} {lost : Int64} (h : Booked j c s R lost) (hl : l.tallies = true)
    (hio : l.io = {}) (hsteady : s.Steady l) (hsole : c ∈ s.codes l → l.node = j)
    (hstep : s.step l = some s') : Booked j c s' (R + s.hits c l) (lost + s.drops c l) := by
  obtain ⟨hs', -, -⟩ := reaches_step h.formed hio hsteady hstep
  have hres : ∀ i, (c ∈ s.codes l → l.node = i) → Reserved Owns i c s.abs →
      Reserved Owns i c s'.abs := fun i ↦ reserved_step h.formed hio hsteady hstep
  cases l with
  | boot k ord =>
    rw [step] at hstep
    cases hk : s.nodes k with
    | some inner =>
      rw [hk] at hstep
      contradiction
    | none =>
      rw [hk] at hstep
      obtain rfl := Option.some.inj hstep
      rw [drops_of_not_compacts rfl, add_zero]
      exact h.boot hk ord hs' fun i ↦ hres i fun hc ↦ absurd hc List.not_mem_nil
  | glimpse k call seen => contradiction
  | call k call =>
    obtain ⟨inner, st', hk, -, hrun, rfl⟩ := step_call hstep
    have hhits : s.hits c (.call k call) = call.hits c ⟨s.dir, inner⟩ := by
      rw [hits, hk]
      rfl
    have hcodes : s.codes (.call k call) = call.codes ⟨s.dir, inner⟩ := by
      rw [codes, hk]
      rfl
    rw [hhits]
    rw [hcodes] at hsole hres
    cases call with
    | shorten url al ttl env =>
      obtain ⟨p, hp, rfl⟩ := Option.map_eq_some_iff.mp hrun
      have hmem : c ∈ (Call.shorten url al ttl env).codes ⟨s.dir, inner⟩ → p.2 = some c := by
        intro hc
        rw [Call.codes, hp] at hc
        exact Option.mem_toList.mp hc
      have hcode : p.2 = some c → c ∈ (Call.shorten url al ttl env).codes ⟨s.dir, inner⟩ := by
        intro hc
        rw [Call.codes, hp]
        exact Option.mem_toList.mpr hc
      rw [drops_of_not_compacts rfl, add_zero]
      exact h.shorten hk hp hs' (fun hc ↦ hsole (hcode hc)) fun i hi ↦ hres i fun hc ↦ hi (hmem hc)
    | resolve code env =>
      obtain rfl := Option.some.inj hrun
      rw [drops_of_not_compacts rfl, add_zero]
      exact h.resolve hk code env
    | flush env =>
      obtain rfl := Option.some.inj hrun
      rw [drops_of_not_compacts rfl, add_zero]
      exact h.flush hk env.ord hs' fun i ↦ hres i fun hc ↦ absurd hc List.not_mem_nil
    | pollTails env =>
      obtain rfl := Option.some.inj hrun
      have hm := h.formed.member hk
      obtain ⟨js, hf, -⟩ := follows_pollLocked hm.siblings h.formed.names env.ord (env.clk 0)
      rw [drops_of_not_compacts rfl, add_zero, Store.pollTails,
        if_neg (Bool.eq_false_iff.mp hm.aof_isNone)]
      exact h.follows hk hf
    | compact env =>
      obtain rfl := Option.some.inj hrun
      exact h.compacted hk hio hs' fun i ↦ hres i fun hc ↦ absurd hc List.not_mem_nil
    | shortenMany | update | remove | reopen => contradiction

/-- The resolves of a code that succeed in a run. -/
def resolved (c : Bytes) (ls : List Label) : ℕ := ghost step (fun n s l ↦ n + s.hits c l) 0 empty ls

/-- The hits of a code that are dropped in a run. -/
def dropped (c : Bytes) (ls : List Label) : Int64 :=
  ghost step (fun d s l ↦ d + s.drops c l) 0 empty ls

/-- **A run.** -/
theorem booked_run {ls : List Label} (hrun : run step empty ls = some s)
    (hls : ∀ l ∈ ls, l.tallies = true)
    (hsteady : Meets step (fun s l ↦ l.io = {} ∧ s.Steady l) empty ls)
    (hsole : Meets step (fun s l ↦ c ∈ s.codes l → l.node = j) empty ls) :
    Booked j c s (resolved c ls) (dropped c ls) := by
  obtain ⟨upd, hupd⟩ : ∃ upd : ℕ × Int64 → Cluster → Label → ℕ × Int64,
      upd = fun p s l ↦ (p.1 + s.hits c l, p.2 + s.drops c l) := ⟨_, rfl⟩
  have hmeets := ((Transition.meets_of_forall hls empty).and hsteady).and hsole
  have hghost : run (withGhost step upd) (empty, (0, 0)) ls
      = some (s, (resolved c ls, dropped c ls)) := by
    rw [Transition.run_withGhost hrun, hupd]
    exact congrArg (fun g ↦ some (s, g))
      (Transition.ghost_prod (fun n s l ↦ n + hits c s l) fun d s l ↦ d + drops c s l)
  refine Transition.run_invariant (P := fun p : Cluster × ℕ × Int64 ↦ Booked j c p.1 p.2.1 p.2.2)
    ?_ booked_empty (Transition.meets_withGhost hmeets) hghost
  rintro ⟨s, R, lost⟩ l ⟨s', R', lost'⟩ h ⟨⟨hl, hio, hst⟩, hcreator⟩ hstep
  obtain ⟨hstep, heq⟩ := Transition.withGhost_eq_some.mp hstep
  rw [hupd] at heq
  obtain ⟨rfl, rfl⟩ := Prod.mk.inj heq
  exact h.of_step hl hio hst hcreator hstep

/-! ## A newcomer -/

/-- The hits that an instance reports for a code. -/
def reported (s : Cluster) (k : InstanceId) (c : Bytes) : Option Int64 :=
  (s.nodes k).bind fun inner ↦ ((⟨s.dir, inner⟩ : Store).stats c).map Store.Link.hits

/-- The files count the hits of fewer codes than a reader can park. -/
def FewHitCodes (s : Cluster) : Prop :=
  ∃ codes : Finset Bytes, codes.card < MAX_STRAY_HITS ∧
    ∀ k, ∀ x ∈ hitCodes (s.snap k) ++ hitCodes (s.log k), x ∈ codes

/-- **A newcomer** takes in the snapshots of all instances, and then their logs. -/
theorem cell_of_newcomer (hs : Formed s) (hfew : s.FewHitCodes) {f : InstanceId} {ord : Order}
    {env : Env} {t : Cluster}
    (ht : run step s [.boot f ord, .call f (.pollTails env)] = some t) :
    ∃ inner, t.nodes f = some inner ∧ ∃ js js' : List InstanceId, js.Nodup ∧ js'.Nodup ∧
      (∀ i, i ∉ js → s.snap i = []) ∧ (∀ i, i ∉ js' → s.log i = []) ∧
      ∀ c, inner.cell c = CounterLog.replay ⟨false, 0⟩
        ((js.flatMap fun i ↦ touches c (s.snap i)) ++ js'.flatMap fun i ↦ touches c (s.log i)) := by
  obtain ⟨codes, hcard, hcodes⟩ := hfew
  obtain ⟨s₁, hboot, ht⟩ := Transition.run_cons_eq_some.mp ht
  obtain ⟨t', hpoll, ht⟩ := Transition.run_cons_eq_some.mp ht
  obtain rfl := Option.some.inj ht
  rw [step] at hboot
  cases hf : s.nodes f with
  | some inner =>
    rw [hf] at hboot
    contradiction
  | none =>
    rw [hf] at hboot
    obtain rfl := Option.some.inj hboot
    obtain ⟨inner, st', hnode, -, hrun, rfl⟩ := step_call hpoll
    rw [nodes_set_self] at hnode
    obtain rfl := Option.some.inj hnode
    obtain rfl := Option.some.inj hrun
    obtain ⟨hlog, hsnap⟩ := hs.absent hf
    obtain ⟨js, js', hnodup, hnodup', hall, hcell⟩ :=
      cell_newcomer hs.names hlog hsnap hcard hcodes ord env.ord (env.clk 0)
    -- An instance that has no log file yet has written nothing.
    have hblank : ∀ i, logName i ∉ s.dir → s.log i = [] ∧ s.snap i = [] := by
      intro i hmem
      refine hs.absent (Option.isNone_iff_eq_none.mp (Option.isSome_eq_false_iff.mp ?_))
      exact Bool.eq_false_iff.mpr fun hsome ↦ hmem (hs.file hsome)
    refine ⟨_, nodes_set_self .., js, js', hnodup, hnodup', fun i hi ↦ ?_, fun i hi ↦ ?_, hcell⟩
    · by_cases hif : i = f
      · rw [hif, hsnap]
      · exact (hblank i fun hmem ↦ hi (hall i hif hmem).1).2
    · by_cases hif : i = f
      · rw [hif, hlog]
      · exact (hblank i fun hmem ↦ hi (hall i hif hmem).2).1

/-- Nothing about a code is waiting in an instance: the buffer is empty, and no hits are pending. -/
def Flushed (c : Bytes) (s : Cluster) : Prop :=
  ∀ k, ∀ inner ∈ s.nodes k, (⟨s.dir, inner⟩ : Store).buf = [] ∧ inner.shards.dirtyAt c = none

instance decidableFlushed (c : Bytes) (s : Cluster) : Decidable (Flushed c s) :=
  inferInstanceAs (Decidable (∀ k, ∀ inner ∈ s.nodes k, _ ∧ _))

/-- **When a newcomer counts all resolves.** Take any run in which instances open, create links,
resolve, flush, poll and compact, file operations succeed, no log grows past a reader that has not
noticed its truncation, and one instance creates the code. When all instances are flushed, a
newcomer that opens and polls reports the resolves of the code that have succeeded, exactly when
compactions have dropped no hits of it. -/
theorem hits_of_newcomer_iff {ls : List Label} (hrun : run step empty ls = some s)
    (hls : ∀ l ∈ ls, l.tallies = true)
    (hsteady : Meets step (fun s l ↦ l.io = {} ∧ s.Steady l) empty ls)
    (hsole : Meets step (fun s l ↦ c ∈ s.codes l → l.node = j) empty ls) (hflushed : Flushed c s)
    (hlive : (s.links j c).isSome = true) (hfew : s.FewHitCodes) {f : InstanceId} {ord : Order}
    {env : Env} {t : Cluster} (ht : run step s [.boot f ord, .call f (.pollTails env)] = some t) :
    t.reported f c = some (hitsHom (resolved c ls)) ↔ dropped c ls = 0 := by
  have h := booked_run hrun hls hsteady hsole
  have hbooks : ∀ k, s.books k c = touches c (s.snap k) ++ touches c (s.log k) :=
    fun k ↦ books_eq_files h.formed fun inner hk ↦ hflushed k inner hk
  have hone := h.own (h.present_of_links (Option.isSome_iff_ne_none.mp hlive))
  obtain ⟨inner, hnode, js, js', hnodup, hnodup', hjs, hjs', hcell⟩ :=
    cell_of_newcomer h.formed hfew ht
  have hall := CounterLog.once_flatMap hnodup hnodup' (f := fun i ↦ touches c (s.snap i))
    (g := fun i ↦ touches c (s.log i)) (fun i hi ↦ by rw [hjs i hi, touches_nil])
    (fun i hi ↦ by rw [hjs' i hi, touches_nil]) (j := j) (hbooks j ▸ hone)
    fun i hij ↦ hbooks i ▸ isAdd_books h.formed h.reserved hij
  obtain ⟨e, hfind, hhits⟩ := Inner.find_of_cell_present ((hcell c).trans hall.replay)
  have hreported : t.reported f c = some (∑ k, weight (s.books k c)) := by
    rw [reported, hnode, Option.bind_some, Store.stats, hfind, Option.map_some, Option.map_some]
    refine congrArg some (hhits.trans (Finset.sum_congr rfl fun k _ ↦ ?_))
    rw [hbooks k]
  rw [hreported, Option.some.injEq, ← h.total, eq_comm, add_eq_left]

/-- The creator of a link compacts, and a sibling counts a hit on it. -/
def ownerCompacts : List Label :=
  [.boot 0 fun _ ↦ 0, .call 0 (.shorten (lit "u0") (some ⟨lit "a", codeOk_a⟩) 0 {}),
    .call 0 (.compact {}), .boot 1 fun _ ↦ 0, .call 1 (.resolve (lit "a") {}), .call 1 (.flush {})]

/-- The sibling compacts as well. -/
def siblingCompacts : List Label := ownerCompacts ++ [.call 1 (.compact {})]

/-- A newcomer opens and polls. -/
def newcomer : List Label := [.boot 2 fun _ ↦ 0, .call 2 (.pollTails {})]

theorem hits_of_newcomer_iff_ownerCompacts : ∃ s t, run step empty ownerCompacts = some s ∧
    run step s newcomer = some t ∧ resolved (lit "a") ownerCompacts = 1 ∧
    t.reported 2 (lit "a") = some (hitsHom 1) := by
  obtain ⟨s, hs, hflushed, hlive, hhits, ht⟩ : ∃ s, run step empty ownerCompacts = some s ∧
      Flushed (lit "a") s ∧ (s.links 0 (lit "a")).isSome = true ∧
      (∀ k, ∀ x ∈ hitCodes (s.snap k) ++ hitCodes (s.log k), x ∈ ({lit "a"} : Finset Bytes)) ∧
      (run step s newcomer).isSome = true := by
    decide +kernel
  obtain ⟨t, ht⟩ := Option.isSome_iff_exists.mp ht
  have hls : ∀ l ∈ ownerCompacts, l.tallies = true := by decide
  have hsteady : Meets step (fun s l ↦ l.io = {} ∧ s.Steady l) empty ownerCompacts := by
    decide +kernel
  have hsole : Meets step (fun s l ↦ lit "a" ∈ s.codes l → l.node = 0) empty ownerCompacts := by
    decide +kernel
  have hresolved : resolved (lit "a") ownerCompacts = 1 := by decide +kernel
  have hdropped : dropped (lit "a") ownerCompacts = 0 := by decide +kernel
  refine ⟨s, t, hs, ht, hresolved, ?_⟩
  have hiff := hits_of_newcomer_iff hs hls hsteady hsole hflushed hlive
    ⟨{lit "a"}, by decide, hhits⟩ ht
  rw [← hresolved]
  exact hiff.mpr hdropped

theorem hits_dropped : ∃ s, run step empty siblingCompacts = some s ∧ Flushed (lit "a") s ∧
    resolved (lit "a") siblingCompacts = 1 ∧
    ∃ t, run step s newcomer = some t ∧ t.reported 2 (lit "a") = some 0 := by
  decide +kernel

end Cluster

end Shrt
