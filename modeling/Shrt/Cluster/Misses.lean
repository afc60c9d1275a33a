import Shrt.Cluster.Compaction

/-!
# A read that misses

An instance that is asked for a code it does not know looks into the logs of its siblings. When the
first byte of the code is one that a sibling's generated codes begin with, it looks into that
sibling's log only, and otherwise into all of them. An alias may begin with any byte, whoever
creates it.

So a code that one sibling has written and flushed is found exactly when its first byte names that
sibling, or names none; a code that is known is not looked for, even if its link has changed since
(`resolve_sibling_iff`).
-/

namespace Shrt

open LastWrite (Write replay)
open Replication (Sole)
open Transition (run Meets Reaches)

/-- Whether a link has not expired. -/
def LinkRow.live (v : LinkRow) (now : Int64) : Bool := v.e = 0 || now < v.e

/-- The only sibling into whose log a miss of the code looks, if the code names one. -/
def sought (k : InstanceId) (c : Bytes) : Option InstanceId :=
  (c.head?.bind alphaIdx).bind fun owner ↦
    if h : owner ≠ k.val ∧ owner < MAX_INSTANCES then some ⟨owner, h.2⟩ else none

theorem ne_of_sought {k i : InstanceId} {c : Bytes} (h : sought k c = some i) : i ≠ k := by
  obtain ⟨owner, -, howner⟩ := Option.bind_eq_some_iff.mp h
  obtain ⟨hne, heq⟩ := Option.dite_none_right_eq_some.mp howner
  intro hik
  exact hne.1 (congrArg Fin.val ((Option.some.inj heq).trans hik))

theorem tailMissed_eq (ord : Order) (d : Dir) {s : Inner} (haof : s.aof.isNone = false) {code : Bytes}
    (hcode : code ≠ []) {clk : Clock} (hpoll : TAIL_MIN_INTERVAL ≤ clk 1 - s.tail.lastPoll) :
    tailMissed ord d s code clk = match sought s.inst code with
      | some i => { readTail ord d s (logName i) with
          tail := { (readTail ord d s (logName i)).tail with lastPoll := clk 2 } }
      | none => pollLocked ord d s (clk 2) := by
  obtain ⟨b, rest, rfl⟩ := List.exists_cons_of_ne_nil hcode
  obtain ⟨aof, haof⟩ := Option.isSome_iff_exists.mp (Option.isNone_eq_false_iff.mp haof)
  rw [sought, List.head?_cons, Option.bind_some]
  unfold tailMissed
  simp only [haof]
  cases alphaIdx b with
  | none => exact if_pos hpoll
  | some owner =>
    simp only [Option.bind_some]
    split_ifs with h
    · rfl
    · rfl

/-- What the first section of `resolve` finds. -/
theorem Store.lookup_snd (st : Store) (code : Bytes) (now : Int64) (track : Bool) :
    (st.lookup code now track).2 = match st.inner.links code with
      | some r => if r.live now then .url r.u else .expired
      | none => .absent := by
  rw [lookup, Inner.links]
  cases st.inner.find code with
  | none => rfl
  | some e =>
    simp only [Option.map_some]
    change (if live e now then _ else _ : Store × Found).2 = if live e now then _ else _
    split_ifs <;> rfl

/-- What `resolve` returns, by the links before and after the siblings' logs were looked at. -/
theorem Store.resolve_snd {st : Store} (haof : st.inner.aof.isNone = false) (code : Bytes)
    (clk : Clock) (track : Bool) (ord : Order) : (st.resolve code clk track ord).2
      = match st.inner.links code with
        | some r => if r.live (clk 0) then some r.u else none
        | none => ((tailMissed ord st.dir st.inner code clk).links code).bind fun r ↦
            if r.live (clk 3) then some r.u else none := by
  rw [resolve]
  cases hl : st.inner.links code with
  | some r =>
    have hfound := st.lookup_snd code (clk 0) track
    rw [hl] at hfound
    generalize st.lookup code (clk 0) track = q at hfound ⊢
    obtain ⟨st', f⟩ := q
    simp only at hfound ⊢
    subst hfound
    split_ifs <;> rfl
  | none =>
    have habsent : st.lookup code (clk 0) track = (st, .absent) := by
      rw [lookup, Option.map_eq_none_iff.mp hl]
    have hfound := (st.readTails code clk ord).lookup_snd code (clk 3) track
    rw [habsent]
    simp only [if_neg (Bool.eq_false_iff.mp haof)]
    generalize (st.readTails code clk ord).lookup code (clk 3) track = q at hfound ⊢
    obtain ⟨st', f⟩ := q
    change f = _ at hfound
    change _ = ((st.readTails code clk ord).inner.links code).bind _
    subst hfound
    cases (st.readTails code clk ord).inner.links code with
    | none => rfl
    | some r =>
      simp only [Option.bind_some]
      split_ifs <;> rfl

namespace Cluster

variable {s : Cluster} {k j : InstanceId} {c : Bytes} {inner : Inner}

/-- What a miss leaves of a code that one sibling writes: the link of the sibling's log, if that was
looked into. -/
theorem links_tailMissed (hs : Formed s) (hsole : Sole j c s.abs) (hkj : k ≠ j)
    (hk : s.nodes k = some inner) (hc : c ≠ []) (ord : Order) {clk : Clock}
    (hpoll : TAIL_MIN_INTERVAL ≤ clk 1 - inner.tail.lastPoll) :
    (tailMissed ord s.dir inner c clk).links c
      = if sought k c = none ∨ sought k c = some j then
          replay (fun _ ↦ none) (s.abs.snap j ++ s.abs.log j) c
        else inner.links c := by
  have hm := hs.member hk
  have hinst : inner.inst = k := hm.inst
  -- Once nothing is left to read of the sibling's log, the link is the log's.
  have hcaught : ∀ {inner' : Inner}, Reaches actStep (Reading k) s.abs (s.set k ⟨s.dir, inner'⟩).abs →
      (s.set k ⟨s.dir, inner'⟩).abs.unread k j = [] →
      inner'.links c = replay (fun _ ↦ none) (s.abs.snap j ++ s.abs.log j) c := by
    intro inner' hreach hunread
    have hbehind := (sole_reading hreach hsole).behind k hkj (alive_of_node (nodes_set_self s k _))
    rw [hunread] at hbehind
    exact (congrFun (links_eq (nodes_set_self s k ⟨s.dir, inner'⟩)).symm c).trans hbehind
  rw [tailMissed_eq ord s.dir hm.aof_isNone hc hpoll, hinst]
  cases hsought : sought k c with
  | none =>
    obtain ⟨-, hreach, hunread⟩ := sim_pollLocked hs hk ord (clk 2)
    rw [if_pos (.inl rfl)]
    exact hcaught hreach (hunread j hkj.symm)
  | some i =>
    have hik := ne_of_sought hsought
    obtain ⟨-, -, ⟨n, habs⟩, hunread, -⟩ := sim_read hs hk (sees_dir s inner) ord hik
    change (readTail ord s.dir inner (logName i)).links c = _
    by_cases hij : i = j
    · subst hij
      rw [if_pos (.inr rfl)]
      refine hcaught ?_ ((congrArg writesOf (hunread rfl)).trans writesOf_nil)
      rw [habs]
      exact Reaches.single rfl ⟨alive_of_node hk, i, n, hik, rfl⟩
    · -- The log of another sibling says nothing about the code.
      rw [if_neg (by simpa using hij)]
      have hview := congrFun (congrFun (congrArg Replication.State.view habs) k) c
      simp only [Replication.act, Function.update_self] at hview
      rw [LastWrite.Silent.replay fun w hw ↦ (hsole.silent i hij).2.2.2 k w (List.mem_of_mem_take hw)]
        at hview
      refine (congrFun (links_eq (nodes_set_self s k _)).symm c).trans (hview.trans ?_)
      exact congrFun (links_eq hk) c

/-- A run keeps the code to its writer. -/
theorem Tracked.of_run {s' : Cluster} {ls : List Label} (h : Tracked j c s)
    (hsteady : Meets step (fun s l ↦ l.io = {} ∧ s.Steady l) s ls)
    (hsole : Meets step (fun s l ↦ c ∈ s.codes l → l.node = j) s ls)
    (hinf : Meets step (Informed j c) s ls) (hrun : run step s ls = some s') : Tracked j c s' :=
  Transition.run_invariant (fun _ _ _ h hok hstep ↦ h.of_step hok.1.1.1 hok.1.1.2 hok.1.2 hok.2 hstep) h
    ((hsteady.and hsole).and hinf) hrun

/-- **When a read finds what a sibling has flushed.** Take any run in which the rows and tombstones
of a code are all written by instance `j`, compactions of `j` hide nothing from its siblings, and
the last line about the code in `j`'s log is a row that has not expired. Another instance that has
not polled for the minimal interval resolves the code to the url of the row exactly in two cases: it
does not know the code, and the first byte of the code names `j` or no sibling at all; or it knows a
link with this url that has not expired. -/
theorem resolve_sibling_iff {ls : List Label} (hrun : run step empty ls = some s)
    (hsteady : Meets step (fun s l ↦ l.io = {} ∧ s.Steady l) empty ls)
    (hsole : Meets step (fun s l ↦ c ∈ s.codes l → l.node = j) empty ls)
    (hinf : Meets step (Informed j c) empty ls) (hkj : k ≠ j) (hk : s.nodes k = some inner)
    {v : LinkRow} (hrow : LastWrite.lastFor c (writesOf (s.log j)) = some (.put c v)) {clk : Clock}
    (hlive : v.live (clk 3) = true) (hpoll : TAIL_MIN_INTERVAL ≤ clk 1 - inner.tail.lastPoll)
    (track : Bool) (ord : Order) :
    ((⟨s.dir, inner⟩ : Store).resolve c clk track ord).2 = some v.u ↔
      s.links k c = none ∧ (sought k c = none ∨ sought k c = some j) ∨
      ∃ r, s.links k c = some r ∧ r.live (clk 0) = true ∧ r.u = v.u := by
  have h := tracked_empty.of_run hsteady hsole hinf hrun
  have hc : c ≠ [] := by
    rintro rfl
    exact nomatch (h.formed.isLog_log j).codeOk_of_mem (LastWrite.mem_of_lastFor hrow).1
  have hlog : replay (fun _ ↦ none) (s.abs.snap j ++ s.abs.log j) c = some v := by
    have hlast : LastWrite.lastFor c (s.abs.log j) = some (.put c v) := hrow
    rw [LastWrite.replay_append, LastWrite.replay_apply, hlast]
    rfl
  have hlinks : s.links k c = inner.links c := congrFun (links_eq hk) c
  rw [Store.resolve_snd (h.formed.member hk).aof_isNone, ← hlinks]
  cases hknown : s.links k c with
  | some r => simp [Option.ite_none_right_eq_some]
  | none =>
    simp only
    rw [links_tailMissed h.formed h.sole hkj hk hc ord hpoll, hlog, ← hlinks, hknown]
    by_cases hsought : sought k c = none ∨ sought k c = some j
    · rw [if_pos hsought, Option.bind_some, if_pos hlive]
      exact iff_of_true rfl (.inl ⟨trivial, hsought⟩)
    · rw [if_neg hsought]
      simp [hsought]

/-- Instance 0 creates two aliases and flushes them; instance 1 is running. The first byte of one of
them is the prefix of instance 0, that of the other one the prefix of instance 35. -/
def aliasesFlushed : List Label :=
  [.boot 0 fun _ ↦ 0, .boot 1 fun _ ↦ 0,
    .call 0 (.shorten (lit "u0") (some ⟨lit "0a", by decide⟩) 0 {}),
    .call 0 (.shorten (lit "u1") (some ⟨lit "za", by decide⟩) 0 {}), .call 0 (.flush {})]

theorem resolve_sibling_iff_aliasesFlushed : ∃ s, run step empty aliasesFlushed = some s ∧
    ∃ inner, s.nodes 1 = some inner ∧ ((⟨s.dir, inner⟩ : Store).resolve (lit "0a") (fun _ ↦ 1000) true
      fun _ ↦ 0).2 = some (lit "u0") := by
  obtain ⟨s, hs, hlast, hnone, inner, hk, hpoll⟩ : ∃ s, run step empty aliasesFlushed = some s ∧
      LastWrite.lastFor (lit "0a") (writesOf (s.log 0))
        = some (.put (lit "0a") { u := lit "u0", a := 0, e := 0, i := 0 }) ∧
      s.links 1 (lit "0a") = none ∧
      ∃ inner, s.nodes 1 = some inner ∧ TAIL_MIN_INTERVAL ≤ 1000 - inner.tail.lastPoll := by
    decide +kernel
  have hsteady : Meets step (fun s l ↦ l.io = {} ∧ s.Steady l) empty aliasesFlushed := by
    decide +kernel
  have hsole : Meets step (fun s l ↦ lit "0a" ∈ s.codes l → l.node = 0) empty aliasesFlushed := by
    decide +kernel
  have hinf : Meets step (Informed 0 (lit "0a")) empty aliasesFlushed := by decide +kernel
  have hne : (1 : InstanceId) ≠ 0 := by decide
  refine ⟨s, hs, inner, hk, (resolve_sibling_iff hs hsteady hsole hinf hne hk hlast ?_ ?_ true
    fun _ ↦ 0).mpr (.inl ⟨hnone, ?_⟩)⟩
  · decide
  · exact hpoll
  · decide +kernel

/-- **A flushed alias is not found.** Instance 1 looks for it in the log of instance 35. -/
theorem alias_not_found : ∃ s, run step empty aliasesFlushed = some s ∧
    LastWrite.lastFor (lit "za") (writesOf (s.log 0))
      = some (.put (lit "za") { u := lit "u1", a := 0, e := 0, i := 0 }) ∧
    ∃ inner, s.nodes 1 = some inner ∧ TAIL_MIN_INTERVAL ≤ 1000 - inner.tail.lastPoll ∧
      ((⟨s.dir, inner⟩ : Store).resolve (lit "za") (fun _ ↦ 1000) true fun _ ↦ 0).2 = none := by
  decide +kernel

end Cluster

end Shrt
