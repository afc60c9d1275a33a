import Shrt.Cluster.Steps

/-!
# Compaction and running siblings

A compaction moves the rows of a log to a snapshot, at which a running sibling never looks again. A
sibling that has not read a row by then misses it, and one that has not read a tombstone keeps the
link.

When the siblings have the owner's link whenever the owner compacts, each of them has the owner's
link after every poll; and only then (`caught_iff_informed`). Besides, a log must not grow past a
reader that has not noticed the truncation (`Steady`).
-/

namespace Shrt

open LastWrite (Write replay)
open Replication (Action act Sole Marked)
open Transition (run Meets Reaches)

namespace Cluster

/-- An instance that writes a code alone, in a cluster that compacts. -/
structure Tracked (j : InstanceId) (c : Bytes) (s : Cluster) : Prop where
  formed : Formed s
  sole : Sole j c s.abs
  marked : Marked Owns j c s.abs

/-- The siblings that are running have the writer's link when the writer compacts. -/
def Informed (j : InstanceId) (c : Bytes) (s : Cluster) (l : Label) : Prop :=
  l.compacts = true → l.node = j → ∀ k, k ≠ j → (s.nodes k).isSome = true → s.links k c = s.links j c

instance decidableInformed (j : InstanceId) (c : Bytes) (s : Cluster) (l : Label) :
    Decidable (Informed j c s l) :=
  inferInstanceAs (Decidable (_ → _ → ∀ k, k ≠ j → (s.nodes k).isSome = true →
    s.links k c = s.links j c))

/-- A sibling that polls now has the writer's link then, if the writer has flushed or compacted
since it last changed the link. -/
def Caught (j : InstanceId) (c : Bytes) (s : Cluster) : Prop :=
  LastWrite.Silent c (writesOf (s.buf j)) → ∀ k, k ≠ j → ∀ env t,
    s.step (.call k (.pollTails env)) = some t → t.links k c = t.links j c

variable {s s' : Cluster} {l : Label} {j k : InstanceId} {c : Bytes}

theorem tracked_empty : Tracked j c empty := ⟨formed_empty, sole_empty, marked_empty⟩

theorem Tracked.of_step (h : Tracked j c s) (hio : l.io = {}) (hsteady : s.Steady l)
    (hsole : c ∈ s.codes l → l.node = j) (hinf : Informed j c s l) (hstep : s.step l = some s') :
    Tracked j c s' := by
  obtain ⟨hs', hreach, -⟩ := reaches_step h.formed hio hsteady hstep
  have hinv : Sole j c s'.abs ∧ Marked Owns j c s'.abs := by
    refine hreach.invariant (P := fun σ ↦ Sole j c σ ∧ Marked Owns j c σ)
      (fun σ a σ' hσ ha hact ↦ ?_) ⟨h.sole, h.marked⟩
    obtain rfl := Option.some.inj hact
    have hspare := ha.spares hsole hinf
    exact ⟨hσ.1.act (hσ.1.respects owns_unique hσ.2 ha.1 hspare),
      hσ.2.act hσ.1.silent ha.1 hspare.leaves⟩
  exact ⟨hs', hinv.1, hinv.2⟩

theorem Tracked.caught (h : Tracked j c s) : Caught j c s := fun hsilent _ hkj _ _ hpoll ↦
  sole_pollTails h.formed h.sole hkj hsilent hpoll

/-- A sibling that does not have the writer's link when the writer compacts does not get it by
polling either. -/
theorem Tracked.informed (h : Tracked j c s) (hio : l.io = {}) (hstep : s.step l = some s')
    (hcaught : Caught j c s') : Informed j c s l := by
  intro hcompact hnode k hkj hk
  obtain ⟨env, rfl⟩ : ∃ env, l = .call j (.compact env) := by
    cases l with
    | call i call =>
      cases call with
      | compact env => exact ⟨env, by rw [← hnode]; rfl⟩
      | _ => exact nomatch hcompact
    | boot | glimpse => exact nomatch hcompact
  obtain ⟨hs', rows, habs⟩ := abs_compact h.formed hio hstep
  have hbuf : s'.abs.buffer j = [] := by
    rw [habs]
    exact Function.update_self ..
  have hviews : s'.abs.view = s.abs.view := by
    rw [habs]
    rfl
  have hal : s'.abs.alive k = true := by
    rw [habs]
    exact hk
  -- The log is gone, and nobody else writes about the code.
  have hunread : ∀ i, i ≠ k → LastWrite.Silent c (s'.abs.unread k i) := by
    intro i _
    rw [habs]
    by_cases hij : i = j
    · simp only [act, if_pos hij]
      exact LastWrite.silent_nil c
    · simp only [act, if_neg hij]
      exact (h.sole.silent i hij).2.2.2 k
  obtain ⟨t, ht⟩ := exists_pollTails hal {}
  obtain ⟨-, hreach, -, -⟩ := reaches_pollTails hs' ht
  have hpolled : t.links k c = t.links j c := by
    refine hcaught ?_ k hkj {} t ht
    have hempty : writesOf (s'.buf j) = [] := hbuf
    rw [hempty]
    exact LastWrite.silent_nil c
  calc s.links k c = s'.links k c := (congrFun (congrFun hviews k) c).symm
    _ = t.links k c := (view_of_reading hreach hunread).symm
    _ = t.links j c := hpolled
    _ = s'.links j c := congrFun ((reading_keeps hreach).2 j hkj.symm) c
    _ = s.links j c := congrFun (congrFun hviews j) c

/-- **When siblings miss what was compacted.** Take any run in which the rows and tombstones of a
code are all written by instance `j`, file operations succeed, and no log grows past a reader that
has not noticed its truncation. A sibling that polls at whatever point of it, after `j` has flushed
or compacted, then has `j`'s link (or none, if `j` has none), exactly when at every compaction of
`j` the siblings that are running have `j`'s link already. -/
theorem caught_iff_informed {ls : List Label} (hrun : run step empty ls = some s)
    (hsteady : Meets step (fun s l ↦ l.io = {} ∧ s.Steady l) empty ls)
    (hsole : Meets step (fun s l ↦ c ∈ s.codes l → l.node = j) empty ls) :
    (∀ ls₁ u, ls₁ <+: ls → run step empty ls₁ = some u → Caught j c u) ↔
      Meets step (Informed j c) empty ls := by
  refine Transition.forall_passed_iff_meets (P := Tracked j c)
    (q := fun s l ↦ (l.io = {} ∧ s.Steady l) ∧ (c ∈ s.codes l → l.node = j))
    (fun s l s' h hq hinf hstep ↦ h.of_step hq.1.1 hq.1.2 hq.2 hinf hstep) (fun s h ↦ h.caught)
    (fun s l s' h hq hstep hcaught ↦ h.informed hq.1.1 hstep hcaught) tracked_empty
    (hsteady.and hsole) hrun

/-- A sibling polls before and after the owner compacts. -/
def polledFirst : List Label :=
  [.boot 0 fun _ ↦ 0, .boot 1 fun _ ↦ 0,
    .call 0 (.shorten (lit "u0") (some ⟨lit "a", codeOk_a⟩) 0 {}), .call 0 (.flush {}),
    .call 1 (.pollTails {}), .call 0 (.compact {}), .call 1 (.pollTails {}),
    .call 0 (.update (lit "a") (lit "u1") 0 false {}), .call 0 (.flush {})]

theorem caught_iff_informed_polledFirst : ∃ s, run step empty polledFirst = some s ∧
    Caught 0 (lit "a") s ∧ (s.links 0 (lit "a")).map LinkRow.u = some (lit "u1") ∧
    (s.links 1 (lit "a")).map LinkRow.u = some (lit "u0") := by
  obtain ⟨s, hs, hlinks⟩ : ∃ s, run step empty polledFirst = some s ∧
      (s.links 0 (lit "a")).map LinkRow.u = some (lit "u1") ∧
      (s.links 1 (lit "a")).map LinkRow.u = some (lit "u0") := by
    decide +kernel
  have hsteady : Meets step (fun s l ↦ l.io = {} ∧ s.Steady l) empty polledFirst := by decide +kernel
  have hsole : Meets step (fun s l ↦ lit "a" ∈ s.codes l → l.node = 0) empty polledFirst := by
    decide +kernel
  have hinf : Meets step (Informed 0 (lit "a")) empty polledFirst := by decide +kernel
  exact ⟨s, hs, (caught_iff_informed hs hsteady hsole).mpr hinf polledFirst s List.prefix_rfl hs, hlinks⟩

/-- The owner compacts before the sibling has read the row. -/
def compactedFirst : List Label :=
  [.boot 0 fun _ ↦ 0, .boot 1 fun _ ↦ 0,
    .call 0 (.shorten (lit "u0") (some ⟨lit "a", codeOk_a⟩) 0 {}), .call 0 (.compact {}),
    .call 1 (.pollTails {})]

/-- The log grows again to its old length before the sibling has noticed that it was truncated. -/
def grownAgain : List Label :=
  [.boot 0 fun _ ↦ 0, .boot 1 fun _ ↦ 0,
    .call 0 (.shorten (lit "u0") (some ⟨lit "a", codeOk_a⟩) 0 {}), .call 0 (.flush {}),
    .call 1 (.pollTails {}), .call 0 (.compact {}),
    .call 0 (.update (lit "a") (lit "u1") 0 false {}), .call 0 (.flush {}), .call 1 (.pollTails {})]

theorem links_hidden :
    (∃ t, run step empty compactedFirst = some t ∧
      (t.links 0 (lit "a")).map LinkRow.u = some (lit "u0") ∧ t.links 1 (lit "a") = none) ∧
    ∃ t, run step empty grownAgain = some t ∧
      (t.links 0 (lit "a")).map LinkRow.u = some (lit "u1") ∧
      (t.links 1 (lit "a")).map LinkRow.u = some (lit "u0") := by
  decide +kernel

end Cluster

end Shrt
