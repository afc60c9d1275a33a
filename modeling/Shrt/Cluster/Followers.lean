import Shrt.Cluster.Steps

/-!
# Followers see growing prefixes

A code whose rows and tombstones are all written by one instance, in a cluster that does not
compact: another instance's link for the code is what a prefix of the writer's lines is worth, the
prefix only grows, and a poll after a flush catches up. Lines may become visible in pieces, at any
byte.
-/

namespace Shrt

open LastWrite (Write replay)
open Replication (Action act Sole Traced Marked)
open Transition (run Meets Reaches)

namespace Cluster

/-- The rows and tombstones that an instance has written for a code, oldest first. -/
def lines (s : Cluster) (j : InstanceId) (c : Bytes) : List (Write Bytes LinkRow) :=
  (writesOf (s.log j) ++ writesOf (s.buf j)).filter fun w ↦ w.key = c

/-- Those of them that another instance has read: all but what it has yet to read of the log, and
what has not been flushed. -/
def seen (s : Cluster) (k j : InstanceId) (c : Bytes) : List (Write Bytes LinkRow) :=
  (s.lines j c).take ((s.lines j c).length
    - ((writesOf (s.unread k j) ++ writesOf (s.buf j)).filter fun w ↦ w.key = c).length)

/-- An instance that writes a code alone, and the instances that follow it. -/
structure Followed (j : InstanceId) (c : Bytes) (s : Cluster) : Prop where
  formed : Formed s
  within : Within s
  traced : Traced j c s.abs
  marked : Marked Owns j c s.abs

variable {s s' : Cluster} {l : Label} {j k : InstanceId} {c : Bytes}

theorem followed_empty : Followed j c empty where
  formed := formed_empty
  within := within_empty
  traced := ⟨sole_empty, rfl, fun _ _ hal ↦ nomatch hal⟩
  marked := marked_empty

/-- Without compaction the file operations all succeed. -/
theorem Label.io_of_not_compacts (h : l.compacts = false) : l.io = {} := by
  cases l with
  | call k call =>
    cases call with
    | compact env => exact nomatch h
    | _ => rfl
  | boot | glimpse => rfl

/-- One step: the writer's lines and what has been read of them only grow. -/
theorem Followed.of_step (h : Followed j c s) (hno : l.compacts = false)
    (hsole : c ∈ s.codes l → l.node = j) (hstep : s.step l = some s') : Followed j c s' ∧
      ∀ k, k ≠ j → s.abs.alive k = true → s'.abs.alive k = true ∧ s.seen k j c <+: s'.seen k j c := by
  obtain ⟨hs', hreach, hwithin⟩ := reaches_step h.formed (Label.io_of_not_compacts hno)
    (h.within.steady l) hstep
  have hinv := hreach.invariant (P := fun σ ↦ Traced j c σ ∧ Marked Owns j c σ ∧
      ∀ k, k ≠ j → s.abs.alive k = true → σ.alive k = true ∧ s.abs.seen k j c <+: σ.seen k j c)
    (fun σ a σ' hσ ha hstep ↦ ?_) ⟨h.traced, h.marked, fun k _ hal ↦ ⟨hal, List.prefix_rfl⟩⟩
  · exact ⟨⟨hs', hwithin hno h.within, hinv.1, hinv.2.1⟩, hinv.2.2⟩
  · obtain rfl := Option.some.inj hstep
    obtain ⟨htraced, hmarked, hseen⟩ := hσ
    have hspare := ha.spares hsole fun hl _ ↦ nomatch hno.symm.trans hl
    have hresp := htraced.toSole.respects owns_unique hmarked ha.1 hspare
    refine ⟨htraced.act hresp (ha.compacts hno), hmarked.act htraced.silent ha.1 hspare.leaves,
      fun k hk hal ↦ ?_⟩
    obtain ⟨hal', hpre⟩ := hseen k hk hal
    exact ⟨Replication.alive_act hal',
      hpre.trans (htraced.seen_prefix_act hresp (ha.compacts hno) hk hal')⟩

/-- A run. -/
theorem Followed.of_run {ls : List Label} : ∀ {s : Cluster}, Followed j c s →
    (∀ l ∈ ls, l.compacts = false) → Meets step (fun s l ↦ c ∈ s.codes l → l.node = j) s ls →
    run step s ls = some s' → Followed j c s' ∧
      ∀ k, k ≠ j → s.abs.alive k = true → s'.abs.alive k = true ∧ s.seen k j c <+: s'.seen k j c := by
  induction ls with
  | nil =>
    intro s h _ _ hrun
    obtain rfl := Option.some.inj hrun
    exact ⟨h, fun k _ hal ↦ ⟨hal, List.prefix_rfl⟩⟩
  | cons l ls ih =>
    intro s h hno hsole hrun
    obtain ⟨s₁, hstep, hrun⟩ := Transition.run_cons_eq_some.mp hrun
    obtain ⟨h₁, hgrow₁⟩ := h.of_step (hno l List.mem_cons_self) hsole.1 hstep
    obtain ⟨h', hgrow⟩ :=
      ih h₁ (fun l' hl' ↦ hno l' (List.mem_cons_of_mem _ hl')) (hsole.2 s₁ hstep) hrun
    refine ⟨h', fun k hk hal ↦ ?_⟩
    obtain ⟨hal₁, hpre₁⟩ := hgrow₁ k hk hal
    obtain ⟨hal', hpre⟩ := hgrow k hk hal₁
    exact ⟨hal', hpre₁.trans hpre⟩

/-- A step that does not change the code leaves the buffer without entries about it. -/
theorem Followed.silent_step (h : Followed j c s) (hno : l.compacts = false) (hquiet : c ∉ s.codes l)
    (hsilent : LastWrite.Silent c (s.abs.buffer j)) (hstep : s.step l = some s') :
    Followed j c s' ∧ LastWrite.Silent c (s'.abs.buffer j) := by
  obtain ⟨h', -⟩ := h.of_step hno (fun hc ↦ absurd hc hquiet) hstep
  obtain ⟨-, hreach, -⟩ := reaches_step h.formed (Label.io_of_not_compacts hno) (h.within.steady l) hstep
  refine ⟨h', hreach.invariant (P := fun σ ↦ LastWrite.Silent c (σ.buffer j))
    (fun σ a σ' hσ ha hact ↦ ?_) hsilent⟩
  obtain rfl := Option.some.inj hact
  exact ha.silent_buffer hquiet hσ

theorem Followed.silent_run {ls : List Label} : ∀ {s : Cluster}, Followed j c s →
    (∀ l ∈ ls, l.compacts = false) → Meets step (fun s l ↦ c ∉ s.codes l) s ls →
    LastWrite.Silent c (s.abs.buffer j) → run step s ls = some s' →
      Followed j c s' ∧ LastWrite.Silent c (s'.abs.buffer j) := by
  induction ls with
  | nil =>
    intro s h _ _ hsilent hrun
    obtain rfl := Option.some.inj hrun
    exact ⟨h, hsilent⟩
  | cons l ls ih =>
    intro s h hno hquiet hsilent hrun
    obtain ⟨s₁, hstep, hrun⟩ := Transition.run_cons_eq_some.mp hrun
    obtain ⟨h₁, hsilent₁⟩ := h.silent_step (hno l List.mem_cons_self) hquiet.1 hsilent hstep
    exact ih h₁ (fun l' hl' ↦ hno l' (List.mem_cons_of_mem _ hl')) (hquiet.2 s₁ hstep) hsilent₁ hrun

theorem codes_call_eq_nil {call : Call} (h : ∀ st, call.codes st = []) (s : Cluster) (k : InstanceId) :
    s.codes (.call k call) = [] := by
  rw [codes]
  cases s.nodes k with
  | none => rfl
  | some inner => exact h _

/-- **Followers see growing prefixes.** Without compaction, and when the rows and tombstones of a
code are all written by instance `j`, another instance's link for the code is what a prefix of `j`'s
lines for the code is worth. The prefix never shrinks, and after a poll that follows a flush of `j`
the link is `j`'s own, unless `j` has changed it again in between. -/
theorem links_of_follower (hkj : k ≠ j) {ls ls' : List Label}
    (hno : ∀ l ∈ ls ++ ls', l.compacts = false)
    (hsole : Meets step (fun s l ↦ c ∈ s.codes l → l.node = j) empty (ls ++ ls'))
    (hs : run step empty ls = some s) (hk : (s.nodes k).isSome = true)
    (hs' : run step s ls' = some s') :
    s.seen k j c <+: s.lines j c ∧ s.links k c = worth (s.seen k j c) c ∧
      s.seen k j c <+: s'.seen k j c ∧
      ∀ env env' ms t, (∀ l ∈ ms, l.compacts = false) →
        Meets step (fun s l ↦ c ∉ s.codes l) s' (.call j (.flush env) :: ms) →
        run step s' (.call j (.flush env) :: ms ++ [.call k (.pollTails env')]) = some t →
        t.links k c = t.links j c := by
  have hno₁ : ∀ l ∈ ls, l.compacts = false := fun l hl ↦ hno l (List.mem_append_left _ hl)
  have hno₂ : ∀ l ∈ ls', l.compacts = false := fun l hl ↦ hno l (List.mem_append_right _ hl)
  obtain ⟨hsole₁, hsole₂⟩ := Transition.meets_append.mp hsole
  obtain ⟨h, -⟩ := followed_empty.of_run hno₁ hsole₁ hs
  obtain ⟨h', hgrow⟩ := h.of_run hno₂ (hsole₂ s hs) hs'
  refine ⟨List.take_prefix _ _, h.traced.view_eq hkj hk, (hgrow k hkj hk).2,
    fun env env' ms t hms hquiet hrun ↦ ?_⟩
  obtain ⟨u, hu, ht⟩ := Transition.run_append_eq_some.mp hrun
  obtain ⟨s₁, hflush, hu⟩ := Transition.run_cons_eq_some.mp hu
  obtain ⟨t', hpoll, ht⟩ := Transition.run_cons_eq_some.mp ht
  obtain rfl := Option.some.inj ht
  -- The flush leaves nothing in the buffer, and nothing comes in before the poll.
  obtain ⟨h₁, -⟩ := h'.of_step rfl (fun hc ↦ absurd hc hquiet.1) hflush
  have hempty : s₁.abs.buffer j = [] :=
    (congrArg writesOf (buf_flush h'.formed hflush)).trans writesOf_nil
  have hsilent : LastWrite.Silent c (s₁.abs.buffer j) := by
    rw [hempty]
    exact LastWrite.silent_nil c
  obtain ⟨h₂, hsilent₂⟩ := h₁.silent_run hms (hquiet.2 s₁ hflush) hsilent hu
  exact sole_pollTails h₂.formed h₂.traced.toSole hkj hsilent₂ hpoll

/-- A link is made and flushed, and a sibling's poll sees half of the row. -/
def halfSeen : List Label :=
  [.boot 0 fun _ ↦ 0, .boot 1 fun _ ↦ 0,
    .call 0 (.shorten (lit "u0") (some ⟨lit "a", codeOk_a⟩) 0 {}), .call 0 (.flush {}),
    .glimpse 1 (.pollTails {}) (((∅ : Dir).insert (logName 1) []).insert (logName 0)
      ((rowLine (lit "a") (lit "u0") 0 0 0 0).take 20))]

theorem links_of_follower_halfSeen : ∃ s s' t : Cluster, run step empty halfSeen = some s ∧
    run step s [.call 0 (.update (lit "a") (lit "u1") 0 false {})] = some s' ∧
    run step s' [.call 0 (.flush {}), .call 1 (.pollTails {})] = some t ∧
    s.links 1 (lit "a") = worth (s.seen 1 0 (lit "a")) (lit "a") ∧
    s.seen 1 0 (lit "a") <+: s'.seen 1 0 (lit "a") ∧ t.links 1 (lit "a") = t.links 0 (lit "a") ∧
    (t.links 0 (lit "a")).map LinkRow.u = some (lit "u1") := by
  obtain ⟨s, hs, hk⟩ : ∃ s, run step empty halfSeen = some s ∧ (s.nodes 1).isSome = true := by
    decide +kernel
  obtain ⟨t, ht, hlink⟩ : ∃ t, run step empty (halfSeen ++
      ([.call 0 (.update (lit "a") (lit "u1") 0 false {})]
        ++ [.call 0 (.flush {}), .call 1 (.pollTails {})])) = some t ∧
      (t.links 0 (lit "a")).map LinkRow.u = some (lit "u1") := by
    decide +kernel
  obtain ⟨s₁, hs₁, ht⟩ := Transition.run_append_eq_some.mp ht
  obtain rfl := Option.some.inj (hs.symm.trans hs₁)
  obtain ⟨s', hs', ht⟩ := Transition.run_append_eq_some.mp ht
  have hno : ∀ l ∈ halfSeen ++ [.call 0 (.update (lit "a") (lit "u1") 0 false {})],
      l.compacts = false := by decide
  have hsole : Meets step (fun s l ↦ lit "a" ∈ s.codes l → l.node = 0) empty
      (halfSeen ++ [.call 0 (.update (lit "a") (lit "u1") 0 false {})]) := by decide +kernel
  have hquiet : lit "a" ∉ s'.codes (.call 0 (.flush {})) := by
    rw [codes_call_eq_nil fun _ ↦ rfl]
    exact List.not_mem_nil
  obtain ⟨-, hview, hgrow, hpoll⟩ := links_of_follower (by decide) hno hsole hs hk hs'
  refine ⟨s, s', t, hs, hs', ht, hview, hgrow, hpoll {} {} [] t ?_ ⟨hquiet, fun _ _ ↦ trivial⟩ ht, hlink⟩
  exact fun l hl ↦ absurd hl List.not_mem_nil

end Cluster

end Shrt
