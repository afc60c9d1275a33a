import Shrt.Lib.Interleave

/-!
# Linearizability

A run of a pool is linearizable if there is an order of its calls in which each, executed in one go,
returns what it returned in the run, and which ends in a state that looks like the one the run ended
in. The order may not put a call before one that had returned when it started. Each call is executed
at a moment at which it took a step in the run.

`LinearizationPoints` says what has to be shown of the steps: there is one action of each call that
does what the whole call does when executed in one go, and the other actions change nothing that
shows.
-/

namespace Interleave

open Transition (run Meets run_history)

variable {A : Type} {R : A → Type} {β σ C E : Type}

/-! ## Sequential orders -/

/-- A call in a sequential order: which thread it is, what the environment decides for it, and what
it returns. -/
structure Turn (C E β : Type) where
  thread : ℕ
  call : C
  env : E
  out : β

/-- The calls, one after the other and each in one go, lead from one state to the other. -/
def Replays (body : C → Prog A R β) (perform : C → E → (a : A) → σ → R a × σ) :
    σ → List (Turn C E β) → σ → Prop
  | s, [], t => s = t
  | s, x :: h, t => ∃ u, (body x.call).exec (perform x.call x.env) s = (x.out, u) ∧
      Replays body perform u h t

variable {body : C → Prog A R β} {perform : C → E → (a : A) → σ → R a × σ}

/-- One more call at the end. -/
theorem Replays.concat {s t t' : σ} {h : List (Turn C E β)} {x : Turn C E β}
    (hr : Replays body perform s h t)
    (hx : (body x.call).exec (perform x.call x.env) t = (x.out, t')) :
    Replays body perform s (h ++ [x]) t' := by
  induction h generalizing s with
  | nil =>
    rw [Replays] at hr
    exact ⟨t', hr ▸ hx, rfl⟩
  | cons y h ih =>
    obtain ⟨u, hy, hu⟩ := hr
    exact ⟨u, hy, ih hu⟩

/-- The order is one for this run. `Rel` says which states look alike. -/
structure Linearizes (body : C → Prog A R β) (perform : C → E → (a : A) → σ → R a × σ)
    (Rel : σ → σ → Prop) (s₀ : σ) (ls : List (Label C E)) (P : Pool σ C A R β)
    (h : List (Turn C E β)) : Prop where
  replays : ∃ t, Replays body perform s₀ h t ∧ Rel t P.shared
  /-- No call comes twice. -/
  nodup : (h.map Turn.thread).Nodup
  /-- Every call that returned has its turn. -/
  complete : ∀ j th, P.threads[j]? = some th → th.result.isSome → j ∈ h.map Turn.thread
  /-- A turn is one of a call in the run, and returns what that call returned. -/
  calls : ∀ x ∈ h, ∃ th, P.threads[x.thread]? = some th ∧ th.call = x.call ∧
    ∀ b, th.result = some b → b = x.out
  during : ∀ x ∈ h, Label.step x.thread x.env ∈ ls
  /-- No call comes before one that had returned when it started. -/
  order : h.Pairwise fun x y ↦ ∀ th th', P.threads[x.thread]? = some th →
    P.threads[y.thread]? = some th' → ¬ th'.Precedes th

/-- There is such an order. -/
def Linearizable (body : C → Prog A R β) (perform : C → E → (a : A) → σ → R a × σ)
    (Rel : σ → σ → Prop) (s₀ : σ) (ls : List (Label C E)) (P : Pool σ C A R β) : Prop :=
  ∃ h, Linearizes body perform Rel s₀ ls P h

/-! ## Linearization points -/

/-- How far calls have come, relative to the action that stands for the whole call. -/
structure LinearizationPoints (body : C → Prog A R β) (perform : C → E → (a : A) → σ → R a × σ)
    (Rel : σ → σ → Prop) (ok : Pool σ C A R β → Label C E → Prop) where
  /-- Before that action. -/
  Pre : C → Prog A R β → Prop
  /-- After it, when the result is settled. -/
  Post : C → β → Prog A R β → Prop
  pre_body : ∀ c, Pre c (body c)
  not_pre_ret : ∀ c b, ¬ Pre c (.ret b)
  eq_of_post_ret : ∀ c b b', Post c b (.ret b') → b' = b
  pre_act : ∀ P i e th a k t, P.threads[i]? = some th → th.prog = .act a k → ok P (.step i e) →
    Pre th.call (.act a k) → Rel t P.shared →
    (Rel t (perform th.call e a P.shared).2 ∧ Pre th.call (k (perform th.call e a P.shared).1)) ∨
    ∃ b t', (body th.call).exec (perform th.call e) t = (b, t') ∧
      Rel t' (perform th.call e a P.shared).2 ∧ Post th.call b (k (perform th.call e a P.shared).1)
  post_act : ∀ c b e a k s t, Post c b (.act a k) → Rel t s →
    Rel t (perform c e a s).2 ∧ Post c b (k (perform c e a s).1)

namespace LinearizationPoints

variable {Rel : σ → σ → Prop} {ok : Pool σ C A R β → Label C E → Prop}
  {pts : LinearizationPoints body perform Rel ok} {s₀ : σ} {ls : List (Label C E)}
  {P P' : Pool σ C A R β} {l : Label C E} {h : List (Turn C E β)}

/-- Where a thread is: it has no turn yet, or it has had its turn. -/
def Placed (pts : LinearizationPoints body perform Rel ok) (h : List (Turn C E β)) (j : ℕ)
    (th : Thread C A R β) : Prop :=
  (pts.Pre th.call th.prog ∧ j ∉ h.map Turn.thread) ∨
    ∃ x ∈ h, x.thread = j ∧ x.call = th.call ∧ pts.Post th.call x.out th.prog

/-- A later call was not over when an earlier one started. -/
def InTime (P : Pool σ C A R β) (x y : Turn C E β) : Prop :=
  ∀ th th', P.threads[x.thread]? = some th → P.threads[y.thread]? = some th' → th.began ≤ th'.last

/-- What holds of the turns so far. -/
structure Ordered (pts : LinearizationPoints body perform Rel ok) (s₀ : σ) (ls : List (Label C E))
    (P : Pool σ C A R β) (h : List (Turn C E β)) : Prop where
  replays : ∃ t, Replays body perform s₀ h t ∧ Rel t P.shared
  nodup : (h.map Turn.thread).Nodup
  placed : ∀ j th, P.threads[j]? = some th → pts.Placed h j th
  started : ∀ x ∈ h, x.thread < P.threads.length
  past : ∀ (j : ℕ) (th : Thread C A R β), P.threads[j]? = some th → th.began < P.now
  during : ∀ x ∈ h, Label.step x.thread x.env ∈ ls
  order : h.Pairwise (InTime P)

/-- Turns that are ordered so are an order for the run. -/
theorem Ordered.linearizes (ho : pts.Ordered s₀ ls P h) : Linearizes body perform Rel s₀ ls P h where
  replays := ho.replays
  nodup := ho.nodup
  complete := by
    intro j th hj hret
    rcases ho.placed j th hj with ⟨hpre, -⟩ | ⟨x, hx, rfl, -⟩
    · obtain ⟨b, hb⟩ := Option.isSome_iff_exists.mp hret
      rw [th.result_eq_some.mp hb] at hpre
      exact absurd hpre (pts.not_pre_ret _ _)
    · exact List.mem_map_of_mem hx
  calls := by
    intro x hx
    have hlt := ho.started x hx
    have hth : P.threads[x.thread]? = some P.threads[x.thread] := List.getElem?_eq_getElem hlt
    rcases ho.placed _ _ hth with ⟨-, hno⟩ | ⟨y, hy, hthread, hcall, hpost⟩
    · exact absurd (List.mem_map_of_mem hx) hno
    · obtain rfl : y = x := List.inj_on_of_nodup_map ho.nodup hy hx hthread
      refine ⟨_, hth, hcall.symm, fun b hb ↦ ?_⟩
      rw [Thread.result_eq_some] at hb
      rw [hb] at hpost
      exact pts.eq_of_post_ret _ _ _ hpost
  during := ho.during
  order := ho.order.imp fun hle th th' hx hy hprec ↦ (hle th th' hx hy).not_gt hprec.2

/-! ### What a step keeps -/

theorem past_step (hpast : ∀ (j : ℕ) (th : Thread C A R β), P.threads[j]? = some th → th.began < P.now)
    (hs : P.step body perform l = some P') (j : ℕ) (th : Thread C A R β)
    (hj : P'.threads[j]? = some th) : th.began < P'.now := by
  rw [Pool.now_of_step hs]
  rcases Pool.thread_origin hs hj with ⟨-, hbegan⟩ | ⟨th₀, hj₀, -, hbegan, -⟩
  · omega
  · have := hpast j th₀ hj₀
    omega

/-- A turn of a call that has started stays in time. -/
theorem InTime.step {x y : Turn C E β} (hxy : InTime P x y)
    (hpast : ∀ (j : ℕ) (th : Thread C A R β), P.threads[j]? = some th → th.began < P.now)
    (hx : x.thread < P.threads.length) (hy : y.thread < P.threads.length)
    (hs : P.step body perform l = some P') : InTime P' x y := by
  intro th th' hth hth'
  rcases Pool.thread_origin hs hth with ⟨hnew, -⟩ | ⟨th₀, hx₀, -, hbegan, -⟩
  · omega
  rcases Pool.thread_origin hs hth' with ⟨hnew, -⟩ | ⟨th₀', hy₀, -, -, hlast⟩
  · omega
  have hle := hxy th₀ th₀' hx₀ hy₀
  have hlt := hpast x.thread th₀ hx₀
  omega

/-- An action that shows nothing: the turns stay as they are. -/
theorem Ordered.same {t : σ} (ho : pts.Ordered s₀ ls P h) (hs : P.step body perform l = some P')
    (hr : Replays body perform s₀ h t) (hrel : Rel t P'.shared)
    (hplaced : ∀ j th, P'.threads[j]? = some th → pts.Placed h j th) :
    pts.Ordered s₀ (ls ++ [l]) P' h where
  replays := ⟨t, hr, hrel⟩
  nodup := ho.nodup
  placed := hplaced
  started := fun x hx ↦ (ho.started x hx).trans_le (Pool.length_le_of_step hs)
  past := past_step ho.past hs
  during := fun x hx ↦ List.mem_append_left _ (ho.during x hx)
  order := ho.order.imp_of_mem fun hx hy hxy ↦
    hxy.step ho.past (ho.started _ hx) (ho.started _ hy) hs

/-- The action that stands for the call: it is the call's turn. -/
theorem Ordered.turn {t t' : σ} {i : ℕ} {e : E} {th : Thread C A R β} {a : A} {k : R a → Prog A R β}
    {b : β} (ho : pts.Ordered s₀ ls P h) (hs : P.step body perform (.step i e) = some P')
    (hi : P.threads[i]? = some th)
    (hi' : P'.threads[i]? = some (th.next P.now a (k (perform th.call e a P.shared).1)))
    (hno : i ∉ h.map Turn.thread) (hr : Replays body perform s₀ h t)
    (hexec : (body th.call).exec (perform th.call e) t = (b, t')) (hrel : Rel t' P'.shared)
    (hpost : pts.Post th.call b (k (perform th.call e a P.shared).1))
    (hother : ∀ j th', P'.threads[j]? = some th' → j ≠ i → pts.Placed h j th') :
    pts.Ordered s₀ (ls ++ [.step i e]) P' (h ++ [⟨i, th.call, e, b⟩]) where
  replays := ⟨t', hr.concat hexec, hrel⟩
  nodup := by
    rw [List.map_append, List.nodup_append]
    refine ⟨ho.nodup, List.nodup_singleton _, fun j hj j' hj' hjj' ↦ hno ?_⟩
    rw [List.map_singleton, List.mem_singleton] at hj'
    have hji : j = i := hjj'.trans hj'
    rwa [← hji]
  placed := by
    intro j th' hj
    by_cases hji : j = i
    · rw [hji, hi'] at hj
      obtain rfl := Option.some.inj hj
      exact .inr ⟨_, List.mem_append_right _ (List.mem_singleton_self _), hji.symm, rfl, hpost⟩
    · rcases hother j th' hj hji with ⟨hpre, hnoj⟩ | ⟨x, hx, hxj⟩
      · refine .inl ⟨hpre, ?_⟩
        rw [List.map_append, List.mem_append, not_or]
        exact ⟨hnoj, fun hmem ↦ hji (List.mem_singleton.mp hmem)⟩
      · exact .inr ⟨x, List.mem_append_left _ hx, hxj⟩
  started := by
    intro x hx
    refine lt_of_lt_of_le ?_ (Pool.length_le_of_step hs)
    rcases List.mem_append.mp hx with hx | hx
    · exact ho.started x hx
    · rw [List.mem_singleton.mp hx]
      exact (List.getElem?_eq_some_iff.mp hi).1
  past := past_step ho.past hs
  during := by
    intro x hx
    rcases List.mem_append.mp hx with hx | hx
    · exact List.mem_append_left _ (ho.during x hx)
    · rw [List.mem_singleton.mp hx]
      exact List.mem_append_right _ (List.mem_singleton_self _)
  order := by
    rw [List.pairwise_append]
    refine ⟨ho.order.imp_of_mem fun hx hy hxy ↦
      hxy.step ho.past (ho.started _ hx) (ho.started _ hy) hs, List.pairwise_singleton _ _, ?_⟩
    -- Whoever had a turn before started before this action.
    intro x _ y hy th₁ th₂ hx hy₂
    rw [List.mem_singleton.mp hy, hi'] at hy₂
    obtain rfl := Option.some.inj hy₂
    have hbegan := past_step ho.past hs _ _ hx
    rw [Pool.now_of_step hs] at hbegan
    exact Nat.le_of_lt_succ hbegan

/-- **A step keeps the turns in order**, with one more turn if the action stands for its call. -/
theorem Ordered.step (ho : pts.Ordered s₀ ls P h) (hok : ok P l)
    (hs : P.step body perform l = some P') : ∃ h', pts.Ordered s₀ (ls ++ [l]) P' h' := by
  obtain ⟨t, hr, hrel⟩ := ho.replays
  obtain ⟨c, rfl, rfl⟩ | ⟨i, e, th, a, k, rfl, hi, hprog, hP'⟩ := Pool.step_cases hs
  · refine ⟨h, ho.same hs hr hrel fun j th hj ↦ ?_⟩
    rw [Pool.getElem?_spawn] at hj
    split_ifs at hj with hnew
    · obtain rfl := Option.some.inj hj
      refine .inl ⟨pts.pre_body c, fun hmem ↦ ?_⟩
      obtain ⟨x, hx, hxj⟩ := List.mem_map.mp hmem
      exact (ho.started x hx).ne (hxj.trans hnew)
    · exact ho.placed j th hj
  have hi' : P'.threads[i]? = some (th.next P.now a (k (perform th.call e a P.shared).1)) := by
    rw [hP', Pool.getElem?_move hi, if_pos rfl]
  have hshared : P'.shared = (perform th.call e a P.shared).2 := by rw [hP', Pool.shared_move]
  have hother : ∀ j th', P'.threads[j]? = some th' → j ≠ i → pts.Placed h j th' := by
    intro j th' hj hji
    rw [hP', Pool.getElem?_move hi, if_neg hji] at hj
    exact ho.placed j th' hj
  -- When no turn is added, only the thread that moved has to be placed again.
  have hsame : Rel t P'.shared →
      pts.Placed h i (th.next P.now a (k (perform th.call e a P.shared).1)) →
      ∃ h', pts.Ordered s₀ (ls ++ [.step i e]) P' h' := by
    intro hrel' hplaced
    refine ⟨h, ho.same hs hr hrel' fun j th' hj ↦ ?_⟩
    by_cases hji : j = i
    · rw [hji, hi'] at hj
      rw [hji, ← Option.some.inj hj]
      exact hplaced
    · exact hother j th' hj hji
  rw [hshared] at hsame
  rcases ho.placed i th hi with ⟨hpre, hno⟩ | ⟨x, hx, hxi, hcall, hpost⟩
  · rw [hprog] at hpre
    rcases pts.pre_act P i e th a k t hi hprog hok hpre hrel with ⟨hrel', hpre'⟩ |
      ⟨b, t', hexec, hrel', hpost⟩
    · exact hsame hrel' (.inl ⟨hpre', hno⟩)
    · exact ⟨_, ho.turn hs hi hi' hno hr hexec (hshared ▸ hrel') hpost hother⟩
  · rw [hprog] at hpost
    obtain ⟨hrel', hpost'⟩ := pts.post_act th.call x.out e a k P.shared t hpost hrel
    exact hsame hrel' (.inr ⟨x, hx, hxi, hcall, hpost'⟩)

/-- **The rule.** Runs of calls with linearization points are linearizable. -/
theorem linearizable (pts : LinearizationPoints body perform Rel ok) {P₀ : Pool σ C A R β}
    (h₀ : P₀.threads = []) (hrel : Rel P₀.shared P₀.shared)
    (hm : Meets (Pool.step body perform) ok P₀ ls)
    (hr : run (Pool.step body perform) P₀ ls = some P) :
    Linearizable body perform Rel P₀.shared ls P := by
  have hnew : pts.Ordered P₀.shared [] P₀ [] := by
    have hnone : ∀ (j : ℕ) (th : Thread C A R β), P₀.threads[j]? ≠ some th := by
      intro j th hj
      rw [h₀] at hj
      cases hj
    exact {
      replays := ⟨P₀.shared, rfl, hrel⟩
      nodup := List.nodup_nil
      placed := fun j th hj ↦ absurd hj (hnone j th)
      started := fun x hx ↦ absurd hx List.not_mem_nil
      past := fun j th hj ↦ absurd hj (hnone j th)
      during := fun x hx ↦ absurd hx List.not_mem_nil
      order := List.Pairwise.nil }
  obtain ⟨h, ho⟩ := run_history (Q := fun ls P ↦ ∃ h, pts.Ordered P₀.shared ls P h)
    (fun _ _ _ _ ⟨_, ho⟩ hok hs ↦ ho.step hok hs) ⟨[], hnew⟩ hm hr
  exact ⟨h, ho.linearizes⟩

end LinearizationPoints

end Interleave
