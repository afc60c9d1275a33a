import Shrt.Lib.Transition

/-!
# Programs of atomic actions

A call is a program: a tree of atomic actions in which each action depends on the replies to those
before it. One program has two meanings. `exec` runs it in one go. In a `Pool` it is one thread
among others: calls start at any time, and the next action of any thread may come at any time.

A thread keeps the actions it has done and when it did them. `Precedes` is the order of calls that
do not overlap.

What a step can do is said once (`step_cases`). A property of all threads is kept by a step if it is
established for a thread that starts, re-established by the thread that moves, and kept by the move
of another thread (`forall_threads_of_step`).
-/

namespace Interleave

/-! ## Programs -/

/-- A program that performs actions and returns a result. -/
inductive Prog (A : Type) (R : A → Type) (β : Type) : Type where
  | ret (b : β)
  | act (a : A) (k : R a → Prog A R β)

variable {A : Type} {R : A → Type} {β γ σ C E : Type}

namespace Prog

/-- One program after another. -/
protected def bind : Prog A R β → (β → Prog A R γ) → Prog A R γ
  | ret b, f => f b
  | act a k, f => act a fun r ↦ (k r).bind f

instance : Monad (Prog A R) where
  pure := ret
  bind := Prog.bind

/-- The program that performs one action. -/
def perform (a : A) : Prog A R (R a) := act a ret

@[simp] theorem pure_eq (b : β) : (pure b : Prog A R β) = ret b := rfl

@[simp] theorem ret_bind (b : β) (f : β → Prog A R γ) : ret b >>= f = f b := rfl

@[simp] theorem act_bind (a : A) (k : R a → Prog A R β) (f : β → Prog A R γ) :
    act a k >>= f = act a fun r ↦ k r >>= f := rfl

@[simp] theorem perform_bind (a : A) (f : R a → Prog A R γ) : perform a >>= f = act a f := rfl

/-- Run a program in one go. -/
def exec (f : (a : A) → σ → R a × σ) : Prog A R β → σ → β × σ
  | ret b, s => (b, s)
  | act a k, s => exec f (k (f a s).1) (f a s).2

variable {f : (a : A) → σ → R a × σ}

@[simp] theorem exec_ret (b : β) (s : σ) : exec f (ret b) s = (b, s) := rfl

@[simp] theorem exec_act (a : A) (k : R a → Prog A R β) (s : σ) :
    exec f (act a k) s = exec f (k (f a s).1) (f a s).2 := rfl

@[simp] theorem exec_perform (a : A) (s : σ) : exec f (perform a) s = f a s := rfl

theorem exec_bind (p : Prog A R β) (g : β → Prog A R γ) (s : σ) :
    exec f (p >>= g) s = exec f (g (exec f p s).1) (exec f p s).2 := by
  induction p generalizing s with
  | ret b => rfl
  | act a k ih => exact ih _ _

theorem bind_assoc {δ : Type} (p : Prog A R β) (g : β → Prog A R γ) (h : γ → Prog A R δ) :
    p >>= g >>= h = p >>= fun b ↦ g b >>= h := by
  induction p with
  | ret b => rfl
  | act a k ih => exact congrArg (act a) (funext ih)

/-- A program of one action, followed by another: performing the action is running the first. -/
theorem act_ret_bind_eq_act {a a' : A} {g : R a → β} {p : β → Prog A R γ} {k : R a' → Prog A R γ}
    (h : (act a fun r ↦ ret (g r)) >>= p = act a' k) (s : σ) :
    k (f a' s).1 = p (exec f (act a fun r ↦ ret (g r)) s).1 ∧
      (f a' s).2 = (exec f (act a fun r ↦ ret (g r)) s).2 := by
  obtain ⟨rfl, hk⟩ := act.inj h
  obtain rfl := eq_of_heq hk
  exact ⟨rfl, rfl⟩

/-- Whatever the replies, a program performs such actions only. -/
def Only (ok : A → Prop) : Prog A R β → Prop
  | ret _ => True
  | act a k => ok a ∧ ∀ r, (k r).Only ok

variable {ok : A → Prop} {p : Prog A R β}

theorem Only.bind {g : β → Prog A R γ} (hp : p.Only ok) (hg : ∀ b, (g b).Only ok) :
    (p >>= g).Only ok := by
  induction p with
  | ret b => exact hg b
  | act a k ih => exact ⟨hp.1, fun r ↦ ih r (hp.2 r)⟩

theorem Only.mono {ok' : A → Prop} (h : ∀ a, ok a → ok' a) (hp : p.Only ok) : p.Only ok' := by
  induction p with
  | ret b => trivial
  | act a k ih => exact ⟨h a hp.1, fun r ↦ ih r (hp.2 r)⟩

/-- A program keeps what its actions keep. -/
theorem Only.exec {I : σ → Prop} (hstep : ∀ a s, ok a → I s → I (f a s).2) (hp : p.Only ok) {s : σ}
    (h : I s) : I (p.exec f s).2 := by
  induction p generalizing s with
  | ret b => exact h
  | act a k ih => exact ih _ (hp.2 _) (hstep a s hp.1 h)

end Prog

/-! ## Threads -/

/-- A call that has started. -/
structure Thread (C A : Type) (R : A → Type) (β : Type) where
  call : C
  /-- When it started. -/
  began : ℕ
  /-- What is left to do. -/
  prog : Prog A R β
  /-- What it has done and when, the latest first. -/
  done : List (ℕ × A) := []

namespace Thread

variable (th : Thread C A R β)

/-- What a call has returned. -/
def result : Option β := match th.prog with
  | .ret b => some b
  | .act _ _ => none

/-- When a thread moved last. -/
def last : ℕ := match th.done with
  | [] => th.began
  | d :: _ => d.1

/-- The thread after an action. -/
def next (now : ℕ) (a : A) (p : Prog A R β) : Thread C A R β :=
  { th with prog := p, done := (now, a) :: th.done }

@[simp] theorem call_next (now : ℕ) (a : A) (p : Prog A R β) : (th.next now a p).call = th.call := rfl

@[simp] theorem began_next (now : ℕ) (a : A) (p : Prog A R β) :
    (th.next now a p).began = th.began := rfl

@[simp] theorem prog_next (now : ℕ) (a : A) (p : Prog A R β) : (th.next now a p).prog = p := rfl

@[simp] theorem done_next (now : ℕ) (a : A) (p : Prog A R β) :
    (th.next now a p).done = (now, a) :: th.done := rfl

@[simp] theorem last_next (now : ℕ) (a : A) (p : Prog A R β) : (th.next now a p).last = now := rfl

theorem result_eq_some {b : β} : th.result = some b ↔ th.prog = .ret b := by
  rw [result]
  cases th.prog with
  | ret b' => simp
  | act a k => simp

/-- A thread started and moved before a time, and it moved last when it says. -/
def Stamped (now : ℕ) : Prop := th.began < now ∧ ∀ d ∈ th.done, d.1 ≤ th.last ∧ d.1 < now

/-- One call returned before the other started. -/
def Precedes (th th' : Thread C A R β) : Prop := th.result.isSome ∧ th.last < th'.began

instance (th th' : Thread C A R β) : Decidable (th.Precedes th') := inferInstanceAs (Decidable (_ ∧ _))

end Thread

/-- Calls that run at the same time. -/
structure Pool (σ C A : Type) (R : A → Type) (β : Type) where
  shared : σ
  now : ℕ := 0
  threads : List (Thread C A R β) := []

/-- What happens next: a call starts, or a thread performs its next action. The environment decides
what the action depends on besides the state. -/
inductive Label (C E : Type) where
  | start (c : C)
  | step (i : ℕ) (e : E)

namespace Pool

/-- A call starts. -/
def spawn (P : Pool σ C A R β) (c : C) (p : Prog A R β) : Pool σ C A R β :=
  { P with now := P.now + 1, threads := P.threads ++ [{ call := c, began := P.now, prog := p }] }

/-- A thread performs an action. -/
def move (P : Pool σ C A R β) (i : ℕ) (th : Thread C A R β) (a : A) (p : Prog A R β) (s : σ) :
    Pool σ C A R β :=
  { shared := s, now := P.now + 1, threads := P.threads.set i (th.next P.now a p) }

/-- The system: what each call does, and what each action of a call does. -/
def step (body : C → Prog A R β) (perform : C → E → (a : A) → σ → R a × σ)
    (P : Pool σ C A R β) : Label C E → Option (Pool σ C A R β)
  | .start c => some (P.spawn c (body c))
  | .step i e => match P.threads[i]? with
    | none => none
    | some th => match th.prog with
      | .ret _ => none
      | .act a k =>
        some (P.move i th a (k (perform th.call e a P.shared).1) (perform th.call e a P.shared).2)

variable {body : C → Prog A R β} {perform : C → E → (a : A) → σ → R a × σ}
  {P P' : Pool σ C A R β} {l : Label C E}

/-- **What a step can do.** -/
theorem step_cases (h : P.step body perform l = some P') :
    (∃ c, l = .start c ∧ P' = P.spawn c (body c)) ∨
    ∃ i e th a k, l = .step i e ∧ P.threads[i]? = some th ∧ th.prog = .act a k ∧
      P' = P.move i th a (k (perform th.call e a P.shared).1) (perform th.call e a P.shared).2 := by
  cases l with
  | start c => exact .inl ⟨c, rfl, (Option.some.inj h).symm⟩
  | step i e =>
    rw [step] at h
    split at h
    · cases h
    next th hth =>
      split at h
      · cases h
      next a k hprog => exact .inr ⟨i, e, th, a, k, rfl, hth, hprog, (Option.some.inj h).symm⟩

theorem now_of_step (h : P.step body perform l = some P') : P'.now = P.now + 1 := by
  obtain ⟨c, rfl, rfl⟩ | ⟨i, e, th, a, k, rfl, hi, hprog, rfl⟩ := step_cases h
  · rfl
  · rfl

@[simp] theorem now_spawn (c : C) (p : Prog A R β) : (P.spawn c p).now = P.now + 1 := rfl

@[simp] theorem shared_spawn (c : C) (p : Prog A R β) : (P.spawn c p).shared = P.shared := rfl

@[simp] theorem now_move (i : ℕ) (th : Thread C A R β) (a : A) (p : Prog A R β) (s : σ) :
    (P.move i th a p s).now = P.now + 1 := rfl

@[simp] theorem shared_move (i : ℕ) (th : Thread C A R β) (a : A) (p : Prog A R β) (s : σ) :
    (P.move i th a p s).shared = s := rfl

@[simp] theorem length_spawn (c : C) (p : Prog A R β) :
    (P.spawn c p).threads.length = P.threads.length + 1 := by
  rw [spawn, List.length_append, List.length_singleton]

@[simp] theorem length_move (i : ℕ) (th : Thread C A R β) (a : A) (p : Prog A R β) (s : σ) :
    (P.move i th a p s).threads.length = P.threads.length := by
  rw [move, List.length_set]

theorem length_le_of_step (h : P.step body perform l = some P') :
    P.threads.length ≤ P'.threads.length := by
  obtain ⟨c, rfl, rfl⟩ | ⟨i, e, th, a, k, rfl, hi, hprog, rfl⟩ := step_cases h
  · rw [length_spawn]
    exact Nat.le_succ _
  · rw [length_move]

theorem getElem?_spawn (c : C) (p : Prog A R β) (j : ℕ) : (P.spawn c p).threads[j]? =
    if j = P.threads.length then some { call := c, began := P.now, prog := p }
    else P.threads[j]? := by
  rw [spawn]
  rcases lt_trichotomy j P.threads.length with hlt | rfl | hgt
  · rw [List.getElem?_append_left hlt, if_neg hlt.ne]
  · simp
  · have hout : P.threads.length + 1 ≤ j := hgt
    rw [if_neg hgt.ne', List.getElem?_eq_none hgt.le, List.getElem?_eq_none]
    rwa [List.length_append, List.length_singleton]

theorem getElem?_move {i : ℕ} {th : Thread C A R β} (hth : P.threads[i]? = some th) (a : A)
    (p : Prog A R β) (s : σ) (j : ℕ) : (P.move i th a p s).threads[j]? =
      if j = i then some (th.next P.now a p) else P.threads[j]? := by
  obtain ⟨hi, -⟩ := List.getElem?_eq_some_iff.mp hth
  rw [move, List.getElem?_set, if_pos hi]
  exact if_congr eq_comm rfl rfl

/-- **The rule for threads.** -/
theorem forall_threads_of_step {T T' : ℕ → Thread C A R β → Prop}
    (h : P.step body perform l = some P') (hP : ∀ j th, P.threads[j]? = some th → T j th)
    (hstart : ∀ c, l = .start c → P' = P.spawn c (body c) →
      T' P.threads.length { call := c, began := P.now, prog := body c })
    (hmove : ∀ i e th a k, l = .step i e → P.threads[i]? = some th → th.prog = .act a k → T i th →
      P' = P.move i th a (k (perform th.call e a P.shared).1) (perform th.call e a P.shared).2 →
      T' i (th.next P.now a (k (perform th.call e a P.shared).1)))
    (hother : ∀ j th, P.threads[j]? = some th → T j th → (∀ e, l ≠ .step j e) → T' j th) :
    ∀ j th, P'.threads[j]? = some th → T' j th := by
  intro j th hj
  obtain ⟨c, rfl, rfl⟩ | ⟨i, e, th₀, a, k, rfl, hi, hprog, rfl⟩ := step_cases h
  · rw [getElem?_spawn] at hj
    split_ifs at hj with heq
    · rw [← Option.some.inj hj, heq]
      exact hstart c rfl rfl
    · exact hother j th hj (hP j th hj) (fun _ hl ↦ nomatch hl)
  · rw [getElem?_move hi] at hj
    split_ifs at hj with heq
    · rw [← Option.some.inj hj, heq]
      exact hmove i e th₀ a k rfl hi hprog (hP i th₀ hi) rfl
    · refine hother j th hj (hP j th hj) fun e' hl ↦ heq ?_
      injection hl with hij
      exact hij.symm

theorem stamped_of_step (h : P.step body perform l = some P')
    (hP : ∀ (j : ℕ) (th : Thread C A R β), P.threads[j]? = some th → th.Stamped P.now) :
    ∀ (j : ℕ) (th : Thread C A R β), P'.threads[j]? = some th → th.Stamped P'.now := by
  rw [now_of_step h]
  refine forall_threads_of_step h hP (fun c _ _ ↦ ?_) ?_ ?_
  · exact ⟨Nat.lt_succ_self _, fun d hd ↦ absurd hd List.not_mem_nil⟩
  · intro i e th a k _ _ _ hth _
    refine ⟨Nat.lt_succ_of_lt hth.1, fun d hd ↦ ?_⟩
    rcases List.mem_cons.mp hd with rfl | hd
    · exact ⟨Nat.le_refl _, Nat.lt_succ_self _⟩
    · exact ⟨(hth.2 d hd).2.le, Nat.lt_succ_of_lt (hth.2 d hd).2⟩
  · intro j th _ hth _
    exact ⟨Nat.lt_succ_of_lt hth.1, fun d hd ↦ ⟨(hth.2 d hd).1, Nat.lt_succ_of_lt (hth.2 d hd).2⟩⟩

/-- Every thread is left with actions that its call allows. -/
def Within (ok : C → A → Prop) (P : Pool σ C A R β) : Prop :=
  ∀ (j : ℕ) (th : Thread C A R β), P.threads[j]? = some th → th.prog.Only (ok th.call)

theorem Within.step {ok : C → A → Prop} (hbody : ∀ c, (body c).Only (ok c)) (hP : P.Within ok)
    (h : P.step body perform l = some P') : P'.Within ok := by
  refine forall_threads_of_step (T := fun _ th ↦ th.prog.Only (ok th.call)) h hP ?_ ?_ ?_
  · exact fun c _ _ ↦ hbody c
  · intro i e th a k _ _ hprog hth _
    rw [hprog] at hth
    exact hth.2 _
  · exact fun _ _ _ hth _ ↦ hth

/-- What becomes of a thread in a step: nothing, or it moves. -/
theorem thread_of_step {j : ℕ} {th : Thread C A R β} (h : P.step body perform l = some P')
    (hj : P.threads[j]? = some th) : P'.threads[j]? = some th ∨
      ∃ e a k, l = .step j e ∧ th.prog = .act a k ∧
        P'.threads[j]? = some (th.next P.now a (k (perform th.call e a P.shared).1)) := by
  have hlt : j < P.threads.length := (List.getElem?_eq_some_iff.mp hj).1
  obtain ⟨c, rfl, rfl⟩ | ⟨i, e, th₀, a, k, rfl, hi, hprog, rfl⟩ := step_cases h
  · rw [getElem?_spawn, if_neg hlt.ne]
    exact .inl hj
  · rw [getElem?_move hi]
    split_ifs with heq
    · rw [heq, hi] at hj
      obtain rfl := Option.some.inj hj
      exact .inr ⟨e, a, k, by rw [heq], hprog, rfl⟩
    · exact .inl hj

/-- Where a thread comes from: it has just started, or it was there and perhaps moved. -/
theorem thread_origin {j : ℕ} {th' : Thread C A R β} (h : P.step body perform l = some P')
    (hj : P'.threads[j]? = some th') : (j = P.threads.length ∧ th'.began = P.now) ∨
      ∃ th, P.threads[j]? = some th ∧ th'.call = th.call ∧ th'.began = th.began ∧
        (th'.last = th.last ∨ th'.last = P.now) := by
  obtain ⟨c, rfl, rfl⟩ | ⟨i, e, th, a, k, rfl, hi, hprog, rfl⟩ := step_cases h
  · rw [getElem?_spawn] at hj
    split_ifs at hj with heq
    · obtain rfl := Option.some.inj hj
      exact .inl ⟨heq, rfl⟩
    · exact .inr ⟨th', hj, rfl, rfl, .inl rfl⟩
  · rw [getElem?_move hi] at hj
    split_ifs at hj with heq
    · obtain rfl := Option.some.inj hj
      exact .inr ⟨th, heq ▸ hi, rfl, rfl, .inr rfl⟩
    · exact .inr ⟨th', hj, rfl, rfl, .inl rfl⟩

end Pool

end Interleave
