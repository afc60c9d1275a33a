import Shrt.Backend.Node

/-!
# Reading one's own mutation

`resolve` asks the backend and fills the cache in two steps, `update` and `remove` write to the
backend and invalidate the cache in two steps, and nothing keeps a fill from coming after the
invalidation. What a `resolve` has fetched before the write is then in the cache for good.

Here the calls run at the same time on one node, over any backend (`Service`). When no fill is that
late (`Timely`), a `resolve` that starts after a mutation of its code has returned does not return a
url that the backend has not held since the write of the mutation (`not_stale`).

The argument follows one url of one code. A `resolve` that is innocent of it neither returns it nor
puts it into the cache, unless it finds it in the cache or fetches it from the backend (`Innocent`).
-/

namespace Shrt.Backend

open Interleave (Prog Pool Label Thread)
open Interleave.Prog (Only)
open Transition (run Meets)

/-- What is asked of the node. -/
inductive Call where
  | resolve (code : Bytes) (clk : Clock)
  | update (code url : Bytes) (ttl : Int64) (hasTtl : Bool) (clk : Clock)
  | remove (code : Bytes)

/-- The code that a call changes. -/
def Call.mutated : Call → Option Bytes
  | .resolve _ _ => none
  | .update code _ _ _ _ => some code
  | .remove code => some code

/-- The code that a call resolves. -/
def Call.resolved : Call → Option Bytes
  | .resolve code _ => some code
  | .update _ _ _ _ _ | .remove _ => none

/-- A backend as a node sees it. -/
structure Service (E Q : Type) (R : Q → Type) (δ : Type) where
  ord : E → Order
  serve : E → (q : Q) → δ → R q × δ
  /-- The queries of `resolve` for a code. -/
  fetches : Bytes → Q → Bool
  /-- The value in a reply. -/
  shows : (q : Q) → R q → Option Bytes
  /-- The queries that change the row of a code. -/
  writes : Bytes → Q → Bool
  /-- The value of a code. -/
  stored : δ → Bytes → Option Bytes
  /-- What is fetched is what is stored. -/
  stored_of_shows : ∀ {e q db c row}, fetches c q = true →
    (shows q (serve e q db).1).bind dec = some row → (stored db c).bind dec = some row

variable {E Q δ : Type} {R : Q → Type}

/-- Whether an action fills the cache with a code. -/
def fills (c : Bytes) : Act Q → Bool
  | .cachePut c' _ _ _ => c' = c
  | _ => false

/-- Whether an action takes a code from the cache. -/
def invalidates (c : Bytes) : Act Q → Bool
  | .cacheDel c' => c' = c
  | _ => false

/-- The code that a node is about to fill the cache with. -/
def pendingFill {β : Type} : NodeProg R β → Option Bytes
  | .act (.cachePut c _ _ _) _ => some c
  | _ => none

namespace Service

variable (S : Service E Q R δ)

/-- The url of a code. -/
def url (db : δ) (c : Bytes) : Option Bytes := ((S.stored db c).bind dec).map Row.u

/-- Whether an action asks for a code. -/
def fetch (c : Bytes) : Act Q → Bool
  | .query q => S.fetches c q
  | _ => false

/-- Whether an action changes the row of a code. -/
def write (c : Bytes) : Act Q → Bool
  | .query q => S.writes c q
  | _ => false

/-- Whether a node is about to change the row of a code. -/
def pendingWrite (c : Bytes) {β : Type} : NodeProg R β → Bool
  | .act a _ => S.write c a
  | .ret _ => false

/-- The url is found in the cache. -/
def Found (c u : Bytes) : (a : Act Q) → a.Reply R → Prop
  | .cacheGet c' _, r => c' = c ∧ r = some u
  | _, _ => False

/-- The url is fetched from the backend. -/
def Fetched (c u : Bytes) : (a : Act Q) → a.Reply R → Prop
  | .query q, r => S.fetches c q = true ∧ ∃ row, (S.shows q r).bind dec = some row ∧ row.u = u
  | _, _ => False

/-- What is left does not return the url and does not put it into the cache, unless it gets to know
it. What it finds in the cache it does not put there again. -/
def Innocent (c u : Bytes) : NodeProg R Out → Prop
  | .ret b => b ≠ .url (some u)
  | .act a k => (∀ e t, a ≠ .cachePut c u e t) ∧ ∀ r, Innocent c u (k r) ∨
      (Found c u a r ∧ (k r).Only fun a ↦ fills c a = false) ∨ S.Fetched c u a r

/-- What is left does not succeed before it has taken the code from the cache, and does not change
the row after that. -/
def Mutates (c : Bytes) : NodeProg R Out → Prop
  | .ret b => b ≠ .result .ok
  | .act a k => (invalidates c a = true ∧ ∀ r, (k r).Only fun a ↦ S.write c a = false) ∨
      ∀ r, Mutates c (k r)

end Service

/-- The calls of a node as programs. -/
structure Serving (S : Service E Q R δ) where
  body : Call → NodeProg R Out
  innocent : ∀ call c u, call.resolved = some c → S.Innocent c u (body call)
  only_fills : ∀ call c, call.resolved ≠ some c → (body call).Only fun a ↦ fills c a = false
  mutates : ∀ call c, call.mutated = some c → S.Mutates c (body call)

/-- A call that runs. -/
abbrev CallThread {Q : Type} (R : Q → Type) := Thread Call (Act Q) (Act.Reply R) Out

/-- The node and the backend, and the calls that run. -/
abbrev CallPool {Q : Type} (R : Q → Type) (δ : Type) := Pool (Node × δ) Call (Act Q) (Act.Reply R) Out

variable {S : Service E Q R δ}

/-- What may happen next: a call starts, or one takes a step. -/
def Serving.step (V : Serving S) (cfg : Config) : CallPool R δ → Label Call E → Option (CallPool R δ) :=
  Pool.step V.body fun _ e ↦ act cfg (S.ord e) (S.serve e)

/-- The condition: when a fill comes after a mutation of the code has invalidated the cache, what is
filled in was fetched after the write of that mutation. -/
def Timely (S : Service E Q R δ) (P : CallPool R δ) : Label Call E → Prop
  | .start _ => True
  | .step i _ => ∀ th ∈ P.threads[i]?, ∀ c ∈ pendingFill th.prog, ∀ m ∈ P.threads,
      (m.done.any fun d ↦ invalidates c d.2) → ∀ w ∈ m.done, S.write c w.2 → ∀ f ∈ th.done,
      S.fetch c f.2 → w.1 < f.1

instance (P : CallPool R δ) : DecidablePred (Timely S P)
  | .start _ => inferInstanceAs (Decidable True)
  | .step _ _ => inferInstanceAs (Decidable (∀ th ∈ _, ∀ c ∈ _, ∀ m ∈ _, _ → ∀ w ∈ _, _ → ∀ f ∈ _,
      _ → _))

/-! ## Replies -/

variable {c u : Bytes} {cfg : Config} {e : E} {s : Node × δ} {a : Act Q}

theorem cached_of_found {ord : Order} {serve : (q : Q) → δ → R q × δ}
    (h : Service.Found c u a (act cfg ord serve a s).1) :
    ∃ it, s.1.cached c = some it ∧ it.u = u := by
  cases a with
  | cacheGet c' now =>
    obtain ⟨rfl, hget⟩ := h
    obtain ⟨it, hit, hu, -⟩ := Node.cached_of_cacheGet_eq_some hget
    exact ⟨it, hit, hu⟩
  | cachePut _ _ _ _ | cacheDel _ | bump _ | pending _ | pendingEntry _ | drain _ | query _ =>
    exact h.elim

theorem url_of_fetched (h : S.Fetched c u a (act cfg (S.ord e) (S.serve e) a s).1) :
    S.url s.2 c = some u := by
  cases a with
  | query q =>
    obtain ⟨hq, row, hrow, hu⟩ := h
    rw [Service.url, S.stored_of_shows hq hrow, Option.map_some, hu]
  | cacheGet _ _ | cachePut _ _ _ _ | cacheDel _ | bump _ | pending _ | pendingEntry _ | drain _ =>
    exact h.elim

theorem fetch_of_fetched {r : a.Reply R} (h : S.Fetched c u a r) : S.fetch c a = true := by
  cases a with
  | query q => exact h.1
  | cacheGet _ _ | cachePut _ _ _ _ | cacheDel _ | bump _ | pending _ | pendingEntry _ | drain _ =>
    exact h.elim

/-- What is cached after an action was cached before, or the action has put it there. -/
theorem cached_of_act {ord : Order} {serve : (q : Q) → δ → R q × δ} {it : KvEntry}
    (h : (act cfg ord serve a s).2.1.cached c = some it) :
    s.1.cached c = some it ∨ ∃ t, a = .cachePut c it.u it.e t := by
  cases a with
  | cacheGet c' now => exact .inl (Node.cached_of_cacheGet h)
  | cachePut c' u e now =>
    rcases Node.cached_of_cachePut h with ⟨rfl, rfl⟩ | h
    · exact .inr ⟨now, rfl⟩
    · exact .inl h
  | cacheDel c' => exact .inl (Node.cached_of_cacheDel h)
  | bump _ | pending _ | pendingEntry _ | drain _ | query _ => exact .inl h

theorem cached_of_invalidates {ord : Order} {serve : (q : Q) → δ → R q × δ}
    (h : invalidates c a = true) : (act cfg ord serve a s).2.1.cached c = none := by
  cases a with
  | cacheDel c' =>
    obtain rfl := of_decide_eq_true h
    exact Node.cached_cacheDel_self
  | cacheGet _ _ | cachePut _ _ _ _ | bump _ | pending _ | pendingEntry _ | drain _ | query _ => cases h

theorem invalidates_of_write (h : S.write c a = true) : invalidates c a = false := by
  cases a with
  | query q => rfl
  | cacheGet _ _ | cachePut _ _ _ _ | cacheDel _ | bump _ | pending _ | pendingEntry _ | drain _ =>
    cases h

/-! ## Threads -/

variable {V : Serving S} {τ : ℕ} {th : CallThread R} {k : a.Reply R → NodeProg R Out}

/-- What holds of every thread: it is innocent of the url, or it does not fill the cache with the
code, or it has asked the backend for the code before a time; and it succeeds in changing the code
only after it has invalidated it. -/
structure Tame (S : Service E Q R δ) (c u : Bytes) (τ : ℕ) (th : CallThread R) : Prop where
  fill : (th.call.resolved = some c ∧ S.Innocent c u th.prog) ∨
    (th.prog.Only fun a ↦ fills c a = false) ∨ ∃ f ∈ th.done, S.fetch c f.2 = true ∧ f.1 < τ
  mutates : th.call.mutated = some c →
    S.Mutates c th.prog ∨ th.prog.Only fun a ↦ S.write c a = false

theorem tame_start (V : Serving S) (c u : Bytes) (τ now : ℕ) (call : Call) :
    Tame S c u τ { call, began := now, prog := V.body call } := by
  refine ⟨?_, fun hc ↦ .inl (V.mutates call c hc)⟩
  by_cases hcall : call.resolved = some c
  · exact .inl ⟨hcall, V.innocent call c u hcall⟩
  · exact .inr (.inl (V.only_fills call c hcall))

theorem Tame.next (h : Tame S c u τ th) (hprog : th.prog = .act a k) (r : a.Reply R) {now τ' : ℕ}
    (hle : τ ≤ τ') (hfetched : th.call.resolved = some c → S.Fetched c u a r → now < τ') :
    Tame S c u τ' (th.next now a (k r)) := by
  obtain ⟨hfill, hmutates⟩ := h
  rw [hprog] at hfill hmutates
  refine ⟨?_, fun hc ↦ ?_⟩
  · obtain ⟨hcall, hinnocent⟩ | honly | ⟨f, hf, hfetch, hlt⟩ := hfill
    · obtain h | ⟨-, h⟩ | h := hinnocent.2 r
      · exact .inl ⟨hcall, h⟩
      · exact .inr (.inl h)
      · exact .inr (.inr ⟨_, List.mem_cons_self, fetch_of_fetched h, hfetched hcall h⟩)
    · exact .inr (.inl (honly.2 r))
    · exact .inr (.inr ⟨f, List.mem_cons_of_mem _ hf, hfetch, hlt.trans_le hle⟩)
  · obtain (⟨-, h⟩ | h) | h := hmutates hc
    · exact .inr (h r)
    · exact .inl (h r)
    · exact .inr (h.2 r)

/-! ## Before the write -/

variable {P P' : CallPool R δ} {l : Label Call E} {i₀ w₀ : ℕ}

/-- The threads are tame and stamped. -/
def Orderly (S : Service E Q R δ) (c u : Bytes) (τ : ℕ) (P : CallPool R δ) : Prop :=
  ∀ (j : ℕ) (th : CallThread R), P.threads[j]? = some th → Tame S c u τ th ∧ th.Stamped P.now

theorem Orderly.step (h : Orderly S c u τ P) {τ' : ℕ} (hle : τ ≤ τ')
    (hurl : ∀ i e th, l = .step i e → P.threads[i]? = some th → th.call.resolved = some c →
      S.url P.shared.2 c = some u → P.now < τ')
    (hstep : V.step cfg P l = some P') : Orderly S c u τ' P' := by
  have hstamped := Pool.stamped_of_step hstep fun j th hj ↦ (h j th hj).2
  refine fun j th hj ↦ ⟨?_, hstamped j th hj⟩
  revert j th hj
  refine Pool.forall_threads_of_step (T := fun _ th ↦ Tame S c u τ th) hstep
    (fun j th hj ↦ (h j th hj).1) (fun call _ _ ↦ tame_start V c u τ' P.now call) ?_ ?_
  · intro i e th a k hl hi hprog hth _
    exact hth.next hprog _ hle fun hcall hfetched ↦
      hurl i e th hl hi hcall (url_of_fetched hfetched)
  · intro j th _ hth _
    obtain ⟨hfill, hmutates⟩ := hth
    refine ⟨hfill.imp_right (Or.imp_right ?_), hmutates⟩
    rintro ⟨f, hf, hfetch, hlt⟩
    exact ⟨f, hf, hfetch, hlt.trans_le hle⟩

/-- Whatever happens, whoever has asked for the code has done so before now. -/
theorem orderly_of_run {labels : List (Label Call E)} {n : Node} {db : δ}
    (hrun : run (V.step cfg) { shared := (n, db) } labels = some P) : Orderly S c u P.now P := by
  refine Transition.run_invariant (P := fun P : CallPool R δ ↦ Orderly S c u P.now P) ?_
    (fun j th hj ↦ ?_) (Transition.meets_of_forall (q := fun _ ↦ True) (fun _ _ ↦ trivial) _) hrun
  · intro P l P' h _ hstep
    have hnow : P'.now = P.now + 1 := Pool.now_of_step hstep
    rw [hnow]
    exact h.step (Nat.le_succ _) (fun _ _ _ _ _ _ _ ↦ Nat.lt_succ_self _) hstep
  · cases hj

/-! ## After the write -/

/-- The mutation has invalidated the cache since its write. -/
def Gone (c : Bytes) (w₀ : ℕ) (m : CallThread R) : Prop :=
  ∃ d ∈ m.done, invalidates c d.2 = true ∧ w₀ < d.1

/-- What holds since the write of a mutation: from its invalidation on, the url is not in the cache,
and the calls that start then are innocent of it. -/
structure Watched (S : Service E Q R δ) (c u : Bytes) (i₀ w₀ : ℕ) (P : CallPool R δ) : Prop where
  orderly : Orderly S c u w₀ P
  mutation : ∃ m, P.threads[i₀]? = some m ∧ (∃ w ∈ m.done, S.write c w.2 = true ∧ w.1 = w₀) ∧
    (S.Mutates c m.prog ∨ Gone c w₀ m)
  gone : ∀ m, P.threads[i₀]? = some m → Gone c w₀ m →
    ∀ it, P.shared.1.cached c = some it → it.u ≠ u
  later : ∀ (m : CallThread R) (j : ℕ) (th : CallThread R), P.threads[i₀]? = some m →
    P.threads[j]? = some th → (∃ d ∈ m.done, invalidates c d.2 = true ∧ w₀ < d.1 ∧ d.1 < th.began) →
    th.call.resolved = some c → S.Innocent c u th.prog

/-- A thread that is about to fill the cache with the url has asked for it before the write. -/
theorem Tame.fetched_of_fill {e t : Int64} {k : Unit → NodeProg R Out} (h : Tame S c u τ th)
    (hprog : th.prog = .act (.cachePut c u e t) k) :
    ∃ f ∈ th.done, S.fetch c f.2 = true ∧ f.1 < τ := by
  obtain ⟨-, hinnocent⟩ | honly | h := h.fill
  · rw [hprog] at hinnocent
    exact absurd rfl (hinnocent.1 e t)
  · rw [hprog] at honly
    exact absurd (decide_eq_false_iff_not.mp honly.1) (not_not_intro rfl)
  · exact h

theorem Watched.gone_step (h : Watched S c u i₀ w₀ P) (hok : Timely S P l)
    (hstep : V.step cfg P l = some P') {m' : CallThread R} (hm' : P'.threads[i₀]? = some m')
    (hgone : Gone c w₀ m') {it : KvEntry} (hit : P'.shared.1.cached c = some it) : it.u ≠ u := by
  obtain ⟨m, hm, ⟨w, hw, hwrite, rfl⟩, -⟩ := h.mutation
  by_cases hbefore : Gone c w.1 m
  · -- It was gone before: only a late fill could bring it back.
    obtain ⟨call, rfl, rfl⟩ | ⟨i, e, th, a, k, rfl, hth, hprog, rfl⟩ := Pool.step_cases hstep
    · exact h.gone m hm hbefore it hit
    · rcases cached_of_act hit with hit | ⟨t, rfl⟩
      · exact h.gone m hm hbefore it hit
      · rintro rfl
        obtain ⟨f, hf, hfetch, hlt⟩ := (h.orderly i th hth).1.fetched_of_fill hprog
        have hany : (m.done.any fun d ↦ invalidates c d.2) = true := by
          obtain ⟨d, hd, hdel, -⟩ := hbefore
          exact List.any_eq_true.mpr ⟨d, hd, hdel⟩
        have hfill : c ∈ pendingFill th.prog := by
          rw [hprog]
          rfl
        have hlate := hok th hth c hfill m (List.mem_of_getElem? hm) hany w hw hwrite f hf hfetch
        exact absurd hlt hlate.not_gt
  · -- It goes now.
    rcases Pool.thread_of_step hstep hm with hsame | ⟨e, a, k, rfl, hprog, hmoved⟩
    · obtain rfl := Option.some.inj (hsame.symm.trans hm')
      exact absurd hgone hbefore
    · obtain rfl := Option.some.inj (hmoved.symm.trans hm')
      obtain ⟨d, hd, hdel, hlt⟩ := hgone
      rcases List.mem_cons.mp hd with rfl | hd
      · obtain ⟨call, hl, -⟩ | ⟨i, e', th, a', k', hl, hth, hprog', rfl⟩ := Pool.step_cases hstep
        · cases hl
        · obtain ⟨rfl, rfl⟩ := Label.step.inj hl
          obtain rfl := Option.some.inj (hm.symm.trans hth)
          obtain ⟨rfl, -⟩ := Prog.act.inj (hprog.symm.trans hprog')
          exact absurd (hit.symm.trans (cached_of_invalidates hdel)) (Option.some_ne_none _)
      · exact absurd ⟨d, hd, hdel, hlt⟩ hbefore

theorem Watched.later_step (h : Watched S c u i₀ w₀ P) (hurl : S.url P.shared.2 c ≠ some u)
    (hstep : V.step cfg P l = some P') {m' : CallThread R} (hm' : P'.threads[i₀]? = some m') :
    ∀ (j : ℕ) (th : CallThread R), P'.threads[j]? = some th →
      (∃ d ∈ m'.done, invalidates c d.2 = true ∧ w₀ < d.1 ∧ d.1 < th.began) →
      th.call.resolved = some c → S.Innocent c u th.prog := by
  obtain ⟨m, hm, -⟩ := h.mutation
  -- What was invalidated before a thread began was invalidated before this step.
  have hbefore (th : CallThread R) (hth : th.Stamped P.now)
      (hd : ∃ d ∈ m'.done, invalidates c d.2 = true ∧ w₀ < d.1 ∧ d.1 < th.began) :
      ∃ d ∈ m.done, invalidates c d.2 = true ∧ w₀ < d.1 ∧ d.1 < th.began := by
    obtain ⟨d, hmem, hdel, hlt, hbegan⟩ := hd
    rcases Pool.thread_of_step hstep hm with hsame | ⟨e, a, k, -, -, hmoved⟩
    · obtain rfl := Option.some.inj (hsame.symm.trans hm')
      exact ⟨d, hmem, hdel, hlt, hbegan⟩
    · obtain rfl := Option.some.inj (hmoved.symm.trans hm')
      rcases List.mem_cons.mp hmem with rfl | hmem
      · exact absurd hth.1 hbegan.not_gt
      · exact ⟨d, hmem, hdel, hlt, hbegan⟩
  refine Pool.forall_threads_of_step (T := fun _ th ↦ th.Stamped P.now ∧
      ((∃ d ∈ m.done, invalidates c d.2 = true ∧ w₀ < d.1 ∧ d.1 < th.began) →
        th.call.resolved = some c → S.Innocent c u th.prog)) hstep
    (fun j th hj ↦ ⟨(h.orderly j th hj).2, h.later m j th hm hj⟩) ?_ ?_ ?_
  · rintro call - - - hcall
    exact V.innocent call c u hcall
  · rintro i e th a k - - hprog ⟨hstamped, hth⟩ - hd hcall
    have hd' := hbefore th hstamped hd
    have hinnocent := hth hd' hcall
    rw [hprog] at hinnocent
    obtain hnext | ⟨hfound, -⟩ | hfetched := hinnocent.2 (act cfg (S.ord e) (S.serve e) a P.shared).1
    · exact hnext
    · obtain ⟨it, hit, hu⟩ := cached_of_found hfound
      obtain ⟨d, hmem, hdel, hlt, -⟩ := hd'
      exact absurd hu (h.gone m hm ⟨d, hmem, hdel, hlt⟩ it hit)
    · exact absurd (url_of_fetched hfetched) hurl
  · rintro j th - ⟨hstamped, hth⟩ - hd hcall
    exact hth (hbefore th hstamped hd) hcall

theorem Watched.mutation_step (h : Watched S c u i₀ w₀ P) (hstep : V.step cfg P l = some P') :
    ∃ m, P'.threads[i₀]? = some m ∧ (∃ w ∈ m.done, S.write c w.2 = true ∧ w.1 = w₀) ∧
      (S.Mutates c m.prog ∨ Gone c w₀ m) := by
  obtain ⟨m, hm, ⟨w, hw, hwrite, hstamp⟩, hstate⟩ := h.mutation
  rcases Pool.thread_of_step hstep hm with hsame | ⟨e, a, k, -, hprog, hmoved⟩
  · exact ⟨m, hsame, ⟨w, hw, hwrite, hstamp⟩, hstate⟩
  · refine ⟨_, hmoved, ⟨w, List.mem_cons_of_mem _ hw, hwrite, hstamp⟩, ?_⟩
    rw [hprog] at hstate
    obtain (⟨hdel, -⟩ | hmutates) | ⟨d, hd, hdel, hlt⟩ := hstate
    · have hnow := ((h.orderly i₀ m hm).2.2 w hw).2
      exact .inr ⟨_, List.mem_cons_self, hdel, hstamp ▸ hnow⟩
    · exact .inl (hmutates _)
    · exact .inr ⟨d, List.mem_cons_of_mem _ hd, hdel, hlt⟩

theorem Watched.step (h : Watched S c u i₀ w₀ P) (hok : Timely S P l)
    (hurl : S.url P.shared.2 c ≠ some u) (hstep : V.step cfg P l = some P') :
    Watched S c u i₀ w₀ P' where
  orderly := h.orderly.step (Nat.le_refl _) (fun _ _ _ _ _ _ hu ↦ absurd hu hurl) hstep
  mutation := h.mutation_step hstep
  gone _ hm' hgone _ hit := h.gone_step hok hstep hm' hgone hit
  later _ j th hm' hj hd hcall := h.later_step hurl hstep hm' j th hj hd hcall

/-- The write of a mutation. -/
theorem watched_of_write (h : Orderly S c u P.now P) (hth : P.threads[i₀]? = some th)
    (hcall : th.call.mutated = some c) (hwrite : S.pendingWrite c th.prog = true)
    (hstep : V.step cfg P (.step i₀ e) = some P') : Watched S c u i₀ P.now P' := by
  have horderly : Orderly S c u P.now P' := by
    refine h.step (Nat.le_refl _) (fun i e' th' hl hth' hresolve _ ↦ ?_) hstep
    obtain ⟨rfl, -⟩ := Label.step.inj hl
    obtain rfl := Option.some.inj (hth.symm.trans hth')
    -- A call that changes a code resolves none.
    cases hth'' : th.call with
    | resolve _ _ =>
      rw [hth''] at hcall
      cases hcall
    | update _ _ _ _ _ | remove _ =>
      rw [hth''] at hresolve
      cases hresolve
  -- Nothing has happened since.
  have hnone (m : CallThread R) (hm : P'.threads[i₀]? = some m) {d : ℕ × Act Q} (hd : d ∈ m.done) :
      ¬ P.now < d.1 := by
    have hlt := ((horderly i₀ m hm).2.2 d hd).2
    have hnow : P'.now = P.now + 1 := Pool.now_of_step hstep
    omega
  refine ⟨horderly, ?_, fun m hm ⟨d, hd, _, hlt⟩ ↦ absurd hlt (hnone m hm hd),
    fun m j th hm _ ⟨d, hd, _, hlt, _⟩ ↦ absurd hlt (hnone m hm hd)⟩
  obtain ⟨call, hl, -⟩ | ⟨i, e', th', a, k, hl, hth', hprog, rfl⟩ := Pool.step_cases hstep
  · cases hl
  · obtain ⟨rfl, rfl⟩ := Label.step.inj hl
    obtain rfl := Option.some.inj (hth.symm.trans hth')
    rw [hprog] at hwrite
    refine ⟨_, (Pool.getElem?_move hth _ _ _ _).trans (if_pos rfl),
      ⟨_, List.mem_cons_self, hwrite, rfl⟩, .inl ?_⟩
    have hmutates := (h i₀ th hth).1.mutates hcall
    rw [hprog] at hmutates
    obtain (⟨hdel, -⟩ | hmutates) | honly := hmutates
    · rw [invalidates_of_write hwrite] at hdel
      cases hdel
    · exact hmutates _
    · cases hwrite.symm.trans honly.1

/-! ## Runs -/

/-- A mutation of a code writes at some point of a run, and from then on the backend does not hold a
url for the code and fills come in time. Then a `resolve` that starts after the mutation has
succeeded does not return that url. -/
def Serving.ReadsOwn (V : Serving S) (cfg : Config) : Prop :=
  ∀ (n : Node) (db : δ) (before later : List (Label Call E)) (Q₁ Q₂ P : CallPool R δ) (i j : ℕ) (e : E)
    (th m r : CallThread R) (c u : Bytes),
    run (V.step cfg) { shared := (n, db) } before = some Q₁ →
    Q₁.threads[i]? = some th → th.call.mutated = some c → S.pendingWrite c th.prog = true →
    V.step cfg Q₁ (.step i e) = some Q₂ → run (V.step cfg) Q₂ later = some P →
    Meets (V.step cfg) (fun P _ ↦ S.url P.shared.2 c ≠ some u) Q₂ later →
    Meets (V.step cfg) (Timely S) Q₂ later →
    P.threads[i]? = some m → m.result = some (.result .ok) →
    P.threads[j]? = some r → r.call.resolved = some c → m.Precedes r →
    r.result ≠ some (.url (some u))

theorem readsOwn (V : Serving S) (cfg : Config) : V.ReadsOwn cfg := by
  intro n db before later Q₁ Q₂ P i j e th m r c u hbefore hth hcall hwrite hstep hlater hurl hok hm
    hsucceeds hr hresolved hprecedes hresult
  have hwatched : Watched S c u i Q₁.now P :=
    Transition.run_invariant (fun P l P' h hl hs ↦ h.step hl.1 hl.2 hs)
      (watched_of_write (orderly_of_run hbefore) hth hcall hwrite hstep) (hok.and hurl) hlater
  obtain ⟨m', hm', -, hstate⟩ := hwatched.mutation
  obtain rfl := Option.some.inj (hm.symm.trans hm')
  rw [Thread.result_eq_some] at hsucceeds hresult
  rw [hsucceeds] at hstate
  obtain hmutates | ⟨d, hd, hdel, hlt⟩ := hstate
  · exact hmutates rfl
  · have hlast := ((hwatched.orderly i m hm).2.2 d hd).1
    have hinnocent := hwatched.later m j r hm hr ⟨d, hd, hdel, hlt, hlast.trans_lt hprecedes.2⟩
      hresolved
    rw [hresult] at hinnocent
    exact hinnocent rfl

/-! ## The `resolve` of both backends -/

/-- Nothing is found. -/
theorem innocent_none : S.Innocent c u (.ret (.url none)) := by rintro ⟨⟩

theorem innocent_bump {u' : Bytes} (hu : u' ≠ u) (code : Bytes) :
    S.Innocent c u (bump cfg code >>= (fun _ ↦ .ret (some u')) >>= fun u ↦ .ret (Out.url u)) := by
  have hret : Out.url (some u') ≠ .url (some u) := fun h ↦ hu (Option.some.inj (Out.url.inj h))
  rw [Prog.bind_assoc, bump]
  split_ifs
  · exact ⟨fun _ _ ↦ by rintro ⟨⟩, fun _ ↦ .inl hret⟩
  · exact hret

/-- It learns of a url from the cache or from the backend only. -/
theorem innocent_resolve {get : Bytes → NodeProg R (Option Bytes)} {q : Q}
    (hget : get c = .act (.query q) fun r ↦ .ret (S.shows q r)) (hq : S.fetches c q = true)
    (clk : Clock) : S.Innocent c u (resolve cfg get c clk >>= fun u ↦ .ret (.url u)) := by
  refine ⟨fun _ _ ↦ by rintro ⟨⟩, fun found ↦ ?_⟩
  cases found with
  | some u' =>
    by_cases hu : u' = u
    · have hbump : (bump cfg c : NodeProg R Unit).Only fun a ↦ fills c a = false := only_bump rfl
      refine .inr (.inl ⟨⟨rfl, congrArg some hu⟩, ?_⟩)
      change (bump cfg c >>= (fun _ ↦ .ret (some u')) >>= fun u ↦ .ret (Out.url u)).Only _
      rw [Prog.bind_assoc]
      exact hbump.bind fun _ ↦ trivial
    · exact .inl (innocent_bump hu c)
  | none =>
    left
    change S.Innocent c u (get c >>= _ >>= _)
    rw [hget]
    simp only [Prog.act_bind, Prog.ret_bind]
    refine ⟨fun _ _ ↦ by rintro ⟨⟩, fun r ↦ ?_⟩
    dsimp only
    cases hrow : (S.shows q r).bind dec with
    | none => exact .inl innocent_none
    | some row =>
      dsimp only
      split_ifs
      · exact .inl innocent_none
      · by_cases hu : row.u = u
        · exact .inr (.inr ⟨hq, row, hrow, hu⟩)
        · exact .inl ⟨fun _ _ h ↦ hu (Act.cachePut.inj h).2.1, fun _ ↦ .inl (innocent_bump hu c)⟩

end Shrt.Backend
