import Shrt.Rocks.Node

/-!
# One alias, many requests

`shorten` asks the database for the alias and, when it is free, writes the row: two queries with
nothing that holds them together. A call that asks while another is between its question and its
write is told that the alias is free as well, and the last write wins.

A call is in one of five phases, and what it does next depends on its phase and on the row alone
(`Phase.next`). As long as no call asks while another is about to write, one call holds the alias at
a time (`AtPhase`), so one call at most is granted it, and the row is its row. If some call does ask
then, both calls hold the alias to the end, so the condition is exact where writes do not fail.
-/

namespace Shrt.Rocks

open Backend (Act Config Node Row enc dec dec_enc cachePut)
open Interleave (Pool Prog Thread Label)
open Transition (run run_cons_eq_some Meets run_invariant meets_of_forall)

/-- A call of `shorten` for the alias. -/
structure AliasCall where
  url : Bytes
  ttl : Int64
  clk : Clock

/-- The value that a call writes. -/
def AliasCall.value (c : AliasCall) : Bytes := enc (expiry (c.clk 0) c.ttl) (c.clk 0) c.url

/-- Calls of `shorten` at the same time. -/
abbrev AliasPool := Pool (Node × RocksDB) AliasCall (Act Query) (Act.Reply Query.Reply) (Option Bytes)

/-- One of the calls. -/
abbrev AliasThread := Thread AliasCall (Act Query) (Act.Reply Query.Reply) (Option Bytes)

/-- What may happen next. -/
def aliasStep (cfg : Config) (code : Bytes) : AliasPool → Label AliasCall Fate → Option AliasPool :=
  Pool.step (fun c ↦ shorten c.url code c.ttl c.clk) fun _ e ↦ step cfg e

/-! ## Phases -/

/-- How far a call has come. -/
inductive Phase where
  /-- It asks for the row. -/
  | asking
  /-- It found the alias free and writes the row. -/
  | writing
  /-- It has written the row and fills the cache. -/
  | filling
  | granted
  | refused
  deriving DecidableEq

namespace Phase

/-- What a call still has to do. -/
def prog (code : Bytes) (c : AliasCall) : Phase → RocksProg (Option Bytes)
  | asking => shorten c.url code c.ttl c.clk
  | writing => do
    if ← dbPut code c.value then
      cachePut code c.url (expiry (c.clk 0) c.ttl) (c.clk 1)
      return some code
    else return none
  | filling => do
    cachePut code c.url (expiry (c.clk 0) c.ttl) (c.clk 1)
    return some code
  | granted => .ret (some code)
  | refused => .ret none

/-- The phase of a call, from what it does next. -/
def ofProg : RocksProg (Option Bytes) → Phase
  | .act (.query (.get _)) _ => asking
  | .act (.query (.put _ _)) _ => writing
  | .act _ _ => filling
  | .ret (some _) => granted
  | .ret none => refused

@[simp] theorem ofProg_prog (code : Bytes) (c : AliasCall) (ph : Phase) :
    ofProg (ph.prog code c) = ph := by
  cases ph <;> rfl

/-- The phase that follows, given the row that is there and whether a write succeeds. -/
def next (v : Option Bytes) (ok : Bool) : Phase → Phase
  | asking => if v.isSome then refused else writing
  | writing => if ok then filling else refused
  | filling => granted
  | granted => granted
  | refused => refused

/-- The row after a call has moved. -/
def rowAfter (v : Option Bytes) (ok : Bool) (value : Bytes) : Phase → Option Bytes
  | writing => if ok then some value else v
  | _ => v

/-- Who may hold the alias after the call `i` has moved. -/
def holderAfter (v : Option Bytes) (o : Option ℕ) (i : ℕ) : Phase → Option ℕ
  | asking => if v.isSome then o else some i
  | _ => o

/-- The call was told that the alias is free, and was not refused since. -/
def Holds (ph : Phase) : Prop := ph = writing ∨ ph = filling ∨ ph = granted

/-- The call has written the row. -/
def Wrote (ph : Phase) : Prop := ph = filling ∨ ph = granted

instance : DecidablePred Holds := fun ph ↦
  inferInstanceAs (Decidable (ph = writing ∨ ph = filling ∨ ph = granted))

variable {cfg : Config} {code : Bytes} {c : AliasCall}

/-- **A call moves through the phases.** -/
theorem advance {ph : Phase} {a : Act Query} {k : a.Reply Query.Reply → RocksProg (Option Bytes)}
    (h : ph.prog code c = .act a k) (e : Fate) (s : Node × RocksDB) :
    k (step cfg e a s).1 = (ph.next (s.2.links.lookup code) e.ok).prog code c ∧
      (step cfg e a s).2.2.links.lookup code =
        ph.rowAfter (s.2.links.lookup code) e.ok c.value := by
  cases ph with
  | asking =>
    obtain ⟨rfl, hk⟩ := Prog.act.inj h
    obtain rfl := eq_of_heq hk
    refine ⟨?_, rfl⟩
    change (if (s.2.links.lookup code).isSome then _ else _) = prog code c (if _ then _ else _)
    split_ifs
    · rfl
    · rfl
  | writing =>
    obtain ⟨rfl, hk⟩ := Prog.act.inj h
    obtain rfl := eq_of_heq hk
    obtain ⟨ord, ok⟩ := e
    cases ok with
    | false => exact ⟨rfl, rfl⟩
    | true => exact ⟨rfl, AList.lookup_insert _⟩
  | filling =>
    obtain ⟨rfl, hk⟩ := Prog.act.inj h
    obtain rfl := eq_of_heq hk
    exact ⟨rfl, rfl⟩
  | granted => cases h
  | refused => cases h

/-- A call that holds the alias keeps it as long as no write fails. -/
theorem Holds.next {ph : Phase} (h : ph.Holds) (v : Option Bytes) : (ph.next v true).Holds := by
  rcases h with rfl | rfl | rfl
  · exact .inr (.inl rfl)
  · exact .inr (.inr rfl)
  · exact .inr (.inr rfl)

end Phase

/-! ## The condition -/

/-- No call asks for the row while another is about to write it. -/
def Alone (P : AliasPool) : Label AliasCall Fate → Prop
  | .start _ => True
  | .step i _ => (∃ th, P.threads[i]? = some th ∧ Phase.ofProg th.prog = .asking) →
      ∀ th ∈ P.threads, Phase.ofProg th.prog ≠ .writing

instance (P : AliasPool) : DecidablePred (Alone P)
  | .start _ => inferInstanceAs (Decidable True)
  | .step _ _ => inferInstanceAs (Decidable (_ → _))

/-- At most one call has been granted the alias, and its url is the one in the database. -/
def GrantedOnce (code : Bytes) (P : AliasPool) : Prop :=
  ∀ (j : ℕ) (th : AliasThread), P.threads[j]? = some th → th.result = some (some code) →
    (∀ (i : ℕ) (th' : AliasThread), P.threads[i]? = some th' → th'.result = some (some code) → i = j) ∧
    ((P.shared.2.links.lookup code).bind dec).map Row.u = some th.call.url

/-! ## One holder at a time -/

variable {cfg : Config} {code : Bytes} {P P' : AliasPool} {l : Label AliasCall Fate}

/-- Where the call `j` is, when the row is `v` and only the call `o` may hold the alias. -/
structure AtPhase (code : Bytes) (v : Option Bytes) (o : Option ℕ) (j : ℕ) (th : AliasThread)
    (ph : Phase) : Prop where
  prog : th.prog = ph.prog code th.call
  holder : ph.Holds → o = some j
  free : ph = .writing → v = none
  written : ph.Wrote → v = some th.call.value

/-- Every call is in some phase. -/
def Orderly (code : Bytes) (o : Option ℕ) (P : AliasPool) : Prop :=
  ∀ j th, P.threads[j]? = some th → ∃ ph, AtPhase code (P.shared.2.links.lookup code) o j th ph

theorem Orderly.grantedOnce {o : Option ℕ} (h : Orderly code o P) : GrantedOnce code P := by
  -- A call that was granted the alias is in that phase.
  have hgranted : ∀ j th, P.threads[j]? = some th → th.result = some (some code) →
      AtPhase code (P.shared.2.links.lookup code) o j th .granted := by
    intro j th hj hres
    obtain ⟨ph, hph⟩ := h j th hj
    have hprog : ph.prog code th.call = Phase.granted.prog code th.call :=
      hph.prog.symm.trans (th.result_eq_some.mp hres)
    have hphase : ph = .granted := by
      rw [← Phase.ofProg_prog code th.call ph, hprog, Phase.ofProg_prog]
    exact hphase ▸ hph
  intro j th hj hres
  have hat := hgranted j th hj hres
  constructor
  · intro i th' hi hres'
    have hi' := (hgranted i th' hi hres').holder (.inr (.inr rfl))
    exact Option.some.inj (hi'.symm.trans (hat.holder (.inr (.inr rfl))))
  · rw [hat.written (.inr rfl), Option.bind_some, AliasCall.value, dec_enc]
    rfl

/-- A call that starts, or one that has moved and does not hold the alias, is in a phase whatever
the row. -/
theorem AtPhase.of_not_holds {v : Option Bytes} {o : Option ℕ} {j : ℕ} {th : AliasThread} {ph : Phase}
    (hprog : th.prog = ph.prog code th.call) (h : ¬ ph.Holds) : AtPhase code v o j th ph where
  prog := hprog
  holder := fun hh ↦ absurd hh h
  free := fun hw ↦ absurd (.inl hw) h
  written := fun hw ↦ absurd (.inr hw) h

/-- The call that moves is in the next phase. -/
theorem AtPhase.move {v : Option Bytes} {o : Option ℕ} {i : ℕ} {th : AliasThread} {ph : Phase}
    (h : AtPhase code v o i th ph) (ok : Bool) {now : ℕ} {a : Act Query} {p : RocksProg (Option Bytes)}
    (hp : p = (ph.next v ok).prog code th.call) :
    AtPhase code (ph.rowAfter v ok th.call.value) (ph.holderAfter v o i) i (th.next now a p)
      (ph.next v ok) := by
  cases ph with
  | asking =>
    cases v with
    | some u => exact .of_not_holds hp (by simp [Phase.next, Phase.Holds])
    | none => exact ⟨hp, fun _ ↦ rfl, fun _ ↦ rfl, fun hw ↦ by simp [Phase.next, Phase.Wrote] at hw⟩
  | writing =>
    cases ok with
    | false => exact .of_not_holds hp (by simp [Phase.next, Phase.Holds])
    | true => exact ⟨hp, fun _ ↦ h.holder (.inl rfl), (fun hw ↦ nomatch hw), fun _ ↦ rfl⟩
  | filling =>
    exact ⟨hp, fun _ ↦ h.holder (.inr (.inl rfl)), (fun hw ↦ nomatch hw), fun _ ↦ h.written (.inl rfl)⟩
  | granted => exact ⟨hp, h.holder, h.free, h.written⟩
  | refused => exact ⟨hp, h.holder, h.free, h.written⟩

/-- The other calls stay where they are. -/
theorem AtPhase.other {v : Option Bytes} {o : Option ℕ} {i j : ℕ} {th th' : AliasThread}
    {ph ph' : Phase} (h : AtPhase code v o i th ph) (h' : AtPhase code v o j th' ph') (hji : j ≠ i)
    (halone : ph = .asking → ph' ≠ .writing) (ok : Bool) :
    AtPhase code (ph.rowAfter v ok th.call.value) (ph.holderAfter v o i) j th' ph' := by
  cases ph with
  | asking =>
    cases v with
    | some u => exact h'
    | none =>
      -- The alias is free, so nobody has written, and nobody is about to.
      refine .of_not_holds h'.prog ?_
      rintro (hw | hw)
      · exact halone rfl hw
      · exact nomatch h'.written hw
  | writing =>
    cases ok with
    | false => exact h'
    | true =>
      refine .of_not_holds h'.prog fun hw ↦ hji ?_
      exact Option.some.inj ((h'.holder hw).symm.trans (h.holder (.inl rfl)))
  | filling => exact h'
  | granted => exact h'
  | refused => exact h'

/-- **A step keeps the order.** -/
theorem Orderly.step {o : Option ℕ} (h : Orderly code o P) (halone : Alone P l)
    (hs : aliasStep cfg code P l = some P') : ∃ o', Orderly code o' P' := by
  obtain ⟨c, rfl, rfl⟩ | ⟨i, e, th, a, k, rfl, hi, hact, rfl⟩ := Pool.step_cases hs
  · refine ⟨o, Pool.forall_threads_of_step hs h (fun c' hc _ ↦ ?_) (fun _ _ _ _ _ hl ↦ nomatch hl)
      fun _ _ _ hat _ ↦ hat⟩
    obtain rfl := Label.start.inj hc
    exact ⟨.asking, .of_not_holds rfl (by decide)⟩
  · obtain ⟨ph, hat⟩ := h i th hi
    have hphase : Phase.ofProg th.prog = ph := by rw [hat.prog, Phase.ofProg_prog]
    obtain ⟨hprog, hrow⟩ := @Phase.advance cfg code th.call ph a k (hat.prog.symm.trans hact) e P.shared
    refine ⟨ph.holderAfter (P.shared.2.links.lookup code) o i, fun j th' hj ↦ ?_⟩
    rw [Pool.shared_move, hrow]
    rw [Pool.getElem?_move hi] at hj
    split_ifs at hj with hji
    · rw [← Option.some.inj hj, hji]
      exact ⟨_, hat.move e.ok hprog⟩
    · obtain ⟨ph', hat'⟩ := h j th' hj
      refine ⟨ph', hat.other hat' hji (fun hasking hw ↦ ?_) e.ok⟩
      refine halone ⟨th, hi, hphase.trans hasking⟩ th' (List.mem_of_getElem? hj) ?_
      rw [hat'.prog, Phase.ofProg_prog, hw]

/-! ## Two holders stay -/

/-- The call `j` holds the alias. -/
def HeldBy (code : Bytes) (j : ℕ) (P : AliasPool) : Prop :=
  ∃ (th : AliasThread) (ph : Phase), P.threads[j]? = some th ∧ th.prog = ph.prog code th.call ∧ ph.Holds

/-- The writes succeed. -/
def Succeeds : Label AliasCall Fate → Prop
  | .start _ => True
  | .step _ e => e.ok = true

/-- A call that holds the alias keeps it. -/
theorem HeldBy.step {j : ℕ} (h : HeldBy code j P) (hok : Succeeds l)
    (hs : aliasStep cfg code P l = some P') : HeldBy code j P' := by
  obtain ⟨th, ph, hj, hprog, hholds⟩ := h
  rcases Pool.thread_of_step hs hj with hsame | ⟨e, a, k, rfl, hact, hnext⟩
  · exact ⟨th, ph, hsame, hprog, hholds⟩
  · have hadv := (@Phase.advance cfg code th.call ph a k (hprog.symm.trans hact) e P.shared).1
    refine ⟨_, _, hnext, hadv, ?_⟩
    rw [show e.ok = true from hok]
    exact hholds.next _

/-- When every call has returned, those that held the alias were granted it. -/
theorem HeldBy.granted {j : ℕ} (h : HeldBy code j P) (hdone : ∀ th ∈ P.threads, th.result.isSome) :
    ∃ th, P.threads[j]? = some th ∧ th.result = some (some code) := by
  obtain ⟨th, ph, hj, hprog, hholds⟩ := h
  refine ⟨th, hj, ?_⟩
  have hret := hdone th (List.mem_of_getElem? hj)
  rw [Thread.result, hprog] at hret ⊢
  rcases hholds with rfl | rfl | rfl
  · cases hret
  · cases hret
  · rfl

/-- **A call that asks at the wrong time.** Afterwards two calls hold the alias. -/
theorem Orderly.two_hold {o : Option ℕ} (h : Orderly code o P) (halone : ¬ Alone P l)
    (hs : aliasStep cfg code P l = some P') : ∃ i j, i ≠ j ∧ HeldBy code i P' ∧ HeldBy code j P' := by
  cases l with
  | start c => exact absurd trivial halone
  | step i e =>
    simp only [Alone, Classical.not_imp, not_forall, not_not] at halone
    obtain ⟨⟨th, hi, hasking⟩, th', hmem, hwriting⟩ := halone
    obtain ⟨j, hj⟩ := List.mem_iff_getElem?.mp hmem
    obtain ⟨ph, hat⟩ := h i th hi
    obtain ⟨ph', hat'⟩ := h j th' hj
    rw [hat.prog, Phase.ofProg_prog] at hasking
    rw [hat'.prog, Phase.ofProg_prog] at hwriting
    subst hasking hwriting
    have hij : i ≠ j := by
      rintro rfl
      obtain rfl := Option.some.inj (hi.symm.trans hj)
      have hphase := congrArg Phase.ofProg (hat.prog.symm.trans hat'.prog)
      rw [Phase.ofProg_prog, Phase.ofProg_prog] at hphase
      cases hphase
    obtain ⟨_, hl, -⟩ | ⟨i', e', th₀, a, k, hl, hi', hact, rfl⟩ := Pool.step_cases hs
    · cases hl
    · obtain ⟨rfl, rfl⟩ := Label.step.inj hl
      obtain rfl := Option.some.inj (hi.symm.trans hi')
      -- The other call has not written yet, so the alias is still free.
      have hadv := (@Phase.advance cfg code th.call .asking a k (hat.prog.symm.trans hact) e P.shared).1
      rw [hat'.free rfl] at hadv
      refine ⟨i, j, hij, ⟨th.next P.now a (k (Rocks.step cfg e a P.shared).1), .writing, ?_, hadv,
        .inl rfl⟩, ⟨th', .writing, ?_, hat'.prog, .inl rfl⟩⟩
      · rw [Pool.getElem?_move hi, if_pos rfl]
      · rwa [Pool.getElem?_move hi, if_neg hij.symm]

/-! ## Whole runs -/

variable {ls : List (Label AliasCall Fate)}

theorem grantedOnce_of_meets {o : Option ℕ} (h₀ : Orderly code o P)
    (hm : Meets (aliasStep cfg code) Alone P ls) (hr : run (aliasStep cfg code) P ls = some P') :
    GrantedOnce code P' := by
  obtain ⟨o', h⟩ : ∃ o', Orderly code o' P' :=
    run_invariant (P := fun P ↦ ∃ o, Orderly code o P) (fun _ _ _ ⟨_, h⟩ halone hs ↦ h.step halone hs)
      ⟨o, h₀⟩ hm hr
  exact h.grantedOnce

theorem meets_of_grantedOnce {o : Option ℕ} (h₀ : Orderly code o P) (hok : ∀ l ∈ ls, Succeeds l)
    (hr : run (aliasStep cfg code) P ls = some P') (hdone : ∀ th ∈ P'.threads, th.result.isSome)
    (honce : GrantedOnce code P') : Meets (aliasStep cfg code) Alone P ls := by
  induction ls generalizing P o with
  | nil => trivial
  | cons l ls ih =>
    obtain ⟨P₁, hs, hr'⟩ := run_cons_eq_some.mp hr
    have hok' : ∀ l' ∈ ls, Succeeds l' := fun l' hl' ↦ hok l' (List.mem_cons_of_mem _ hl')
    have halone : Alone P l := by
      by_contra hnot
      obtain ⟨i, j, hij, hboth⟩ := h₀.two_hold hnot hs
      obtain ⟨hi, hj⟩ : HeldBy code i P' ∧ HeldBy code j P' :=
        run_invariant (P := fun P ↦ HeldBy code i P ∧ HeldBy code j P)
          (fun _ _ _ hP hl hs ↦ ⟨hP.1.step hl hs, hP.2.step hl hs⟩) hboth (meets_of_forall hok' P₁) hr'
      obtain ⟨th, hth, hres⟩ := hi.granted hdone
      obtain ⟨th', hth', hres'⟩ := hj.granted hdone
      exact hij ((honce j th' hth' hres').1 i th hth hres)
    refine ⟨halone, fun P₂ hs₂ ↦ ?_⟩
    obtain rfl := Option.some.inj (hs.symm.trans hs₂)
    obtain ⟨o', h₁⟩ := h₀.step halone hs
    exact ih h₁ hok' hr'

/-- **An alias is granted once, as long as no call asks while another is about to write.** And when
all writes succeed and all calls have returned, not otherwise. -/
theorem granted_once_iff {P₀ : AliasPool} (h₀ : P₀.threads = [])
    (hr : run (aliasStep cfg code) P₀ ls = some P) :
    (Meets (aliasStep cfg code) Alone P₀ ls → GrantedOnce code P) ∧
      ((∀ l ∈ ls, Succeeds l) → (∀ th ∈ P.threads, th.result.isSome) →
        GrantedOnce code P → Meets (aliasStep cfg code) Alone P₀ ls) := by
  have hnew : Orderly code none P₀ := by
    intro j th hj
    rw [h₀] at hj
    cases hj
  exact ⟨fun hm ↦ grantedOnce_of_meets hnew hm hr,
    fun hok hdone honce ↦ meets_of_grantedOnce hnew hok hr hdone honce⟩

/-! ## Two callers -/

/-- A caller with a url of one letter. -/
def caller (b : UInt8) : AliasCall := { url := [b], ttl := 0, clk := fun _ ↦ 1 }

/-- Nothing is stored and nobody calls. -/
def idle : AliasPool := { shared := ({}, {}) }

/-- One caller after the other. -/
def inTurn : List (Label AliasCall Fate) :=
  [.start (caller 97), .start (caller 98), .step 0 {}, .step 0 {}, .step 0 {}, .step 1 {}]

/-- Both callers ask first. -/
def atOnce : List (Label AliasCall Fate) :=
  [.start (caller 97), .start (caller 98), .step 0 {}, .step 1 {}, .step 0 {}, .step 1 {}, .step 0 {},
    .step 1 {}]

theorem granted_once_iff_inTurn : ∃ P, run (aliasStep {} (lit "a")) idle inTurn = some P ∧
    Meets (aliasStep {} (lit "a")) Alone idle inTurn ∧ GrantedOnce (lit "a") P := by
  have hm : Meets (aliasStep {} (lit "a")) Alone idle inTurn := by decide +kernel
  exact ⟨_, rfl, hm, (granted_once_iff rfl rfl).1 hm⟩

/-- Both callers are granted the alias. -/
theorem alias_granted_twice : ∃ P, run (aliasStep {} (lit "a")) idle atOnce = some P ∧
    ¬ GrantedOnce (lit "a") P :=
  ⟨_, rfl, fun h ↦ absurd ((h 0 _ rfl rfl).1 1 _ rfl rfl) (by decide)⟩

end Shrt.Rocks
