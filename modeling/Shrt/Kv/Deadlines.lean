import Shrt.Kv.Requests

/-!
# Rows that expire vanish

In the key layout a row with an expiry is stored with a deadline, at which the server drops it.
`shorten` sends the time to live itself. `update` sends what is left of it, which it computes from
another reading of the clock after it has read the row: when nothing is left, it sends no deadline
at all, and the row stays forever.

Every row with an expiry has a deadline exactly as long as no `update` writes an expiry that its
clock has passed (`deadlines_kept_iff`).
-/

namespace Shrt.Kv

open Backend (Act Config Node Row enc dec dec_enc)
open Interleave (Pool Label)
open Transition (run Meets)

variable {ι : Type} [DecidableEq ι] {cfg : ι → Config} {db : Redis} {t : Moment} {clk : Clock}

/-- Every row with an expiry has a deadline. -/
def SelfEvicts (db : Redis) : Prop :=
  ∀ code v d row, db.strings.lookup (lkey code) = some (v, d) → dec v = some row → row.e ≠ 0 → d ≠ none

/-- The expiry lies ahead of the clock, as `update` computes it. -/
def Ahead (e now : Int64) : Prop := 0 < e ∧ 0 < e - now

instance (e now : Int64) : Decidable (Ahead e now) := inferInstanceAs (Decidable (_ ∧ _))

/-- The value that an `update` is about to write. -/
def pendingOverwrite {β : Type} : KvProg β → Option Bytes
  | .act (.query (.set _ v _ false)) _ => some v
  | _ => none

theorem eq_of_mem_pendingOverwrite {β : Type} {p : KvProg β} {v : Bytes} (h : v ∈ pendingOverwrite p) :
    ∃ k px f, p = .act (.query (.set k v px false)) f := by
  unfold pendingOverwrite at h
  split at h
  next k v' px f =>
    obtain rfl := Option.some.inj h
    exact ⟨k, px, f, rfl⟩
  · cases h

/-- The condition: an expiry that an `update` is about to write lies ahead of the clock, as it was
read for the deadline. -/
def InTime (P : RequestPool ι) : Label (Asked ι) Moment → Prop
  | .start _ => True
  | .step i _ => ∀ th ∈ P.threads[i]?, ∀ v ∈ pendingOverwrite th.prog, ∀ row ∈ dec v,
      row.e ≠ 0 → Ahead row.e (th.call.clk 1)

instance (P : RequestPool ι) : DecidablePred (InTime P)
  | .start _ => inferInstanceAs (Decidable True)
  | .step _ _ => inferInstanceAs (Decidable (∀ th ∈ _, ∀ v ∈ _, ∀ row ∈ _, _ → _))

/-! ## Commands -/

/-- What is sent for a row: there is no deadline for an expiry only where `update` finds that it has
passed. -/
def Dated (clk : Clock) : Cmd → Prop
  | .set k v px nx => (∃ code, k = lkey code) ∧ ∃ row, dec v = some row ∧
      (row.e ≠ 0 → (px = none ↔ nx = false ∧ ¬ Ahead row.e (clk 1)))
  | .get _ | .del _ => True
  | .incrby _ _ | .hget _ _ | .hsetnx _ _ _ | .hset _ _ _ | .hdel _ _ | .hincrby _ _ _ | .scan _
  | .hscan _ => False

theorem dated_newCmd (code url : Bytes) (now ttl : Int64) :
    Dated clk (newCmd .key code (enc (expiry now ttl) now url) ttl) := by
  refine ⟨⟨code, rfl⟩, _, dec_enc .., fun he ↦ ?_⟩
  have hpos : 0 < ttl := by
    by_contra hle
    exact he (if_neg hle)
  rw [if_pos hpos]
  exact ⟨fun h ↦ (Option.some_ne_none _ h).elim, fun h ↦ nomatch h.1⟩

theorem dated_overwriteCmd (code url : Bytes) (exp c : Int64) :
    Dated clk (overwriteCmd .key code exp (enc exp c url) (clk 1)) := by
  refine ⟨⟨code, rfl⟩, _, dec_enc .., fun _ ↦ ?_⟩
  have hahead : (0 < if 0 < exp then exp - clk 1 else 0) ↔ Ahead exp (clk 1) := by
    by_cases hexp : 0 < exp
    · rw [if_pos hexp, Ahead, and_iff_right hexp]
    · rw [if_neg hexp, Ahead]
      exact ⟨fun h ↦ absurd h (by decide), fun h ↦ absurd h.1 hexp⟩
  rw [ite_eq_right_iff, eq_self_iff_true, true_and, hahead]
  exact ⟨fun h hpos ↦ Option.some_ne_none _ (h hpos), fun h hpos ↦ absurd hpos h⟩

theorem Request.Performs.dated {req : Request} {c : Cmd} (h : req.Performs .key clk (.query c)) :
    Dated clk c := by
  cases req with
  | shorten url name gen ttl =>
    obtain ⟨code, hc⟩ := h
    obtain rfl := Act.query.inj hc
    exact dated_newCmd ..
  | shortenMany items ttl =>
    obtain ⟨code, now, url, hc⟩ := h
    obtain rfl := Act.query.inj hc
    exact dated_newCmd ..
  | resolve code =>
    obtain hc | hc | ⟨u, e, hc⟩ | hc := h
    · cases hc
    · obtain rfl := Act.query.inj hc
      trivial
    · cases hc
    · cases hc
  | update code url ttl hasTtl =>
    obtain hc | ⟨exp, c', hc⟩ | hc := h
    · obtain rfl := Act.query.inj hc
      trivial
    · obtain rfl := Act.query.inj hc
      exact dated_overwriteCmd ..
    · cases hc
  | remove code =>
    obtain ⟨c', hmem, hc⟩ | hc := h
    · obtain rfl := Act.query.inj hc
      rcases List.mem_pair.mp hmem with rfl | rfl
      · trivial
      · trivial
    · cases hc
  | sweep =>
    obtain ⟨⟨b, hlay⟩, -⟩ := h
    cases hlay

/-- A deadline is missing only where none was sent. -/
theorem deadline_eq_some_none {now : Int64} {px : Option Int64} :
    Redis.deadline now px = some none ↔ px = none := by
  cases px with
  | none => exact ⟨fun _ ↦ rfl, fun _ ↦ rfl⟩
  | some px =>
    rw [Redis.deadline]
    split_ifs
    · simp
    · simp

/-- A command keeps the deadlines, if it is no overwriting without one where there should be one. -/
theorem SelfEvicts.exec (h : SelfEvicts db) {c : Cmd} (hc : Dated clk c)
    (hahead : ∀ k v px row, c = .set k v px false → dec v = some row → row.e ≠ 0 →
      Ahead row.e (clk 1)) : SelfEvicts (db.exec t c).2 := by
  cases c with
  | get k =>
    rw [Redis.exec]
    split_ifs
    · exact h
    · exact h
  | del k =>
    rw [Redis.exec]
    split_ifs
    · intro code v d row hlook
      by_cases hk : lkey code = k
      · rw [Redis.erase, ← hk, AList.lookup_erase] at hlook
        cases hlook
      · rw [Redis.erase, AList.lookup_erase_ne hk] at hlook
        exact h code v d row hlook
    · exact h
  | set k v px nx =>
    obtain ⟨-, row, hrow, hpx⟩ := hc
    rw [Redis.exec]
    cases hd : Redis.deadline t.now px with
    | none => exact h
    | some d =>
      dsimp only
      split_ifs
      · exact h
      · intro code v' d' row' hlook hrow' he
        by_cases hk : lkey code = k
        · rw [Redis.setString, ← hk, AList.lookup_insert, Option.some.injEq, Prod.mk.injEq] at hlook
          obtain ⟨rfl, rfl⟩ := hlook
          obtain rfl := Option.some.inj (hrow.symm.trans hrow')
          rintro rfl
          obtain ⟨hnx, hpast⟩ := (hpx he).mp (deadline_eq_some_none.mp hd)
          exact hpast (hahead k v px row (by rw [hnx]) hrow he)
        · rw [Redis.setString, AList.lookup_insert_ne hk] at hlook
          exact h code v' d' row' hlook hrow' he
  | incrby _ _ | hget _ _ | hsetnx _ _ _ | hset _ _ _ | hdel _ _ | hincrby _ _ _ | scan _ | hscan _ =>
    exact hc.elim

/-- An overwriting keeps them only if it is none. -/
theorem ahead_of_selfEvicts {k v : Bytes} {px : Option Int64} {row : Row}
    (hc : Dated clk (.set k v px false)) (h : SelfEvicts (db.exec t (.set k v px false)).2)
    (hrow : dec v = some row) (he : row.e ≠ 0) : Ahead row.e (clk 1) := by
  obtain ⟨⟨code, rfl⟩, row', hrow', hpx⟩ := hc
  obtain rfl := Option.some.inj (hrow.symm.trans hrow')
  by_contra hpast
  obtain rfl := (hpx he).mpr ⟨rfl, hpast⟩
  have hset : (db.exec t (.set (lkey code) v none false)).2 = db.setString (lkey code) (v, none) := rfl
  rw [hset] at h
  exact h code v none row (AList.lookup_insert _) hrow he rfl

/-! ## Runs -/

/-- **Rows that expire vanish.** Any number of nodes serve requests at the same time, over a server
on which every row with an expiry has a deadline; time passes as it likes. Every row with an expiry
always has a deadline exactly if no `update` ever writes an expiry that has passed on its clock. -/
theorem deadlines_kept_iff {nodes : ι → Node} (hdb : SelfEvicts db)
    {labels : List (Label (Asked ι) Moment)} {P : RequestPool ι}
    (hrun : run (requestStep cfg .key) { shared := (nodes, db) } labels = some P) :
    (∀ labels' P', labels' <+: labels →
      run (requestStep cfg .key) { shared := (nodes, db) } labels' = some P' →
      SelfEvicts P'.shared.2) ↔
    Meets (requestStep cfg .key) InTime { shared := (nodes, db) } labels := by
  refine Transition.forall_passed_iff_meets (P := fun P : RequestPool ι ↦
      SelfEvicts P.shared.2 ∧ P.Within fun c ↦ c.req.Performs .key c.clk) (q := fun _ _ ↦ True)
    ?_ (fun _ h ↦ h.1) ?_ ⟨hdb, fun j th hj ↦ ?_⟩ (Transition.meets_of_forall (fun _ _ ↦ trivial) _)
    hrun
  · rintro P l P' ⟨h, hP⟩ - hok hstep
    refine ⟨?_, hP.step (fun c ↦ only_prog c.req) hstep⟩
    obtain ⟨c, rfl, rfl⟩ | ⟨i, t, th, a, k, rfl, hth, hprog, rfl⟩ := Pool.step_cases hstep
    · exact h
    · have ha := performs_of_within hP hth hprog
      cases a with
      | query c =>
        refine h.exec ha.dated fun k' v px row hc hrow he ↦ ?_
        refine hok th hth v ?_ row hrow he
        rw [hprog, hc]
        rfl
      | cacheGet _ _ | cachePut _ _ _ _ | cacheDel _ | bump _ | pending _ | pendingEntry _ | drain _ =>
        exact h
  · rintro P l P' ⟨h, hP⟩ - hstep hgood
    cases l with
    | start c => trivial
    | step i t =>
      intro th hth v hv row hrow he
      obtain ⟨c, hl, -⟩ | ⟨i', t', th', a, k, hl, hth', hprog, rfl⟩ := Pool.step_cases hstep
      · cases hl
      · obtain ⟨rfl, rfl⟩ := Label.step.inj hl
        obtain rfl := Option.some.inj (hth.symm.trans hth')
        obtain ⟨k', px, f, hprog'⟩ := eq_of_mem_pendingOverwrite hv
        obtain ⟨rfl, -⟩ := Interleave.Prog.act.inj (hprog.symm.trans hprog')
        have ha := performs_of_within hP hth hprog
        exact ahead_of_selfEvicts ha.dated hgood hrow he
  · cases hj

/-- A link that lives for 5 ms is created, and changed at 4; the clock reads `now` when the deadline
is computed. -/
def changedAt (now : Int64) : List (Label (Asked Unit) Moment) :=
  [.start ⟨(), .shorten (lit "u") (some (lit "a")) [] 5, fun _ ↦ 0⟩, .step 0 { now := 0 },
   .start ⟨(), .update (lit "a") (lit "v") 0 false, fun _ ↦ now⟩, .step 1 { now := 4 },
   .step 1 { now := now }]

theorem selfEvicts_empty : SelfEvicts {} := fun _ _ _ _ h ↦ nomatch h

/-- It is changed in time. -/
theorem deadlines_kept_iff_changedInTime : ∃ P,
    run (requestStep (fun _ ↦ {}) .key) { shared := (fun _ ↦ {}, {}) } (changedAt 4) = some P ∧
    SelfEvicts P.shared.2 := by
  obtain ⟨P, hP⟩ := Option.isSome_iff_exists.mp (by decide +kernel :
    (run (requestStep (fun _ ↦ {}) .key) { shared := (fun _ ↦ {}, {}) } (changedAt 4)).isSome)
  exact ⟨P, hP, (deadlines_kept_iff selfEvicts_empty hP).mpr (by decide +kernel) _ P List.prefix_rfl hP⟩

/-- It is changed as it expires, and stays. -/
theorem expired_row_stays : ∃ P,
    run (requestStep (fun _ ↦ {}) .key) { shared := (fun _ ↦ {}, {}) } (changedAt 5) = some P ∧
    ¬ SelfEvicts P.shared.2 := by
  obtain ⟨P, hP, hlook⟩ : ∃ P,
      run (requestStep (fun _ ↦ {}) .key) { shared := (fun _ ↦ {}, {}) } (changedAt 5) = some P ∧
      P.shared.2.strings.lookup (lkey (lit "a")) = some (enc 5 0 (lit "v"), none) := by decide +kernel
  exact ⟨P, hP, fun h ↦ h _ _ _ _ hlook (dec_enc ..) (by decide) rfl⟩

end Shrt.Kv
