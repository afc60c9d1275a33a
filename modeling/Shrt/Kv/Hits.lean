import Shrt.Backend.Hits
import Shrt.Kv.Layouts

/-!
# The books of a KV node

What a node of the KV backend knows of its hits: the counters on the server, and what is pending in
its own maps. A link and its counter are two *slots* of the server, in either layout, and the
commands of a node fill and empty slots.

A node keeps books (`keeps_serveOp`, `keeps_serveHit`): a resolve that finds the link is a hit, and
a flush adds what is pending to the counters. `remove` deletes the counter, but not what is pending.
-/

namespace Shrt.Kv

open Backend (Config Node Out HitOp Fits enc dec dec_enc deltasOf drainFrom toInt_add_of_lt books_hit
  books_lose exec_bump exec_drainFrom)
open Interleave (Prog)
open Interleave.Prog (exec_bind)
open Ledger (Books Event Keeps)
open Store (allShards)

/-! ## Slots -/

/-- The places of a code on the server. -/
inductive Slot where
  | row (c : Bytes)
  | tally (c : Bytes)
  deriving DecidableEq

namespace Layout

variable (lay : Layout) (db : Redis)

/-- The codes whose field is not taken for a counter. -/
def Takes (c : Bytes) : Prop := match lay with
  | .key => True
  | .hash _ => ¬ lit "h:" <+: c

/-- The slots of such codes. -/
def Fair : Slot → Prop
  | .row c => lay.Takes c
  | .tally _ => True

/-- Where a slot is. -/
def place : Slot → Bytes × Bytes
  | .row c => match lay with
    | .key => (lkey c, [])
    | .hash b => (bkey b c, c)
  | .tally c => match lay with
    | .key => (hkey c, [])
    | .hash b => (bkey b c, hkey c)

/-- What a slot holds, with its deadline, whether or not that has passed. -/
def held (sl : Slot) : Option (Bytes × Option ℤ) := match lay with
  | .key => db.strings.lookup (lay.place sl).1
  | .hash _ => (db.fields.lookup (lay.place sl)).map fun v ↦ (v, none)

/-- The deadline that a slot keeps: a field has none. -/
def kept (d : Option ℤ) : Option ℤ := match lay with
  | .key => d
  | .hash _ => none

/-- Fill a slot. -/
def put (sl : Slot) (v : Bytes) (d : Option ℤ) : Redis := match lay with
  | .key => db.setString (lay.place sl).1 (v, d)
  | .hash _ => db.setField (lay.place sl).1 (lay.place sl).2 v

/-- Empty a slot. -/
def drop (sl : Slot) : Redis := match lay with
  | .key => db.erase (lay.place sl).1
  | .hash _ => db.eraseField (lay.place sl).1 (lay.place sl).2

/-- The counter of a code. -/
def stored (c : Bytes) : Int64 := ((lay.held db (.tally c)).bind fun p ↦ stoll p.1).getD 0

variable {lay db} {sl sl' : Slot} {v : Bytes} {d : Option ℤ}

/-- Different slots are in different places. -/
theorem place_inj (h : lay.Fair sl) (h' : lay.Fair sl') (heq : lay.place sl = lay.place sl') :
    sl = sl' := by
  cases lay with
  | key =>
    have hkey := congrArg Prod.fst heq
    cases sl with
    | row c => cases sl' with
      | row c' => exact congrArg Slot.row (lkey_inj.mp hkey)
      | tally c' => exact absurd hkey (lkey_ne_hkey c c')
    | tally c => cases sl' with
      | row c' => exact absurd hkey.symm (lkey_ne_hkey c' c)
      | tally c' => exact congrArg Slot.tally (hkey_inj.mp hkey)
  | hash b =>
    have hfield := congrArg Prod.snd heq
    cases sl with
    | row c => cases sl' with
      | row c' => exact congrArg Slot.row hfield
      | tally c' => exact absurd hfield (ne_hkey h c')
    | tally c => cases sl' with
      | row c' => exact absurd hfield.symm (ne_hkey h' c)
      | tally c' => exact congrArg Slot.tally (hkey_inj.mp hfield)

/-- In the key layout a slot is a key. -/
theorem place_key (sl : Slot) : Layout.key.place sl = ((Layout.key.place sl).1, []) := by
  cases sl with
  | row c => rfl
  | tally c => rfl

theorem held_put (h : lay.Fair sl) (h' : lay.Fair sl') : lay.held (lay.put db sl v d) sl' =
    if sl' = sl then some (v, lay.kept d) else lay.held db sl' := by
  split_ifs with heq
  · rw [heq]
    cases lay with
    | key => exact AList.lookup_insert _
    | hash b => exact congrArg (Option.map fun v ↦ (v, none)) (AList.lookup_insert db.fields)
  · have hne : lay.place sl' ≠ lay.place sl := fun hp ↦ heq (place_inj h' h hp)
    cases lay with
    | key =>
      refine AList.lookup_insert_ne fun hp ↦ hne ?_
      rw [place_key, place_key sl, hp]
    | hash b => exact congrArg (Option.map _) (AList.lookup_insert_ne hne)

theorem held_drop (h : lay.Fair sl) (h' : lay.Fair sl') :
    lay.held (lay.drop db sl) sl' = if sl' = sl then none else lay.held db sl' := by
  split_ifs with heq
  · rw [heq]
    cases lay with
    | key => exact AList.lookup_erase _ db.strings
    | hash b => exact congrArg (Option.map _) (AList.lookup_erase _ db.fields)
  · have hne : lay.place sl' ≠ lay.place sl := fun hp ↦ heq (place_inj h' h hp)
    cases lay with
    | key =>
      refine AList.lookup_erase_ne fun hp ↦ hne ?_
      rw [place_key, place_key sl, hp]
    | hash b => exact congrArg (Option.map _) (AList.lookup_erase_ne hne)

theorem own_put (h : lay.Own db) : lay.Own (lay.put db sl v d) := by
  cases lay with
  | key => exact Redis.fields_setString h _ _
  | hash b => exact h

theorem own_drop (h : lay.Own db) : lay.Own (lay.drop db sl) := by
  cases lay with
  | key => exact Redis.fields_erase h _
  | hash b => exact h

/-- What a node reads is held, until its deadline. -/
theorem value_eq (now : Int64) (c : Bytes) : lay.value db now c =
    ((lay.held db (.row c)).filter fun p ↦ Redis.ahead now p.2).map Prod.fst := by
  cases lay with
  | key => rfl
  | hash b =>
    change db.fields.lookup (bkey b c, c) = Option.map Prod.fst
      (Option.filter _ (Option.map _ (db.fields.lookup (bkey b c, c))))
    cases db.fields.lookup (bkey b c, c) with
    | none => rfl
    | some v => rfl

theorem counter_eq (now : Int64) (c : Bytes) : lay.counter db now c =
    ((lay.held db (.tally c)).filter fun p ↦ Redis.ahead now p.2).map Prod.fst := by
  cases lay with
  | key => rfl
  | hash b =>
    change db.fields.lookup (bkey b c, hkey c) = Option.map Prod.fst
      (Option.filter _ (Option.map _ (db.fields.lookup (bkey b c, hkey c))))
    cases db.fields.lookup (bkey b c, hkey c) with
    | none => rfl
    | some v => rfl

end Layout

/-! ## Counters -/

variable {cfg : Config} {lay : Layout} {db : Redis} {t : Moment} {s : Node × Redis}
  {code url : Bytes} {ttl : Int64}

/-- The counters on the server are numbers, and have no deadline. -/
structure Countable (lay : Layout) (db : Redis) : Prop where
  own : lay.Own db
  tallies : ∀ c, lay.held db (.tally c) = none ∨
    ∃ n : Int64, lay.held db (.tally c) = some (itoa n, none)

theorem countable_empty (lay : Layout) : Countable lay {} where
  own := by cases lay <;> rfl
  tallies c := by
    left
    cases lay with
    | key => rfl
    | hash b => rfl

namespace Countable

/-- The texts of a counter. -/
theorem held_tally (h : Countable lay db) (c : Bytes) : lay.held db (.tally c) = none ∧
    lay.stored db c = 0 ∨ lay.held db (.tally c) = some (itoa (lay.stored db c), none) := by
  rcases h.tallies c with hnone | ⟨n, hn⟩
  · exact .inl ⟨hnone, by rw [Layout.stored, hnone]; rfl⟩
  · have hstored : lay.stored db c = n := by
      rw [Layout.stored, hn, Option.bind_some, stoll_itoa, Option.getD_some]
    exact .inr (by rw [hstored, hn])

theorem counter_eq_held (h : Countable lay db) (now : Int64) (c : Bytes) :
    lay.counter db now c = (lay.held db (.tally c)).map Prod.fst := by
  rw [Layout.counter_eq]
  rcases h.tallies c with hnone | ⟨n, hn⟩
  · rw [hnone]
    rfl
  · rw [hn]
    rfl

/-- Rows do not matter. -/
theorem put_row (h : Countable lay db) {c : Bytes} (hc : lay.Takes c) (v : Bytes) (d : Option ℤ) :
    Countable lay (lay.put db (.row c) v d) where
  own := Layout.own_put h.own
  tallies c' := by
    have hfair : lay.Fair (.tally c') := trivial
    rw [Layout.held_put (show lay.Fair (.row c) from hc) hfair, if_neg (by simp)]
    exact h.tallies c'

theorem drop (h : Countable lay db) {sl : Slot} (hsl : lay.Fair sl) :
    Countable lay (lay.drop db sl) where
  own := Layout.own_drop h.own
  tallies c' := by
    have hfair : lay.Fair (.tally c') := trivial
    rw [Layout.held_drop hsl hfair]
    split_ifs
    · exact .inl rfl
    · exact h.tallies c'

theorem put_tally (h : Countable lay db) (c : Bytes) (n : Int64) :
    Countable lay (lay.put db (.tally c) (itoa n) none) where
  own := Layout.own_put h.own
  tallies c' := by
    have hfair : ∀ c, lay.Fair (.tally c) := fun _ ↦ trivial
    rw [Layout.held_put (hfair c) (hfair c')]
    split_ifs
    · refine .inr ⟨n, ?_⟩
      cases lay with
      | key => rfl
      | hash b => rfl
    · exact h.tallies c'

end Countable

/-- The books of a node. -/
def books (lay : Layout) (s : Node × Redis) : Books Bytes :=
  s.1.books (fun c ↦ lay.Takes c ∧ (lay.held s.2 (.row c)).isSome = true) (lay.stored s.2)

theorem books_empty (lay : Layout) (c : Bytes) :
    (books lay ({}, {})).stored c = 0 ∧ (books lay ({}, {})).pending c = 0 := by
  cases lay with
  | key => exact ⟨rfl, rfl⟩
  | hash b => exact ⟨rfl, rfl⟩

/-! ## Commands on slots -/

/-- A deadline that is set lies ahead. -/
theorem ahead_of_deadline {now : Int64} {px : Option Int64} {d : Option ℤ}
    (h : Redis.deadline now px = some d) : Redis.ahead now d = true := by
  cases px with
  | none =>
    rw [← Option.some.inj h]
    rfl
  | some px =>
    rw [Redis.deadline] at h
    split_ifs at h with hpx
    rw [← Option.some.inj h]
    refine decide_eq_true ?_
    have := toInt_pos.mp hpx.1
    omega

theorem exec_setNew (h : lay.Own s.2) (v : Bytes) :
    (setNew lay code v ttl).exec (step cfg t) s = (false, s) ∨
    ∃ d, (setNew lay code v ttl).exec (step cfg t) s = (true, s.1, lay.put s.2 (.row code) v d) ∧
      Redis.ahead t.now d = true := by
  cases lay with
  | key =>
    rw [setNew, exec_set h]
    cases hd : Redis.deadline t.now (if 0 < ttl then some ttl else none) with
    | none => exact .inl rfl
    | some d =>
      dsimp only
      split_ifs with hthere
      · exact .inl rfl
      · exact .inr ⟨d, rfl, ahead_of_deadline hd⟩
  | hash b =>
    rw [exec_setNew_hash h]
    split_ifs with hthere
    · exact .inl rfl
    · exact .inr ⟨none, rfl, rfl⟩

/-- `remove` finds nothing, or empties both slots. -/
theorem exec_erase (h : Countable lay s.2) (hcode : lay.Takes code) :
    (erase lay code).exec (step cfg t) s = (false, s) ∨
    ∃ db, (erase lay code).exec (step cfg t) s = (true, s.1, db) ∧ Countable lay db ∧
      ∀ sl, lay.Fair sl → lay.held db sl =
        if sl = .row code ∨ sl = .tally code then none else lay.held s.2 sl := by
  have hrow : lay.Fair (.row code) := hcode
  have htally : lay.Fair (.tally code) := trivial
  have hdrop := h.drop hrow
  -- The counter is deleted if there is one.
  have hboth : ∀ sl, lay.Fair sl → lay.held (lay.drop (lay.drop s.2 (.row code)) (.tally code)) sl =
      if sl = .row code ∨ sl = .tally code then none else lay.held s.2 sl := by
    intro sl hsl
    rw [Layout.held_drop htally hsl, Layout.held_drop hrow hsl]
    by_cases hs : sl = .tally code
    · rw [if_pos hs, if_pos (.inr hs)]
    · rw [if_neg hs]
      exact if_congr (by simp [hs]) rfl rfl
  have hone : lay.held (lay.drop s.2 (.row code)) (.tally code) = none →
      ∀ sl, lay.Fair sl → lay.held (lay.drop s.2 (.row code)) sl =
        if sl = .row code ∨ sl = .tally code then none else lay.held s.2 sl := by
    intro hnone sl hsl
    by_cases hs : sl = .tally code
    · rw [if_pos (.inr hs), hs, hnone]
    · rw [Layout.held_drop hrow hsl]
      exact if_congr (by simp [hs]) rfl rfl
  have hcounter := hdrop.counter_eq_held t.now code
  cases lay with
  | key =>
    rw [exec_erase_key h.own]
    split_ifs with hthere
    · refine .inr ?_
      rw [exec_del (s := (s.1, s.2.erase (lkey code))) hdrop.own]
      split_ifs with htally'
      · exact ⟨_, rfl, hdrop.drop htally, hboth⟩
      · refine ⟨_, rfl, hdrop, hone (Option.map_eq_none_iff.mp (hcounter.symm.trans ?_))⟩
        exact Option.map_eq_none_iff.mpr (Option.not_isSome_iff_eq_none.mp htally')
    · exact .inl rfl
  | hash b =>
    rw [exec_erase_hash h.own]
    split_ifs with hthere
    · refine .inr ?_
      rw [exec_hdel (s := (s.1, s.2.eraseField (bkey b code) code)) hdrop.own]
      split_ifs with htally'
      · exact ⟨_, rfl, hdrop.drop htally, hboth⟩
      · refine ⟨_, rfl, hdrop, hone (Option.map_eq_none_iff.mp (hcounter.symm.trans ?_))⟩
        exact Option.not_isSome_iff_eq_none.mp htally'
    · exact .inl rfl

/-! ## Flushes -/

/-- What an increment makes of a counter. -/
def increased (o : Option (Bytes × Option ℤ)) (d : Int64) : Option (Bytes × Option ℤ) :=
  (Redis.plus (o.map Prod.fst) d).toOption.elim o fun n ↦ some (itoa n, none)

/-- One increment. -/
def incr (lay : Layout) (p : Bytes × Int64) : Cmd := match lay with
  | .key => .incrby (hkey p.1) p.2
  | .hash b => .hincrby (bkey b p.1) (hkey p.1) p.2

theorem hitCmds_eq (lay : Layout) (deltas : List (Bytes × Int64)) :
    hitCmds lay deltas = deltas.map (incr lay) := by
  cases lay with
  | key => rfl
  | hash b => rfl

theorem exec_incr (h : Countable lay db) (p : Bytes × Int64) : (db.exec t (incr lay p)).2 =
    match Redis.plus ((lay.held db (.tally p.1)).map Prod.fst) p.2 with
    | .error _ => db
    | .ok n => lay.put db (.tally p.1) (itoa n) none := by
  have hcounter := h.counter_eq_held t.now p.1
  rw [← hcounter]
  cases lay with
  | key =>
    have hforever : (db.string t.now (hkey p.1)).bind Prod.snd = none := by
      rw [Redis.string]
      rcases h.tallies p.1 with hnone | ⟨n, hn⟩
      · rw [show db.strings.lookup (hkey p.1) = none from hnone]
        rfl
      · rw [show db.strings.lookup (hkey p.1) = some (itoa n, none) from hn]
        rfl
    rw [incr, Redis.exec, Redis.isHash_eq_false h.own, hforever, Layout.counter]
    cases Redis.plus ((db.string t.now (hkey p.1)).map Prod.fst) p.2 with
    | error msg => rfl
    | ok n => rfl
  | hash b =>
    rw [incr, Redis.exec, Redis.string_eq_none h.own, Layout.counter]
    cases Redis.plus (db.fields.lookup (bkey b p.1, hkey p.1)) p.2 with
    | error msg => rfl
    | ok n => rfl

/-- One increment changes one counter. -/
theorem held_incr (h : Countable lay db) (p : Bytes × Int64) :
    Countable lay (db.exec t (incr lay p)).2 ∧ ∀ sl, lay.Fair sl →
      lay.held (db.exec t (incr lay p)).2 sl =
        if sl = .tally p.1 then increased (lay.held db (.tally p.1)) p.2 else lay.held db sl := by
  have htally : lay.Fair (.tally p.1) := trivial
  have hkept : lay.kept none = none := by
    cases lay with
    | key => rfl
    | hash b => rfl
  rw [exec_incr h, increased]
  cases Redis.plus ((lay.held db (.tally p.1)).map Prod.fst) p.2 with
  | error msg =>
    refine ⟨h, fun sl _ ↦ ?_⟩
    by_cases hs : sl = .tally p.1
    · rw [if_pos hs, hs]
      rfl
    · rw [if_neg hs]
  | ok n =>
    refine ⟨h.put_tally p.1 n, fun sl hsl ↦ ?_⟩
    dsimp only
    rw [Layout.held_put htally hsl, hkept]
    rfl

/-- The increments of a flush. -/
theorem held_hitCmds (deltas : List (Bytes × Int64)) : ∀ {db : Redis}, Countable lay db →
    Countable lay (executed t db (hitCmds lay deltas)) ∧
    (∀ c, lay.Takes c →
      lay.held (executed t db (hitCmds lay deltas)) (.row c) = lay.held db (.row c)) ∧
    ∀ c, lay.held (executed t db (hitCmds lay deltas)) (.tally c) =
      (deltasOf c deltas).foldl increased (lay.held db (.tally c)) := by
  rw [hitCmds_eq]
  induction deltas with
  | nil => exact fun h ↦ ⟨h, fun _ _ ↦ rfl, fun _ ↦ rfl⟩
  | cons p deltas ih =>
    intro db h
    obtain ⟨hnext, hheld⟩ := @held_incr lay db t h p
    obtain ⟨hlast, hrows, htallies⟩ := ih hnext
    refine ⟨hlast, fun c hc ↦ ?_, fun c ↦ ?_⟩
    · exact (hrows c hc).trans ((hheld (.row c) hc).trans (if_neg (by simp)))
    · have hc : lay.held (db.exec t (incr lay p)).2 (.tally c) =
          if p.1 = c then increased (lay.held db (.tally c)) p.2 else lay.held db (.tally c) := by
        rw [hheld (.tally c) trivial]
        by_cases heq : p.1 = c
        · rw [if_pos heq, if_pos (by rw [heq]), heq]
        · rw [if_neg heq, if_neg (by simpa using Ne.symm heq)]
      refine (htallies c).trans ?_
      rw [hc, deltasOf, deltasOf, List.filterMap_cons]
      by_cases heq : p.1 = c
      · rw [if_pos heq, if_pos heq, List.foldl_cons]
      · rw [if_neg heq, if_neg heq]

theorem plus_eq_ok {o : Option Bytes} {n d : Int64} (ho : o.getD (lit "0") = itoa n)
    (hfits : (n + d).toInt = n.toInt + d.toInt) : Redis.plus o d = .ok (n + d) := by
  simp only [Redis.plus, ho, strtoll_itoa, hfits, ne_eq, not_true_eq_false, if_false]

/-- An increment that fits. -/
theorem increased_tally (h : Countable lay db) (c : Bytes) {d : Int64}
    (hstored : 0 ≤ (lay.stored db c).toInt) (hd : 0 ≤ d.toInt)
    (hfits : (lay.stored db c).toInt + d.toInt < 2 ^ 63) :
    increased (lay.held db (.tally c)) d = some (itoa (lay.stored db c + d), none) := by
  have hsum := toInt_add_of_lt hstored hd hfits
  have htext : ((lay.held db (.tally c)).map Prod.fst).getD (lit "0") = itoa (lay.stored db c) := by
    rcases h.held_tally c with ⟨hnone, hzero⟩ | hsome
    · rw [hnone, hzero]
      decide
    · rw [hsome]
      rfl
  rw [increased, plus_eq_ok htext hsum]
  rfl

/-! ## A node keeps books -/

/-- What an operation means for the books. -/
def event (p : Moment × Op) (out : Out) : Event Bytes := match p.2, out with
  | .shorten _ _ _, .code (some c) => .create c
  | .resolve c, .url (some _) => .hit c
  | .remove c, .result .ok => .delete c
  | .flush, _ => .flush
  | _, _ => .idle

theorem event_ne_lose {p : Moment × Op} {out : Out} : event p out ≠ .lose := by
  rw [event.eq_def]
  split <;> simp

/-- The operations that the books are about. -/
def Plain (lay : Layout) (p : Moment × Op) : Prop := (∀ c ∈ p.2.code, lay.Takes c) ∧ match p.2 with
  | .update _ _ _ _ | .sweep => False
  | .shorten _ _ _ | .resolve _ | .remove _ | .stats _ | .flush => True

theorem books_flush (h : Countable lay s.2) (hfits : Fits (books lay s)) :
    Countable lay (serveOp cfg lay s (t, .flush)).2.2 ∧
      books lay (serveOp cfg lay s (t, .flush)).2 = (books lay s).after .flush := by
  rw [serveOp_flush]
  have hdrained := Backend.drained_allShards t.ord s.1
  generalize s.1.drained t.ord allShards [] = r at hdrained
  obtain ⟨hlast, hrows, htallies⟩ := held_hitCmds (t := t) r.1 h
  refine ⟨hlast, Books.ext (funext fun c ↦ propext ?_) (funext fun c ↦ ?_) (funext fun c ↦ ?_)⟩
  · exact and_congr_right fun hc ↦ by rw [hrows c hc]
  · obtain ⟨hstored, hpending, hlt⟩ := hfits.bounds c
    have htally := htallies c
    rw [(hdrained c).1] at htally
    simp only [books, Node.books, Books.after, Books.balance]
    cases hc : s.1.pendingAt c with
    | none =>
      rw [hc] at htally
      rw [Layout.stored, htally, Option.getD_none]
      exact (add_zero _).symm
    | some d =>
      rw [hc, Option.getD_some] at hpending hlt
      rw [hc] at htally
      change _ = increased (lay.held s.2 (.tally c)) d at htally
      rw [increased_tally h c hstored hpending (by omega)] at htally
      rw [Layout.stored, htally, Option.bind_some, stoll_itoa, Option.getD_some,
        toInt_add_of_lt hstored hpending (by omega), Option.getD_some]
  · simp only [books, Node.books, Books.after, (hdrained c).2, Option.getD_none, Int64.toInt_zero]

/-- **A node keeps books.** -/
theorem keeps_serveOp (htrack : cfg.track = true) :
    Keeps (serveOp cfg lay) event (books lay) (Plain lay) (fun s ↦ Countable lay s.2)
      (2 ^ 63 - 1) := by
  rintro s ⟨t, op⟩ h ⟨hcodes, hplain⟩ hfits
  cases op with
  | shorten url code ttl =>
    have hcode : lay.Takes code := hcodes code rfl
    rcases @exec_setNew cfg lay t s code ttl h.own (enc (expiry t.now ttl) t.now url) with
      hset | ⟨d, hset, -⟩
    · rw [serveOp_shorten hset]
      exact ⟨h, rfl⟩
    · rw [serveOp_shorten hset]
      have hrow : lay.Fair (.row code) := hcode
      refine ⟨h.put_row hcode _ d, Books.ext (funext fun c ↦ propext ?_) (funext fun c ↦ ?_) rfl⟩
      · change lay.Takes c ∧ (lay.held (lay.put _ _ _ _) (.row c)).isSome = true ↔
          Function.update (books lay s).present code True c
        rw [Function.update_apply]
        split_ifs with hc
        · rw [hc, Layout.held_put hrow hrow, if_pos rfl]
          exact ⟨fun _ ↦ trivial, fun _ ↦ ⟨hcode, rfl⟩⟩
        · refine and_congr_right fun htakes ↦ ?_
          rw [Layout.held_put hrow (show lay.Fair (.row c) from htakes), if_neg (by simpa using hc)]
      · change (lay.stored (lay.put _ _ _ _) c).toInt = (lay.stored s.2 c).toInt
        rw [Layout.stored, Layout.held_put hrow (show lay.Fair (.tally c) from trivial),
          if_neg (by simp), Layout.stored]
  | resolve code =>
    rw [serveOp_resolve h.own]
    have hpending := s.1.pendingAt_resolved cfg code (fun _ ↦ t.now) (lay.value s.2 t.now code)
    generalize s.1.resolved cfg code (fun _ ↦ t.now) (lay.value s.2 t.now code) = r at hpending
    obtain ⟨u, n⟩ := r
    refine ⟨h, ?_⟩
    cases u with
    | none =>
      refine Books.ext rfl rfl (funext fun c ↦ congrArg Int64.toInt ?_)
      refine (hpending c).trans ?_
      rw [if_neg (by simp), add_zero]
    | some u => exact books_hit hfits fun c ↦ (hpending c).trans (by simp [htrack])
  | update code url ttl hasTtl => exact hplain.elim
  | remove code =>
    have hcode : lay.Takes code := hcodes code rfl
    rcases @exec_erase cfg lay t s code h hcode with hdel | ⟨db, hdel, hdb, hheld⟩
    · rw [serveOp_remove hdel]
      exact ⟨h, rfl⟩
    · rw [serveOp_remove hdel]
      refine ⟨hdb, Books.ext (funext fun c ↦ propext ?_) (funext fun c ↦ ?_) rfl⟩
      · change lay.Takes c ∧ (lay.held db (.row c)).isSome = true ↔
          Function.update (books lay s).present code False c
        rw [Function.update_apply]
        split_ifs with hc
        · rw [hc, hheld (.row code) hcode, if_pos (.inl rfl)]
          exact ⟨fun hand ↦ Bool.false_ne_true hand.2, False.elim⟩
        · refine and_congr_right fun htakes ↦ ?_
          rw [hheld (.row c) htakes, if_neg (by simpa using hc)]
      · change (lay.stored db c).toInt = Function.update (books lay s).stored code 0 c
        rw [Function.update_apply, Layout.stored, hheld (.tally c) trivial]
        by_cases hc : c = code
        · rw [if_pos (.inr (by rw [hc])), if_pos hc]
          exact Int64.toInt_zero
        · rw [if_neg (by simpa using hc), if_neg hc]
          rfl
  | stats code =>
    rw [serveOp_stats h.own]
    exact ⟨h, rfl⟩
  | flush => exact books_flush h hfits
  | sweep => exact hplain.elim

/-- `KvInnerImpl::flush_hits` when the pipeline throws before a command is executed, which the
flusher catches. -/
def flushHitsThrown : KvProg Unit := drainFrom allShards [] >>= fun _ ↦ return

/-- A node and its hits. -/
def serveHit (cfg : Config) (lay : Layout) (s : Node × Redis) (p : Moment × HitOp) :
    Unit × (Node × Redis) := match p.2 with
  | .bump code => (Backend.bump cfg code).exec (step cfg p.1) s
  | .flush false => (flushHits lay).exec (step cfg p.1) s
  | .flush true => flushHitsThrown.exec (step cfg p.1) s

theorem keeps_serveHit (htrack : cfg.track = true) :
    Keeps (serveHit cfg lay) (fun p _ ↦ p.2.event) (books lay) (fun _ ↦ True)
      (fun s ↦ Countable lay s.2) (2 ^ 63 - 1) := by
  rintro s ⟨t, op⟩ h - hfits
  cases op with
  | bump code =>
    have hserve : serveHit cfg lay s (t, .bump code) = ((), s.1.bumped cfg code, s.2) :=
      exec_bump cfg t.ord (serve t) code s
    rw [hserve]
    refine ⟨h, books_hit hfits fun c ↦ ?_⟩
    rw [Node.pendingAt_bumped]
    simp [htrack]
  | flush fails => cases fails with
    | false =>
      have hserve : (serveHit cfg lay s (t, .flush false)).2 = (serveOp cfg lay s (t, .flush)).2 := by
        rw [serveOp, Op.prog, exec_bind]
        rfl
      rw [hserve]
      exact books_flush h hfits
    | true =>
      have hserve : serveHit cfg lay s (t, .flush true) =
          ((), (s.1.drained t.ord allShards []).2, s.2) := by
        rw [serveHit, flushHitsThrown, exec_bind, exec_drainFrom]
        rfl
      rw [hserve]
      exact ⟨h, books_lose t.ord⟩

/-! ## What `stats` reports -/

/-- `stats` reports the balance of a link that exists. -/
theorem hits_of_stats (h : Countable lay s.2) (hcode : lay.Takes code) {l : Store.Link}
    (hl : (serveOp cfg lay s (t, .stats code)).1 = .link (some l)) :
    (books lay s).present code ∧ l.hits = lay.stored s.2 code + (s.1.pendingAt code).getD 0 := by
  rw [serveOp_stats h.own, Out.link.injEq, Option.map_eq_some_iff] at hl
  obtain ⟨row, hrow, rfl⟩ := hl
  obtain ⟨v, hv, -⟩ := Option.bind_eq_some_iff.mp hrow
  rw [Layout.value_eq, Option.map_eq_some_iff] at hv
  obtain ⟨p, hp, -⟩ := hv
  refine ⟨⟨hcode, ?_⟩, ?_⟩
  · rw [(Option.filter_eq_some_iff.mp hp).1]
    rfl
  · rw [h.counter_eq_held, Layout.stored]
    cases lay.held s.2 (.tally code) with
    | none => rfl
    | some p => rfl

/-- `stats` reports a link that was just created. -/
theorem stats_of_create (h : Countable lay s.2) (hcode : lay.Takes code)
    (hcreate : (serveOp cfg lay s (t, .shorten url code ttl)).1 = .code (some code)) :
    ∃ l, (serveOp cfg lay (serveOp cfg lay s (t, .shorten url code ttl)).2 (t, .stats code)).1 =
      .link (some l) := by
  rcases @exec_setNew cfg lay t s code ttl h.own (enc (expiry t.now ttl) t.now url) with
    hset | ⟨d, hset, hahead⟩
  · rw [serveOp_shorten hset] at hcreate
    cases hcreate
  · have hrow : lay.Fair (.row code) := hcode
    have hahead' : Redis.ahead t.now (lay.kept d) = true := by
      cases lay with
      | key => exact hahead
      | hash b => rfl
    have hvalue : lay.value (lay.put s.2 (.row code) (enc (expiry t.now ttl) t.now url) d) t.now
        code = some (enc (expiry t.now ttl) t.now url) := by
      rw [Layout.value_eq, Layout.held_put hrow hrow, if_pos rfl, Option.filter_some, if_pos hahead']
      rfl
    rw [serveOp_shorten hset, serveOp_stats (Layout.own_put h.own)]
    dsimp only
    rw [hvalue, Option.bind_some, dec_enc]
    exact ⟨_, rfl⟩

/-- There are statistics of a code, at some time. -/
def Reported (cfg : Config) (lay : Layout) (s : Node × Redis) (c : Bytes) : Prop :=
  lay.Takes c ∧ ∃ t l, (serveOp cfg lay s (t, .stats c)).1 = .link (some l)

theorem shorten_of_event {p : Moment × Op} {out : Out} {c : Bytes} (he : event p out = .create c) :
    (∃ url code ttl, p.2 = .shorten url code ttl) ∧ out = .code (some c) := by
  rw [event.eq_def] at he
  split at he
  · rename_i url code ttl c' hop
    exact ⟨⟨url, code, ttl, hop⟩, by rw [Event.create.inj he]⟩
  all_goals cases he

theorem reported_of_event {p : Moment × Op} {c : Bytes} (h : Countable lay s.2)
    (hplain : Plain lay p) (he : event p (serveOp cfg lay s p).1 = .create c) :
    Reported cfg lay (serveOp cfg lay s p).2 c := by
  obtain ⟨t, op⟩ := p
  obtain ⟨⟨url, code, ttl, rfl⟩, hout⟩ := shorten_of_event he
  have hcode : lay.Takes code := hplain.1 code rfl
  -- The code that is returned is the alias.
  obtain rfl : code = c := by
    rcases @exec_setNew cfg lay t s code ttl h.own (enc (expiry t.now ttl) t.now url) with
      hset | ⟨d, hset, -⟩
    · rw [serveOp_shorten hset] at hout
      cases hout
    · rw [serveOp_shorten hset] at hout
      exact Option.some.inj (Out.code.inj hout)
  exact ⟨hcode, t, stats_of_create h hcode hout⟩

end Shrt.Kv
