import Shrt.Kv.Node

/-!
# What the client functions return

One lemma for each function of the client that the node is made of, for a server that holds no key
of the other kind (`Layout.Own`). After these, a proof about a node need not look at replies again.
-/

namespace Shrt.Kv

open Backend (Config Node enc dec)
open Interleave (Prog)

/-! ## Replies -/

theorem null_seen_bulk (v : Bytes) : (Value.bulk v).seen.null = false := by
  have hnum : ¬ Int64.ofNat (min v.length (2 ^ 63 - 1)) < 0 := by
    rw [Int64.lt_iff_toInt_lt, Int64.toInt_ofNat_of_lt (by omega)]
    exact not_lt.mpr (Int.natCast_nonneg _)
  rw [Resp.null, Value.seen]
  simp only [decide_eq_false hnum]
  rfl

/-- What `get` and `hget` make of a string or nothing. -/
theorem str_seen_bulk (o : Option Bytes) :
    (if (Redis.bulk o).seen.null then none else some (Redis.bulk o).seen.str) = o := by
  cases o with
  | none => rfl
  | some v =>
    rw [Redis.bulk, null_seen_bulk]
    rfl

theorem kind_seen_bulk (o : Option Bytes) : (Redis.bulk o).seen.kind = 36 := by
  cases o with
  | none => rfl
  | some v => rfl

theorem pairs_respAll (g : Bytes → Bytes) (fs : List Bytes) :
    pairs (Value.respAll (fs.flatMap fun f ↦ [.bulk f, .bulk (g f)])) =
      fs.map fun f ↦ (f, g f) := by
  induction fs with
  | nil => rfl
  | cons f fs ih =>
    rw [List.map_cons, ← ih]
    rfl

/-- What an iteration over a hash lists is there. -/
theorem lookup_of_mem_hscan {db : Redis} {t : Moment} {k : Bytes} {p : Bytes × Bytes}
    (hp : p ∈ pairs (db.exec t (.hscan k)).1.seen.scanned) :
    db.fields.lookup (k, p.1) = some p.2 := by
  rw [Redis.exec] at hp
  split_ifs at hp
  · exact absurd hp List.not_mem_nil
  · change p ∈ pairs (Value.respAll ((t.scan.walk _).flatMap fun f ↦
      [.bulk f, .bulk ((db.fields.lookup (k, f)).getD [])])) at hp
    rw [pairs_respAll] at hp
    obtain ⟨f, hf, rfl⟩ := List.mem_map.mp hp
    obtain ⟨⟨k', f'⟩, hmem, rfl⟩ := List.mem_map.mp ((t.scan.mem_walk _ _).mp hf)
    obtain ⟨hkeys, hk⟩ := List.mem_filter.mp hmem
    obtain rfl : k' = k := of_decide_eq_true hk
    obtain ⟨v, hv⟩ := Option.isSome_iff_exists.mp (AList.lookup_isSome.mpr hkeys)
    dsimp only
    rw [hv]
    rfl

theorem exec_hscan_snd (db : Redis) (t : Moment) (k : Bytes) : (db.exec t (.hscan k)).2 = db := by
  rw [Redis.exec]
  split_ifs
  · rfl
  · rfl

/-! ## The server's keys -/

namespace Redis

variable {db : Redis} {now : Int64} {k : Bytes}

theorem isHash_eq_false (h : db.fields = ∅) (k : Bytes) : db.isHash k = false := by
  rw [isHash, h]
  rfl

theorem string_eq_none (h : db.strings = ∅) (now : Int64) (k : Bytes) :
    db.string now k = none := by
  rw [string, h]
  rfl

theorem has_eq (h : db.fields = ∅) (now : Int64) (k : Bytes) :
    db.has now k = (db.string now k).isSome := by
  rw [has, isHash_eq_false h, Bool.or_false]

@[simp] theorem fields_erase (h : db.fields = ∅) (k : Bytes) : (db.erase k).fields = ∅ := by
  rw [erase, h]
  rfl

@[simp] theorem fields_setString (h : db.fields = ∅) (k : Bytes) (s : Bytes × Option ℤ) :
    (db.setString k s).fields = ∅ :=
  fields_erase h k

end Redis

/-! ## The layouts -/

theorem lkey_inj {c c' : Bytes} : lkey c = lkey c' ↔ c = c' := List.append_right_inj _

theorem hkey_inj {c c' : Bytes} : hkey c = hkey c' ↔ c = c' := List.append_right_inj _

theorem lkey_ne_hkey (c c' : Bytes) : lkey c ≠ hkey c' := fun h ↦
  absurd (List.cons.inj h).1 (by decide)

/-- The hit field of no code is the field of a link. -/
theorem ne_hkey {c : Bytes} (hc : ¬ lit "h:" <+: c) (c' : Bytes) : c ≠ hkey c' := by
  rintro rfl
  exact hc (List.prefix_append _ _)

namespace Layout

/-- The server holds nothing of the kind that the layout does not use. -/
def Own (lay : Layout) (db : Redis) : Prop := match lay with
  | .key => db.fields = ∅
  | .hash _ => db.strings = ∅

/-- The value of a code. -/
def value (lay : Layout) (db : Redis) (now : Int64) (c : Bytes) : Option Bytes := match lay with
  | .key => (db.string now (lkey c)).map Prod.fst
  | .hash b => db.fields.lookup (bkey b c, c)

/-- The counter of a code. -/
def counter (lay : Layout) (db : Redis) (now : Int64) (c : Bytes) : Option Bytes := match lay with
  | .key => (db.string now (hkey c)).map Prod.fst
  | .hash b => db.fields.lookup (bkey b c, hkey c)

end Layout

/-! ## Client functions -/

variable {cfg : Config} {t : Moment} {s : Node × Redis} {lay : Layout}

/-- What an action does at a moment. -/
abbrev step (cfg : Config) (t : Moment) :
    (a : Backend.Act Cmd) → Node × Redis → a.Reply (fun _ ↦ Resp) × (Node × Redis) :=
  Backend.act cfg t.ord (serve t)

section Nodes

variable {ι : Type} [DecidableEq ι]

/-- What an action of one node does to the nodes and the server. -/
def stepAt (cfg : ι → Config) (i : ι) (t : Moment) (a : Backend.Act Cmd) (s : (ι → Node) × Redis) :
    a.Reply (fun _ ↦ Resp) × ((ι → Node) × Redis) :=
  ((step (cfg i) t a (s.1 i, s.2)).1, Function.update s.1 i (step (cfg i) t a (s.1 i, s.2)).2.1,
    (step (cfg i) t a (s.1 i, s.2)).2.2)

/-- What a program of one node does. -/
theorem exec_stepAt {β : Type} (cfg : ι → Config) (i : ι) (t : Moment) (p : KvProg β)
    (s : (ι → Node) × Redis) : p.exec (stepAt cfg i t) s =
      ((p.exec (step (cfg i) t) (s.1 i, s.2)).1,
        Function.update s.1 i (p.exec (step (cfg i) t) (s.1 i, s.2)).2.1,
        (p.exec (step (cfg i) t) (s.1 i, s.2)).2.2) := by
  induction p generalizing s with
  | ret b =>
    rw [Prog.exec_ret, Prog.exec_ret, Function.update_eq_self]
  | act a k ih =>
    rw [Prog.exec_act, Prog.exec_act, ih]
    simp only [stepAt, Function.update_self, Function.update_idem]

end Nodes

theorem exec_get (h : s.2.fields = ∅) (k : Bytes) :
    (get k).exec (step cfg t) s = ((s.2.string t.now k).map Prod.fst, s) := by
  change (if (s.2.exec t (.get k)).1.seen.null then none else
    some (s.2.exec t (.get k)).1.seen.str, s.1, (s.2.exec t (.get k)).2) = _
  rw [Redis.exec, Redis.isHash_eq_false h, if_neg Bool.false_ne_true, str_seen_bulk]

theorem exec_hget (h : s.2.strings = ∅) (k f : Bytes) :
    (hget k f).exec (step cfg t) s = (s.2.fields.lookup (k, f), s) := by
  change (if (s.2.exec t (.hget k f)).1.seen.kind = 36 && !(s.2.exec t (.hget k f)).1.seen.null then
    some (s.2.exec t (.hget k f)).1.seen.str else none, s.1, (s.2.exec t (.hget k f)).2) = _
  have hnone : ((s.2.string t.now k).isSome : Prop) ↔ False := by simp [Redis.string_eq_none h]
  simp only [Redis.exec, hnone, if_false, kind_seen_bulk, decide_true, Bool.true_and,
    Bool.not_eq_true', ← Bool.not_eq_true, ite_not, str_seen_bulk]

theorem exec_set (h : s.2.fields = ∅) (k v : Bytes) (px : Int64) (nx : Bool) :
    (set k v px nx).exec (step cfg t) s =
      match Redis.deadline t.now (if 0 < px then some px else none) with
      | none => (false, s)
      | some d => if nx ∧ (s.2.string t.now k).isSome then (false, s)
        else (true, s.1, s.2.setString k (v, d)) := by
  change (decide ((s.2.exec t (.set k v (if 0 < px then some px else none) nx)).1.seen.kind = 43) &&
    decide ((s.2.exec t (.set k v (if 0 < px then some px else none) nx)).1.seen.str = lit "OK"),
    s.1, (s.2.exec t (.set k v (if 0 < px then some px else none) nx)).2) = _
  rw [Redis.exec, Redis.has_eq h]
  cases Redis.deadline t.now (if 0 < px then some px else none) with
  | none => rfl
  | some d =>
    simp only [Bool.and_eq_true]
    by_cases hnx : nx = true ∧ (s.2.string t.now k).isSome = true
    · rw [if_pos hnx, if_pos hnx]
      rfl
    · rw [if_neg hnx, if_neg hnx]
      rfl

theorem exec_del (h : s.2.fields = ∅) (k : Bytes) : (del k).exec (step cfg t) s =
    if (s.2.string t.now k).isSome then (1, s.1, s.2.erase k) else (0, s) := by
  change ((s.2.exec t (.del k)).1.seen.int, s.1, (s.2.exec t (.del k)).2) = _
  rw [Redis.exec, Redis.has_eq h]
  split_ifs with hk
  · rfl
  · rfl

theorem exec_hsetnx (h : s.2.strings = ∅) (k f v : Bytes) : (hsetnx k f v).exec (step cfg t) s =
    if (s.2.fields.lookup (k, f)).isSome then (false, s) else (true, s.1, s.2.setField k f v) := by
  change (decide ((s.2.exec t (.hsetnx k f v)).1.seen.kind = 58) &&
    decide ((s.2.exec t (.hsetnx k f v)).1.seen.num = 1), s.1, (s.2.exec t (.hsetnx k f v)).2) = _
  have hnone : ((s.2.string t.now k).isSome : Prop) ↔ False := by simp [Redis.string_eq_none h]
  simp only [Redis.exec, hnone, if_false]
  split_ifs with hk
  · rfl
  · rfl

theorem exec_hset (h : s.2.strings = ∅) (k f v : Bytes) : (hset k f v).exec (step cfg t) s =
    (true, s.1, s.2.setField k f v) := by
  change (decide ((s.2.exec t (.hset k f v)).1.seen.kind = 58), s.1, (s.2.exec t (.hset k f v)).2) = _
  have hnone : ((s.2.string t.now k).isSome : Prop) ↔ False := by simp [Redis.string_eq_none h]
  simp only [Redis.exec, hnone, if_false]
  rfl

theorem exec_hdel (h : s.2.strings = ∅) (k f : Bytes) : (hdel k f).exec (step cfg t) s =
    if (s.2.fields.lookup (k, f)).isSome then (1, s.1, s.2.eraseField k f) else (0, s) := by
  change ((s.2.exec t (.hdel k f)).1.seen.int, s.1, (s.2.exec t (.hdel k f)).2) = _
  have hnone : ((s.2.string t.now k).isSome : Prop) ↔ False := by simp [Redis.string_eq_none h]
  simp only [Redis.exec, hnone, if_false]
  split_ifs with hk
  · rfl
  · rfl

/-! ## Node functions -/

theorem exec_kvGet (h : lay.Own s.2) (c : Bytes) :
    (kvGet lay c).exec (step cfg t) s = (lay.value s.2 t.now c, s) := by
  cases lay with
  | key => exact exec_get h _
  | hash b => exact exec_hget h _ _

theorem exec_kvHits (h : lay.Own s.2) (c : Bytes) :
    (kvHits lay c).exec (step cfg t) s = (lay.counter s.2 t.now c, s) := by
  cases lay with
  | key => exact exec_get h _
  | hash b => exact exec_hget h _ _

end Shrt.Kv
