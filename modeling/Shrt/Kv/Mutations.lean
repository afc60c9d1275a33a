import Shrt.Kv.Exec
import Shrt.Lib.Linear

/-!
# Mutations from many nodes

In the key layout `shorten` is one command and `remove` is decided by its first, so they take effect
at once. `update` reads the row and writes it back with another command. What it writes depends on
what it read: the creation time, and the expiry unless it sets one. If these are still the ones of
the row when it writes, it might as well have read the row then; if they are not, it brings back
what is gone.

The calls of any number of nodes on one code are linearizable as long as every `update` writes what
it would write for the row that is there (`mutations_linearizable`).
-/

namespace Shrt.Kv

open Backend (Act Config Node Out Row enc dec dec_enc cacheDel)
open Interleave (Pool Prog Thread Label Turn Replays Linearizes Linearizable LinearizationPoints)
open Interleave.Prog (exec_bind act_ret_bind_eq_act)
open Store (MutResult)
open Transition (run Meets)

/-! ## The system -/

/-- A request that changes the link. -/
inductive Mutation where
  | shorten (url : Bytes) (ttl : Int64) (clk : Clock)
  | update (url : Bytes) (ttl : Int64) (hasTtl : Bool) (clk : Clock)
  | remove

/-- What a node does for a request. -/
def Mutation.prog (code : Bytes) : Mutation → KvProg Out
  | .shorten url ttl clk => do return .code (← Kv.shorten .key url code ttl clk)
  | .update url ttl hasTtl clk => do return .result (← Kv.update .key code url ttl hasTtl clk)
  | .remove => do return .result (← Kv.remove .key code)

variable {ι : Type} [DecidableEq ι]

/-- The nodes and the server, and the requests that run. -/
abbrev MutationPool (ι : Type) :=
  Pool ((ι → Node) × Redis) (ι × Mutation) (Act Cmd) (Act.Reply fun _ ↦ Resp) Out

/-- What may happen next: a request arrives at a node, or a node takes a step. -/
def mutationStep (cfg : ι → Config) (code : Bytes) :
    MutationPool ι → Label (ι × Mutation) Moment → Option (MutationPool ι) :=
  Pool.step (fun c ↦ c.2.prog code) fun c ↦ stepAt cfg c.1

/-- The value that a request would write for a row. -/
def Mutation.value : Mutation → Option Row → Option Bytes
  | .shorten url ttl clk, _ => some (enc (expiry (clk 0) ttl) (clk 0) url)
  | .update url ttl hasTtl clk, row =>
    row.map fun row ↦ enc (if hasTtl then expiry (clk 0) ttl else row.e) row.c url
  | .remove, _ => none

/-- The value that a node is about to write. -/
def pendingWrite : KvProg Out → Option Bytes
  | .act (.query (.set _ v _ _)) _ => some v
  | _ => none

/-- The row of a code as a command sees it. -/
def rowAt (code : Bytes) (db : Redis) (now : Int64) : Option Row :=
  (Layout.key.value db now code).bind dec

/-- The condition: what is written is what the request would write for the row that is there. -/
def Unchanged (code : Bytes) (P : MutationPool ι) : Label (ι × Mutation) Moment → Prop
  | .start _ => True
  | .step i t => ∀ th ∈ P.threads[i]?, ∀ v ∈ pendingWrite th.prog,
      th.call.2.value (rowAt code P.shared.2 t.now) = some v

instance (code : Bytes) (P : MutationPool ι) : DecidablePred (Unchanged code P)
  | .start _ => inferInstanceAs (Decidable True)
  | .step _ _ => inferInstanceAs (Decidable (∀ th ∈ _, ∀ v ∈ _, _))

/-- The servers have the same row, and no hashes. -/
structure SameRow (code : Bytes) (db db' : Redis) : Prop where
  left : db.fields = ∅
  right : db'.fields = ∅
  row : db.strings.lookup (lkey code) = db'.strings.lookup (lkey code)

section Server

variable {code : Bytes} {t : Moment} {db db' db'' : Redis}

theorem SameRow.trans (h : SameRow code db db') (h' : SameRow code db' db'') : SameRow code db db'' :=
  ⟨h.left, h'.right, h.row.trans h'.row⟩

theorem SameRow.symm (h : SameRow code db db') : SameRow code db' db := ⟨h.right, h.left, h.row.symm⟩

/-! ## Commands -/

/-- The commands on the row. -/
inductive OnRow (code : Bytes) : Cmd → Prop
  | get : OnRow code (.get (lkey code))
  | set (v : Bytes) (px : Option Int64) (nx : Bool) : OnRow code (.set (lkey code) v px nx)
  | del : OnRow code (.del (lkey code))

/-- A command on the row sees the same and does the same. -/
theorem SameRow.exec (h : SameRow code db db') {c : Cmd} (hc : OnRow code c) :
    (db.exec t c).1 = (db'.exec t c).1 ∧ SameRow code (db.exec t c).2 (db'.exec t c).2 := by
  have hstring : db.string t.now (lkey code) = db'.string t.now (lkey code) := by
    rw [Redis.string, Redis.string, h.row]
  cases hc with
  | get =>
    rw [Redis.exec, Redis.exec, Redis.isHash_eq_false h.left, Redis.isHash_eq_false h.right, hstring]
    exact ⟨rfl, h⟩
  | set v px nx =>
    rw [Redis.exec, Redis.exec, Redis.has_eq h.left, Redis.has_eq h.right, hstring]
    cases Redis.deadline t.now px with
    | none => exact ⟨rfl, h⟩
    | some d =>
      dsimp only
      split_ifs
      · exact ⟨rfl, h⟩
      · refine ⟨rfl, Redis.fields_setString h.left _ _, Redis.fields_setString h.right _ _, ?_⟩
        rw [Redis.setString, Redis.setString, AList.lookup_insert, AList.lookup_insert]
  | del =>
    rw [Redis.exec, Redis.exec, Redis.has_eq h.left, Redis.has_eq h.right, hstring]
    split_ifs
    · refine ⟨rfl, Redis.fields_erase h.left _, Redis.fields_erase h.right _, ?_⟩
      rw [Redis.erase, Redis.erase, AList.lookup_erase, AList.lookup_erase]
    · exact ⟨rfl, h⟩

/-- Deleting the counter leaves the row. -/
theorem SameRow.delHits (h : SameRow code db db') :
    SameRow code db (db'.exec t (.del (hkey code))).2 := by
  rw [Redis.exec]
  split_ifs
  · refine ⟨h.left, Redis.fields_erase h.right _, h.row.trans ?_⟩
    rw [Redis.erase, AList.lookup_erase_ne (lkey_ne_hkey code code)]
  · exact h

end Server

/-! ## Actions -/

/-- The actions that have nothing to do with the row. -/
inductive OffRow (code : Bytes) : Act Cmd → Prop
  | cacheDel : OffRow code (.cacheDel code)
  | delHits : OffRow code (.query (.del (hkey code)))

/-- What is left has nothing to do with the row, and returns `b`. -/
def Settled (code : Bytes) (b : Out) : KvProg Out → Prop
  | .ret b' => b' = b
  | .act a k => OffRow code a ∧ ∀ r, Settled code b (k r)

/-- What is left depends on the row alone. -/
def Steady (code : Bytes) : KvProg Out → Prop
  | .ret _ => True
  | .act a k => ((∃ c, OnRow code c ∧ a = .query c) ∨ (OffRow code a ∧ ∀ r r', k r = k r')) ∧
      ∀ r, Steady code (k r)

variable (cfg : ι → Config) {code : Bytes} (i : ι) (t : Moment) {s s' : (ι → Node) × Redis}

theorem SameRow.offRow (h : SameRow code s.2 s'.2) {a : Act Cmd} (ha : OffRow code a) :
    SameRow code s.2 (stepAt cfg i t a s').2.2 := by
  cases ha with
  | cacheDel => exact h
  | delHits => exact h.delHits

/-- What is left is over without a trace on the row. -/
theorem Settled.exec {b : Out} {p : KvProg Out} (hp : Settled code b p)
    (h : SameRow code s.2 s'.2) : (p.exec (stepAt cfg i t) s').1 = b ∧
      SameRow code s.2 (p.exec (stepAt cfg i t) s').2.2 := by
  induction p generalizing s' with
  | ret b' => exact ⟨hp, h⟩
  | act a k ih => exact ih _ (hp.2 _) (h.offRow cfg i t hp.1)

/-- In one go, a request returns the same and leaves the same row wherever the row is the same. -/
theorem Steady.exec {p : KvProg Out} (hp : Steady code p) (h : SameRow code s.2 s'.2) :
    (p.exec (stepAt cfg i t) s).1 = (p.exec (stepAt cfg i t) s').1 ∧
      SameRow code (p.exec (stepAt cfg i t) s).2.2 (p.exec (stepAt cfg i t) s').2.2 := by
  induction p generalizing s s' with
  | ret b => exact ⟨rfl, h⟩
  | act a k ih =>
    obtain ⟨⟨c, hc, rfl⟩ | ⟨ha, hk⟩, hrest⟩ := hp
    · obtain ⟨hreply, hafter⟩ := h.exec (t := t) hc
      have hresp : (stepAt cfg i t (.query c) s).1 = (stepAt cfg i t (.query c) s').1 :=
        congrArg Value.seen hreply
      rw [Prog.exec_act, Prog.exec_act, hresp]
      exact ih _ (hrest _) hafter
    · rw [Prog.exec_act, Prog.exec_act, hk _ (stepAt cfg i t a s').1]
      exact ih _ (hrest _) ((h.symm.offRow cfg i t ha).symm.offRow cfg i t ha)

variable {cfg i t}

/-! ## Requests -/

/-- The end of `update`, given whether the write succeeded, and of `remove`, given whether there was
a row. -/
def finish (code : Bytes) (ok : Bool) : KvProg MutResult := do
  if ok then
    cacheDel code
    return .ok
  else return .missing

/-- What is left of `update` when it has read the row: it writes. -/
def writing (code url : Bytes) (exp c : Int64) (clk : Clock) : KvProg Out := do
  return .result (← (overwrite .key code exp (enc exp c url) (clk 1) >>= finish code))

/-- What is left of `remove` when the first `DEL` has returned `n`. -/
def erasing (code : Bytes) (n : Int64) : KvProg Bool := do
  if n ≤ 0 then return false
  let _ ← del (hkey code)
  return true

/-- What is left of `update` when it has read the row, or found none. -/
def afterRead (code url : Bytes) (ttl : Int64) (hasTtl : Bool) (clk : Clock) : Option Row → KvProg Out
  | none => .ret (.result .missing)
  | some row => writing code url (if hasTtl then expiry (clk 0) ttl else row.e) row.c clk

theorem prog_shorten (url : Bytes) (ttl : Int64) (clk : Clock) :
    (Mutation.shorten url ttl clk).prog code =
      set (lkey code) (enc (expiry (clk 0) ttl) (clk 0) url) ttl true >>= fun ok ↦
        (if ok then return some code else return none) >>= fun o ↦ .ret (.code o) := rfl

theorem prog_update (url : Bytes) (ttl : Int64) (hasTtl : Bool) (clk : Clock) :
    (Mutation.update url ttl hasTtl clk).prog code =
      get (lkey code) >>= fun v ↦ afterRead code url ttl hasTtl clk (v.bind dec) := by
  refine congrArg (Prog.act _) (funext fun r ↦ ?_)
  change ((match (if r.null then none else some r.str).bind dec with
    | none => Prog.ret MutResult.missing
    | some row => _) >>= fun o ↦ Prog.ret (Out.result o) : KvProg Out) =
      afterRead code url ttl hasTtl clk ((if r.null then none else some r.str).bind dec)
  cases (if r.null then none else some r.str).bind dec with
  | none => rfl
  | some row => rfl

theorem prog_remove : Mutation.remove.prog code =
    del (lkey code) >>= fun n ↦ do return .result (← (erasing code n >>= finish code)) := rfl

/-- The requests that have not taken effect. -/
inductive Unsettled (code : Bytes) : Mutation → KvProg Out → Prop
  | called (m : Mutation) : Unsettled code m (m.prog code)
  | writing (url : Bytes) (ttl : Int64) (hasTtl : Bool) (clk : Clock) (row : Row) :
    Unsettled code (.update url ttl hasTtl clk)
      (writing code url (if hasTtl then expiry (clk 0) ttl else row.e) row.c clk)

theorem not_unsettled_ret (m : Mutation) (b : Out) : ¬ Unsettled code m (.ret b) := by
  intro h
  generalize hp : (Prog.ret b : KvProg Out) = p at h
  cases h with
  | called =>
    cases m with
    | shorten _ _ _ => cases hp
    | update _ _ _ _ => cases hp
    | remove => cases hp
  | writing _ _ _ _ _ => cases hp

/-- Once `shorten` has tried to write, it is settled. -/
theorem settled_created (ok : Bool) : ∃ b, Settled code b
    ((if ok then return some code else return none) >>= fun o ↦ .ret (.code o)) := by
  cases ok with
  | false => exact ⟨.code none, rfl⟩
  | true => exact ⟨.code (some code), rfl⟩

/-- Once `update` has written, it is settled. -/
theorem settled_finish (ok : Bool) :
    ∃ b, Settled code b (do return .result (← finish code ok)) := by
  cases ok with
  | false => exact ⟨.result .missing, rfl⟩
  | true => exact ⟨.result .ok, .cacheDel, fun _ ↦ rfl⟩

/-- Once `remove` has deleted the row or found none, it is settled. -/
theorem settled_erasing (n : Int64) :
    ∃ b, Settled code b (do return .result (← (erasing code n >>= finish code))) := by
  rw [erasing]
  by_cases hn : n ≤ 0
  · rw [if_pos hn]
    exact ⟨.result .missing, rfl⟩
  · rw [if_neg hn]
    exact ⟨.result .ok, .delHits, fun _ ↦ ⟨.cacheDel, fun _ ↦ rfl⟩⟩

theorem steady_finish (ok : Bool) : Steady code (do return .result (← finish code ok)) := by
  cases ok with
  | false => trivial
  | true => exact ⟨.inr ⟨.cacheDel, fun _ _ ↦ rfl⟩, fun _ ↦ trivial⟩

theorem steady_erasing (n : Int64) :
    Steady code (do return .result (← (erasing code n >>= finish code))) := by
  rw [erasing]
  by_cases hn : n ≤ 0
  · rw [if_pos hn]
    trivial
  · rw [if_neg hn]
    exact ⟨.inr ⟨.delHits, fun _ _ ↦ rfl⟩, fun _ ↦ steady_finish true⟩

/-- A request depends on the row alone. -/
theorem steady_prog (m : Mutation) : Steady code (m.prog code) := by
  cases m with
  | shorten url ttl clk =>
    rw [prog_shorten]
    refine ⟨.inl ⟨_, .set _ _ _, rfl⟩, fun r ↦ ?_⟩
    change Steady code ((if _ = true then Prog.ret (some code) else Prog.ret none) >>= _)
    split_ifs
    · trivial
    · trivial
  | update url ttl hasTtl clk =>
    rw [prog_update]
    refine ⟨.inl ⟨_, .get, rfl⟩, fun r ↦ ?_⟩
    change Steady code (afterRead code url ttl hasTtl clk
      ((if r.null then none else some r.str).bind dec))
    cases (if r.null then none else some r.str).bind dec with
    | none => trivial
    | some row => exact ⟨.inl ⟨_, .set _ _ _, rfl⟩, fun _ ↦ steady_finish _⟩
  | remove =>
    rw [prog_remove]
    exact ⟨.inl ⟨_, .del, rfl⟩, fun r ↦ steady_erasing _⟩

/-! ## Where requests take effect -/

/-- A request that is settled after a step of its own did in one go what it did so far. -/
theorem turn_of_settled {m : Mutation} {p : KvProg Out} {u : (ι → Node) × Redis}
    (hrel : SameRow code u.2 s.2) (hp : ∃ b, Settled code b p) (hown : s'.2.fields = ∅)
    (hexec : (m.prog code).exec (stepAt cfg i t) s = p.exec (stepAt cfg i t) s') :
    ∃ b u', (m.prog code).exec (stepAt cfg i t) u = (b, u') ∧ SameRow code u'.2 s'.2 ∧
      Settled code b p := by
  obtain ⟨b, hb⟩ := hp
  obtain ⟨hout, hrow⟩ := hb.exec cfg i t (⟨hown, hown, rfl⟩ : SameRow code s'.2 s'.2)
  obtain ⟨hout', hrow'⟩ := (steady_prog m).exec cfg i t hrel
  rw [hexec] at hout' hrow'
  exact ⟨b, _, Prod.ext (hout'.trans hout) rfl, hrow'.trans hrow.symm, hb⟩

/-- One command leaves the nodes as they are. -/
theorem exec_command {β : Type} (c : Cmd) (g : Resp → β) :
    Prog.exec (stepAt cfg i t) (.act (.query c) fun r : Resp ↦ .ret (g r)) s =
      ((Prog.exec (step (cfg i) t) (.act (.query c) fun r : Resp ↦ .ret (g r)) (s.1 i, s.2)).1, s.1,
        (Prog.exec (step (cfg i) t) (.act (.query c) fun r : Resp ↦ .ret (g r)) (s.1 i, s.2)).2.2) :=
  Prod.ext rfl (Prod.ext (Function.update_eq_self i s.1) rfl)

theorem exec_getRow (h : s.2.fields = ∅) : (get (lkey code)).exec (stepAt cfg i t) s =
    (Layout.key.value s.2 t.now code, s) := by
  have hget := @exec_get (cfg i) t (s.1 i, s.2) h (lkey code)
  refine (exec_command (.get (lkey code)) fun r ↦ if r.null then none else some r.str).trans ?_
  exact congrArg (fun p ↦ (p.1, s.1, p.2.2)) hget

theorem exec_delRow (h : s.2.fields = ∅) : (del (lkey code)).exec (stepAt cfg i t) s =
    if (s.2.string t.now (lkey code)).isSome then (1, s.1, s.2.erase (lkey code)) else (0, s) := by
  have hdel := @exec_del (cfg i) t (s.1 i, s.2) h (lkey code)
  refine (exec_command (.del (lkey code)) Resp.int).trans ?_
  refine (congrArg (fun p ↦ (p.1, s.1, p.2.2)) hdel).trans ?_
  split_ifs
  · rfl
  · rfl

/-- `update` in one go, when it finds a row. -/
theorem exec_update (h : s.2.fields = ∅) (url : Bytes) (ttl : Int64) (hasTtl : Bool) (clk : Clock) :
    ((Mutation.update url ttl hasTtl clk).prog code).exec (stepAt cfg i t) s =
      (afterRead code url ttl hasTtl clk (rowAt code s.2 t.now)).exec (stepAt cfg i t) s := by
  rw [prog_update, exec_bind, exec_getRow h]
  rfl

/-- A step of a request that has not taken effect: either it reads, or it takes effect. -/
def Advances (cfg : ι → Config) (code : Bytes) (i : ι) (t : Moment) (m : Mutation) (a : Act Cmd)
    (k : a.Reply (fun _ ↦ Resp) → KvProg Out) (u s : (ι → Node) × Redis) : Prop :=
  (SameRow code u.2 (stepAt cfg i t a s).2.2 ∧ Unsettled code m (k (stepAt cfg i t a s).1)) ∨
    ∃ b u', (m.prog code).exec (stepAt cfg i t) u = (b, u') ∧
      SameRow code u'.2 (stepAt cfg i t a s).2.2 ∧ Settled code b (k (stepAt cfg i t a s).1)

theorem fields_onRow (hown : s.2.fields = ∅) {c : Cmd} (hc : OnRow code c) :
    (stepAt cfg i t (.query c) s).2.2.fields = ∅ :=
  ((⟨hown, hown, rfl⟩ : SameRow code s.2 s.2).exec hc).2.left

theorem advances_called {m : Mutation} {a : Act Cmd} {k : a.Reply (fun _ ↦ Resp) → KvProg Out}
    {u : (ι → Node) × Redis} (hrel : SameRow code u.2 s.2) (h : m.prog code = .act a k) :
    Advances cfg code i t m a k u s := by
  have hown := hrel.right
  have hexec : (m.prog code).exec (stepAt cfg i t) s =
      (k (stepAt cfg i t a s).1).exec (stepAt cfg i t) (stepAt cfg i t a s).2 := by rw [h]; rfl
  cases m with
  | shorten url ttl clk =>
    obtain ⟨rfl, hk⟩ := Prog.act.inj h
    obtain rfl := eq_of_heq hk
    exact .inr (turn_of_settled hrel (settled_created _) (fields_onRow hown (.set _ _ _)) hexec)
  | update url ttl hasTtl clk =>
    obtain ⟨hk, hs⟩ := act_ret_bind_eq_act (a := .query (.get (lkey code)))
      (g := fun r ↦ if r.null then none else some r.str) (f := stepAt cfg i t)
      ((prog_update url ttl hasTtl clk).symm.trans h) s
    have hget : Prog.exec (stepAt cfg i t) (.act (.query (.get (lkey code)))
      fun r : Resp ↦ .ret (if r.null then none else some r.str)) s = _ := exec_getRow hown
    rw [hget] at hk hs
    rw [Advances, hk, hs]
    cases hrow : (Layout.key.value s.2 t.now code).bind dec with
    | none =>
      refine .inr (turn_of_settled hrel ⟨.result .missing, rfl⟩ hown ?_)
      rw [exec_update hown, rowAt, hrow]
    | some row => exact .inl ⟨hrel, .writing url ttl hasTtl clk row⟩
  | remove =>
    obtain ⟨rfl, hk⟩ := Prog.act.inj h
    obtain rfl := eq_of_heq hk
    exact .inr (turn_of_settled hrel (settled_erasing _) (fields_onRow hown .del) hexec)

/-- `update` writes what it would write for the row that is there, so it might have read that row.
-/
theorem advances_writing {url : Bytes} {ttl : Int64} {hasTtl : Bool} {clk : Clock} {row : Row}
    {a : Act Cmd} {k : a.Reply (fun _ ↦ Resp) → KvProg Out} {u : (ι → Node) × Redis}
    (hrel : SameRow code u.2 s.2)
    (h : writing code url (if hasTtl then expiry (clk 0) ttl else row.e) row.c clk = .act a k)
    (hval : ∀ v ∈ pendingWrite (.act a k),
      (Mutation.update url ttl hasTtl clk).value (rowAt code s.2 t.now) = some v) :
    Advances cfg code i t (.update url ttl hasTtl clk) a k u s := by
  have hown := hrel.right
  -- The row that is there gives the same creation time and the same expiry.
  have hexec : ((Mutation.update url ttl hasTtl clk).prog code).exec (stepAt cfg i t) s =
      (writing code url (if hasTtl then expiry (clk 0) ttl else row.e) row.c clk).exec
        (stepAt cfg i t) s := by
    rw [← h] at hval
    obtain ⟨row', hrow', henc⟩ := Option.map_eq_some_iff.mp (hval _ rfl)
    have hdec := congrArg dec henc
    rw [dec_enc, dec_enc, Option.some.injEq, Row.mk.injEq] at hdec
    rw [exec_update hown, hrow', afterRead, hdec.1, hdec.2.1]
  rw [h] at hexec
  obtain ⟨rfl, hk⟩ := Prog.act.inj h
  obtain rfl := eq_of_heq hk
  exact .inr (turn_of_settled hrel (settled_finish _) (fields_onRow hown (.set _ _ _)) hexec)

theorem Unsettled.advances {m : Mutation} {a : Act Cmd} {k : a.Reply (fun _ ↦ Resp) → KvProg Out}
    {u : (ι → Node) × Redis} (hm : Unsettled code m (.act a k)) (hrel : SameRow code u.2 s.2)
    (hval : ∀ v ∈ pendingWrite (.act a k), m.value (rowAt code s.2 t.now) = some v) :
    Advances cfg code i t m a k u s := by
  generalize hp : Prog.act a k = p at hm
  cases hm with
  | called m => exact advances_called hrel hp.symm
  | writing url ttl hasTtl clk row => exact advances_writing hrel hp.symm hval

/-- **Requests take effect with one action.** -/
def points (cfg : ι → Config) (code : Bytes) :
    LinearizationPoints (fun c : ι × Mutation ↦ c.2.prog code) (fun c ↦ stepAt cfg c.1)
      (fun s s' ↦ SameRow code s.2 s'.2) (Unchanged code) where
  Pre c p := Unsettled code c.2 p
  Post _ b p := Settled code b p
  pre_body c := .called c.2
  not_pre_ret c b := not_unsettled_ret c.2 b
  eq_of_post_ret _ _ _ h := h
  post_act c _ e _ _ _ _ hp hrel := ⟨hrel.offRow cfg c.1 e hp.1, hp.2 _⟩
  pre_act _ _ _ th _ _ _ hj hprog hok hpre hrel :=
    Unsettled.advances hpre hrel fun v hv ↦ hok th hj v (hprog ▸ hv)

/-- **Mutations are linearizable** as long as each writes what it would write for the row that is
there. -/
theorem mutations_linearizable {P₀ P : MutationPool ι} {ls : List (Label (ι × Mutation) Moment)}
    (h₀ : P₀.threads = []) (hown : P₀.shared.2.fields = ∅)
    (hm : Meets (mutationStep cfg code) (Unchanged code) P₀ ls)
    (hr : run (mutationStep cfg code) P₀ ls = some P) :
    Linearizable (fun c : ι × Mutation ↦ c.2.prog code) (fun c ↦ stepAt cfg c.1)
      (fun s s' ↦ SameRow code s.2 s'.2) P₀.shared ls P :=
  (points cfg code).linearizable h₀ ⟨hown, hown, rfl⟩ hm hr

/-! ## A link that comes back -/

/-- A link that was removed is gone. -/
theorem exec_remove_ok (hown : s.2.fields = ∅)
    (hok : (Mutation.remove.prog code).exec (stepAt cfg i t) s = (.result .ok, s')) :
    s'.2.fields = ∅ ∧ s'.2.strings.lookup (lkey code) = none := by
  rw [prog_remove, exec_bind, exec_delRow hown] at hok
  by_cases hsome : (s.2.string t.now (lkey code)).isSome
  · rw [if_pos hsome] at hok
    obtain ⟨b, hb⟩ := @settled_erasing code 1
    have herased : (s.2.erase (lkey code)).fields = ∅ := Redis.fields_erase hown _
    have hrow := (@Settled.exec _ _ cfg code i t (s.1, s.2.erase (lkey code))
      (s.1, s.2.erase (lkey code)) b _ hb ⟨herased, herased, rfl⟩).2
    dsimp only at hok
    rw [hok] at hrow
    exact ⟨hrow.right, hrow.row.symm.trans (AList.lookup_erase _ _)⟩
  · rw [if_neg hsome] at hok
    cases hok

/-- A link that is gone is not updated. -/
theorem exec_update_gone (hown : s.2.fields = ∅) (hgone : s.2.strings.lookup (lkey code) = none)
    (url : Bytes) (ttl : Int64) (hasTtl : Bool) (clk : Clock) :
    ((Mutation.update url ttl hasTtl clk).prog code).exec (stepAt cfg i t) s =
      (.result .missing, s) := by
  rw [exec_update hown, rowAt, Layout.value, Redis.string, hgone]
  rfl

/-- **No order of an `update` and a `remove` that both succeed leaves a link.** -/
theorem not_linearizable {P : MutationPool ι} {ls : List (Label (ι × Mutation) Moment)}
    {th th' : Thread (ι × Mutation) (Act Cmd) (Act.Reply fun _ ↦ Resp) Out} {url : Bytes} {ttl : Int64}
    {hasTtl : Bool} {clk : Clock} (hown : s.2.fields = ∅) (hP : P.threads = [th, th'])
    (hcall : th.call.2 = .update url ttl hasTtl clk) (hres : th.result = some (.result .ok))
    (hcall' : th'.call.2 = .remove) (hres' : th'.result = some (.result .ok))
    (hrow : P.shared.2.strings.lookup (lkey code) ≠ none) :
    ¬ Linearizable (fun c : ι × Mutation ↦ c.2.prog code) (fun c ↦ stepAt cfg c.1)
      (fun s s' ↦ SameRow code s.2 s'.2) s ls P := by
  rintro ⟨h, hlin⟩
  have hperm : (h.map Turn.thread).Perm [0, 1] := by
    refine (List.perm_ext_iff_of_nodup hlin.nodup (by decide)).mpr fun j ↦ ⟨fun hj ↦ ?_, fun hj ↦ ?_⟩
    · obtain ⟨x, hx, rfl⟩ := List.mem_map.mp hj
      obtain ⟨thx, hthx, -⟩ := hlin.calls x hx
      have hlt := (List.getElem?_eq_some_iff.mp hthx).1
      rw [hP] at hlt
      simp only [List.length_cons, List.length_nil] at hlt
      simp only [List.mem_cons, List.not_mem_nil, or_false]
      omega
    · simp only [List.mem_cons, List.not_mem_nil, or_false] at hj
      rcases hj with rfl | rfl
      · exact hlin.complete 0 th (by rw [hP]; rfl) (by rw [hres]; rfl)
      · exact hlin.complete 1 th' (by rw [hP]; rfl) (by rw [hres']; rfl)
  obtain ⟨x, y, rfl⟩ : ∃ x y, h = [x, y] := List.length_eq_two.mp (by simpa using hperm.length_eq)
  -- What is known of the two turns.
  have hupdate : ∀ z ∈ [x, y], z.thread = 0 →
      z.call.2 = .update url ttl hasTtl clk ∧ z.out = .result .ok := by
    intro z hz hz₀
    obtain ⟨thz, hthz, hcallz, houtz⟩ := hlin.calls z hz
    rw [hz₀, hP] at hthz
    obtain rfl := Option.some.inj hthz
    exact ⟨hcallz ▸ hcall, (houtz _ hres).symm⟩
  have hremove : ∀ z ∈ [x, y], z.thread = 1 → z.call.2 = .remove ∧ z.out = .result .ok := by
    intro z hz hz₁
    obtain ⟨thz, hthz, hcallz, houtz⟩ := hlin.calls z hz
    rw [hz₁, hP] at hthz
    obtain rfl := Option.some.inj hthz
    exact ⟨hcallz ▸ hcall', (houtz _ hres').symm⟩
  obtain ⟨_, ⟨u, hu, v, hv, rfl⟩, hrel⟩ := hlin.replays
  have hxy : x.thread ≠ y.thread := fun heq ↦ by simpa [heq] using hlin.nodup
  have hx : x.thread = 0 ∨ x.thread = 1 := by simpa using hperm.subset (List.mem_cons_self ..)
  have hy : y.thread = 0 ∨ y.thread = 1 := by
    simpa using hperm.subset (List.mem_cons_of_mem _ (List.mem_cons_self ..))
  dsimp only at hu hv
  rcases hx with hx | hx
  · -- First the update: the removal leaves nothing.
    have hkept := ((steady_prog x.call.2).exec cfg x.call.1 x.env
      (⟨hown, hown, rfl⟩ : SameRow code s.2 s.2)).2.left
    rw [hu] at hkept
    obtain ⟨hycall, hyout⟩ := hremove y (by simp) (hy.resolve_left fun h₀ ↦ hxy (hx.trans h₀.symm))
    rw [hycall, hyout] at hv
    exact hrow (hrel.row.symm.trans (exec_remove_ok hkept hv).2)
  · -- First the removal: the update finds nothing.
    obtain ⟨hxcall, hxout⟩ := hremove x (by simp) hx
    rw [hxcall, hxout] at hu
    obtain ⟨hgone, hnone⟩ := exec_remove_ok hown hu
    obtain ⟨hycall, hyout⟩ := hupdate y (by simp) (hy.resolve_right fun h₁ ↦ hxy (hx.trans h₁.symm))
    rw [hycall, hyout, exec_update_gone hgone hnone] at hv
    cases hv

/-- A link, and nobody changes it. -/
def oneLink : MutationPool Bool where
  shared := (fun _ ↦ {}, { strings := AList.insert (lkey (lit "a")) (enc 0 1 (lit "x"), none) ∅ })

/-- One node updates the link. -/
def anUpdate : Bool × Mutation := (false, .update (lit "y") 0 false fun _ ↦ 2)

/-- The other node removes the link. -/
def aRemoval : Bool × Mutation := (true, .remove)

/-- A moment of the run. -/
def soon : Moment := { now := 2 }

/-- The removal begins when the update has written. -/
def inOrder : List (Label (Bool × Mutation) Moment) :=
  [.start anUpdate, .start aRemoval, .step 0 soon, .step 0 soon, .step 1 soon, .step 0 soon]

/-- The removal falls between the two commands of the update. -/
def between : List (Label (Bool × Mutation) Moment) :=
  [.start anUpdate, .start aRemoval, .step 0 soon, .step 1 soon, .step 0 soon, .step 0 soon,
    .step 1 soon, .step 1 soon]

theorem mutations_linearizable_inOrder :
    ∃ P, run (mutationStep (fun _ ↦ {}) (lit "a")) oneLink inOrder = some P ∧
      Linearizable (fun c : Bool × Mutation ↦ c.2.prog (lit "a")) (fun c ↦ stepAt (fun _ ↦ {}) c.1)
        (fun s s' ↦ SameRow (lit "a") s.2 s'.2) oneLink.shared inOrder P := by
  have hm : Meets (mutationStep (fun _ ↦ {}) (lit "a")) (Unchanged (lit "a")) oneLink inOrder := by
    decide +kernel
  exact ⟨_, rfl, mutations_linearizable rfl rfl hm rfl⟩

/-- The link comes back. -/
theorem removed_link_returns :
    ∃ P, run (mutationStep (fun _ ↦ {}) (lit "a")) oneLink between = some P ∧
      ¬ Linearizable (fun c : Bool × Mutation ↦ c.2.prog (lit "a")) (fun c ↦ stepAt (fun _ ↦ {}) c.1)
        (fun s s' ↦ SameRow (lit "a") s.2 s'.2) oneLink.shared between P := by
  refine ⟨_, rfl, not_linearizable rfl rfl rfl rfl rfl rfl ?_⟩
  decide +kernel

end Shrt.Kv
