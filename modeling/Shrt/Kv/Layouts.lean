import Shrt.Kv.Exec
import Shrt.Lib.Lockstep

/-!
# The two layouts

With `KV_LAYOUT=key` a link is a key with a deadline, and the server drops it. With `KV_LAYOUT=hash`
it is a field, which stays until the janitor comes: `resolve` checks the expiry itself, but
`shorten`, `update`, `remove` and `stats` take an expired field for a link.

A node runs the same operations in both layouts. `Mirrors` relates the two servers: they hold the
same rows and counters, up to expired ones that one of them has dropped. The results agree exactly
as long as no operation other than `resolve` meets such a row (`results_eq_iff`).
-/

namespace Shrt.Kv

open Backend (Config Node Out Row enc dec dec_enc expired drainFrom exec_drainFrom)
open Interleave (Prog)
open Interleave.Prog (exec_bind exec_act exec_ret)
open Store (Link MutResult allShards)

/-! ## Operations -/

/-- What is asked of a node. -/
inductive Op where
  | shorten (url code : Bytes) (ttl : Int64)
  | resolve (code : Bytes)
  | update (code url : Bytes) (ttl : Int64) (hasTtl : Bool)
  | remove (code : Bytes)
  | stats (code : Bytes)
  | flush
  /-- The janitor. -/
  | sweep

/-- What a node does at a time. The janitor runs in the hash layout only. -/
def Op.prog (cfg : Config) (lay : Layout) (clk : Clock) : Op → KvProg Out
  | .shorten url code ttl => do return .code (← Kv.shorten lay url code ttl clk)
  | .resolve code => do return .url (← Kv.resolve cfg lay code clk)
  | .update code url ttl hasTtl => do return .result (← Kv.update lay code url ttl hasTtl clk)
  | .remove code => do return .result (← Kv.remove lay code)
  | .stats code => do return .link (← Kv.stats lay code)
  | .flush => do
    flushHits lay
    return .done
  | .sweep => match lay with
    | .hash _ => do
      sweepExpired clk
      return .done
    | .key => return .done

/-- A node and its server, one operation after another, each at one time. -/
def serveOp (cfg : Config) (lay : Layout) (s : Node × Redis) (p : Moment × Op) :
    Out × (Node × Redis) :=
  (p.2.prog cfg lay fun _ ↦ p.1.now).exec (step cfg p.1) s

/-- The code that an operation names. -/
def Op.code : Op → Option Bytes
  | .shorten _ c _ | .resolve c | .update c _ _ _ | .remove c | .stats c => some c
  | .flush | .sweep => none

/-! ## Deadlines -/

/-- The deadline of a row with this expiry. -/
def due (e : Int64) : Option ℤ := if 0 < e then some e.toInt else none

theorem toInt_nonneg {x : Int64} (h : 0 ≤ x) : 0 ≤ x.toInt := Int64.le_iff_toInt_le.mp h

theorem toInt_pos {x : Int64} : 0 < x ↔ 0 < x.toInt := Int64.lt_iff_toInt_lt

theorem toInt_add {x y : Int64} (hx : 0 ≤ x) (hy : 0 < y) :
    (x + y).toInt = if x.toInt + y.toInt < 2 ^ 63 then x.toInt + y.toInt
      else x.toInt + y.toInt - 2 ^ 64 := by
  have hx₀ := toInt_nonneg hx
  have hy₀ := toInt_pos.mp hy
  have hx₁ := x.toInt_lt
  have hy₁ := y.toInt_lt
  rw [Int64.toInt_add]
  split_ifs with h
  · rw [Int.bmod_eq_of_le] <;> omega
  · rw [Int.bmod_def]
    omega

theorem toInt_sub {x y : Int64} (hx : 0 ≤ x) (hxy : x < y) : (y - x).toInt = y.toInt - x.toInt := by
  have hx₀ := toInt_nonneg hx
  have hxy' := Int64.lt_iff_toInt_lt.mp hxy
  have hy₁ := y.toInt_lt
  rw [Int64.toInt_sub, Int.bmod_eq_of_le] <;> omega

/-- A sum that fits is later, and one that does not is negative. -/
theorem lt_add_of_pos {now ttl : Int64} (hnow : 0 ≤ now) (httl : 0 < ttl) (hpos : 0 < now + ttl) :
    now < now + ttl := by
  have h₀ := toInt_pos.mp hpos
  have httl₀ := toInt_pos.mp httl
  have httl₁ := ttl.toInt_lt
  have hnow₁ := now.toInt_lt
  rw [Int64.lt_iff_toInt_lt]
  rw [toInt_add hnow httl] at h₀ ⊢
  split_ifs at h₀ ⊢ <;> omega

theorem deadline_of_pos {now ttl : Int64} (hnow : 0 ≤ now) (httl : 0 < ttl)
    (hfit : now.toInt + ttl.toInt < 2 ^ 63) :
    Redis.deadline now (some ttl) = some (due (now + ttl)) := by
  have hsum : (now + ttl).toInt = now.toInt + ttl.toInt := by rw [toInt_add hnow httl, if_pos hfit]
  have hpos : 0 < now + ttl := by
    rw [toInt_pos, hsum]
    have := toInt_nonneg hnow
    have := toInt_pos.mp httl
    omega
  rw [Redis.deadline, if_pos ⟨httl, hfit⟩, due, if_pos hpos, hsum]

/-- The deadline that `update` asks for is that of the row it writes. -/
theorem deadline_left {now exp : Int64} (hnow : 0 ≤ now) (hexp : 0 < exp → now < exp) :
    Redis.deadline now (if 0 < (if 0 < exp then exp - now else 0) then
      some (if 0 < exp then exp - now else 0) else none) = some (due exp) := by
  by_cases h : 0 < exp
  · have hsub := toInt_sub hnow (hexp h)
    have hlt := Int64.lt_iff_toInt_lt.mp (hexp h)
    have hpos : 0 < exp - now := by
      rw [toInt_pos, hsub]
      omega
    have hfit : now.toInt + (exp - now).toInt < 2 ^ 63 := by
      have := exp.toInt_lt
      omega
    have hback : now + (exp - now) = exp := add_sub_cancel now exp
    rw [if_pos h, if_pos hpos, deadline_of_pos hnow hpos hfit, hback]
  · rw [if_neg h, if_neg (Int64.lt_irrefl (a := 0)), due, if_neg h]
    rfl

/-! ## The relation -/

/-- A row in the two layouts, at some time. -/
inductive RowMirrors (now : Int64) : Option (Bytes × Option ℤ) → Option Bytes → Prop
  | both (e c : Int64) (u : Bytes) : RowMirrors now (some (enc e c u, due e)) (some (enc e c u))
  | neither : RowMirrors now none none
  | leftover (e c : Int64) (u : Bytes) (he : expired e now = true) :
    RowMirrors now (some (enc e c u, due e)) none

/-- A node in the key layout and one in the hash layout that were given the same operations. -/
structure Mirrors (b : UInt32) (now : Int64) (K H : Node × Redis) : Prop where
  nonneg : 0 ≤ now
  node : K.1 = H.1
  fields : K.2.fields = ∅
  strings : H.2.strings = ∅
  rows : ∀ c, ¬ lit "h:" <+: c →
    RowMirrors now (K.2.strings.lookup (lkey c)) (H.2.fields.lookup (bkey b c, c))
  hits : ∀ c, K.2.strings.lookup (hkey c) =
    (H.2.fields.lookup (bkey b c, hkey c)).map fun v ↦ (v, none)

theorem expired_mono {e t t' : Int64} (h : t ≤ t') (he : expired e t = true) :
    expired e t' = true := by
  simp only [expired, Bool.and_eq_true, decide_eq_true_eq] at he ⊢
  exact ⟨he.1, Int64.le_trans he.2 h⟩

theorem RowMirrors.later {t t' : Int64} {k : Option (Bytes × Option ℤ)} {h : Option Bytes}
    (hle : t ≤ t') (hr : RowMirrors t k h) : RowMirrors t' k h := by
  cases hr with
  | both e c u => exact .both e c u
  | neither => exact .neither
  | leftover e c u he => exact .leftover e c u (expired_mono hle he)

/-- A row that only the hash layout drops once it has expired. -/
theorem RowMirrors.drop {t : Int64} {k : Option (Bytes × Option ℤ)} {v : Bytes} {row : Row}
    (hr : RowMirrors t k (some v)) (hrow : dec v = some row) (he : expired row.e t = true) :
    RowMirrors t k none := by
  cases hr with
  | both e c u =>
    rw [dec_enc] at hrow
    rw [← Option.some.inj hrow] at he
    exact .leftover e c u he

/-! ## What the two servers show -/

theorem ahead_due {now e : Int64} : Redis.ahead now (due e) = true ↔ (0 < e → now < e) := by
  rw [due]
  split_ifs with h
  · simp [Redis.ahead, h, Int64.lt_iff_toInt_lt]
  · simp [Redis.ahead, h]

theorem expired_of_not_ahead {now e : Int64} (h : ¬ (0 < e → now < e)) : expired e now = true := by
  obtain ⟨hpos, hle⟩ := Classical.not_imp.mp h
  simp only [expired, Bool.and_eq_true, decide_eq_true_eq]
  exact ⟨fun h₀ ↦ Int64.lt_irrefl (h₀ ▸ hpos), Int64.not_lt.mp hle⟩

variable {b : UInt32} {t₀ now : Int64} {K H : Node × Redis}

/-- A code in the two layouts: there is the same link, there is none, or there is an expired one in
just one of them. -/
theorem Mirrors.compare (m : Mirrors b t₀ K H) (hle : t₀ ≤ now) {c : Bytes}
    (hc : ¬ lit "h:" <+: c) :
    (∃ e a u, Layout.key.value K.2 now c = some (enc e a u) ∧
      (Layout.hash b).value H.2 now c = some (enc e a u) ∧ (0 < e → now < e)) ∨
    (Layout.key.value K.2 now c = none ∧ (Layout.hash b).value H.2 now c = none) ∨
    ∃ e a u, expired e now = true ∧
      (Layout.key.value K.2 now c = some (enc e a u) ∧ (0 < e → now < e) ∧
          (Layout.hash b).value H.2 now c = none ∨
        Layout.key.value K.2 now c = none ∧
          (Layout.hash b).value H.2 now c = some (enc e a u)) := by
  have hrow := m.rows c hc
  rw [Layout.value, Layout.value, Redis.string]
  generalize K.2.strings.lookup (lkey c) = k at hrow
  generalize H.2.fields.lookup (bkey b c, c) = h at hrow
  cases hrow with
  | both e a u =>
    by_cases hahead : 0 < e → now < e
    · exact .inl ⟨e, a, u, by simp [ahead_due.mpr hahead], rfl, hahead⟩
    · refine .inr (.inr ⟨e, a, u, expired_of_not_ahead hahead, .inr ⟨?_, rfl⟩⟩)
      simp [mt ahead_due.mp hahead]
  | neither => exact .inr (.inl ⟨rfl, rfl⟩)
  | leftover e a u he =>
    by_cases hahead : 0 < e → now < e
    · refine .inr (.inr ⟨e, a, u, expired_mono hle he, .inl ⟨?_, hahead, rfl⟩⟩)
      simp [ahead_due.mpr hahead]
    · exact .inr (.inl ⟨by simp [mt ahead_due.mp hahead], rfl⟩)

theorem Mirrors.counter_eq (m : Mirrors b t₀ K H) (c : Bytes) :
    Layout.key.counter K.2 now c = (Layout.hash b).counter H.2 now c := by
  rw [Layout.counter, Layout.counter, Redis.string, m.hits c]
  cases H.2.fields.lookup (bkey b c, hkey c) with
  | none => rfl
  | some v => rfl

/-! ## How the relation is kept -/

theorem Mirrors.later (m : Mirrors b t₀ K H) (hle : t₀ ≤ now) : Mirrors b now K H where
  nonneg := Int64.le_trans m.nonneg hle
  node := m.node
  fields := m.fields
  strings := m.strings
  rows c hc := (m.rows c hc).later hle
  hits := m.hits

/-- The same change of both nodes. -/
theorem Mirrors.mapNode (m : Mirrors b t₀ K H) (f : Node → Node) :
    Mirrors b t₀ (f K.1, K.2) (f H.1, H.2) where
  nonneg := m.nonneg
  node := congrArg f m.node
  fields := m.fields
  strings := m.strings
  rows := m.rows
  hits := m.hits

/-- The same row written in both layouts. -/
theorem Mirrors.setRow (m : Mirrors b t₀ K H) {c : Bytes} (hc : ¬ lit "h:" <+: c) (e a : Int64)
    (u : Bytes) : Mirrors b t₀ (K.1, K.2.setString (lkey c) (enc e a u, due e))
      (H.1, H.2.setField (bkey b c) c (enc e a u)) where
  nonneg := m.nonneg
  node := m.node
  fields := Redis.fields_setString m.fields _ _
  strings := m.strings
  rows c' hc' := by
    rw [Redis.setString, Redis.setField]
    by_cases heq : c' = c
    · rw [heq, AList.lookup_insert, AList.lookup_insert]
      exact .both e a u
    · rw [AList.lookup_insert_ne (fun h ↦ heq (lkey_inj.mp h)),
        AList.lookup_insert_ne (fun h ↦ heq (Prod.mk.inj h).2)]
      exact m.rows c' hc'
  hits c' := by
    rw [Redis.setString, Redis.setField, AList.lookup_insert_ne (lkey_ne_hkey c c').symm,
      AList.lookup_insert_ne (fun h ↦ ne_hkey hc c' (Prod.mk.inj h).2.symm)]
    exact m.hits c'

/-- The same value of a counter written in both layouts. -/
theorem Mirrors.setHits (m : Mirrors b t₀ K H) (c v : Bytes) :
    Mirrors b t₀ (K.1, K.2.setString (hkey c) (v, none))
      (H.1, H.2.setField (bkey b c) (hkey c) v) where
  nonneg := m.nonneg
  node := m.node
  fields := Redis.fields_setString m.fields _ _
  strings := m.strings
  rows c' hc' := by
    rw [Redis.setString, Redis.setField, AList.lookup_insert_ne (lkey_ne_hkey c' c),
      AList.lookup_insert_ne (fun h ↦ ne_hkey hc' c (Prod.mk.inj h).2)]
    exact m.rows c' hc'
  hits c' := by
    rw [Redis.setString, Redis.setField]
    by_cases heq : c' = c
    · rw [heq, AList.lookup_insert, AList.lookup_insert]
      rfl
    · rw [AList.lookup_insert_ne (fun h ↦ heq (hkey_inj.mp h)),
        AList.lookup_insert_ne (fun h ↦ heq (hkey_inj.mp (Prod.mk.inj h).2))]
      exact m.hits c'

/-- The same row deleted in both layouts. -/
theorem Mirrors.eraseRow (m : Mirrors b t₀ K H) {c : Bytes} (hc : ¬ lit "h:" <+: c) :
    Mirrors b t₀ (K.1, K.2.erase (lkey c)) (H.1, H.2.eraseField (bkey b c) c) where
  nonneg := m.nonneg
  node := m.node
  fields := Redis.fields_erase m.fields _
  strings := m.strings
  rows c' hc' := by
    rw [Redis.erase, Redis.eraseField]
    by_cases heq : c' = c
    · rw [heq, AList.lookup_erase, AList.lookup_erase]
      exact .neither
    · rw [AList.lookup_erase_ne (fun h ↦ heq (lkey_inj.mp h)),
        AList.lookup_erase_ne (fun h ↦ heq (Prod.mk.inj h).2)]
      exact m.rows c' hc'
  hits c' := by
    rw [Redis.erase, Redis.eraseField, AList.lookup_erase_ne (lkey_ne_hkey c c').symm,
      AList.lookup_erase_ne (fun h ↦ ne_hkey hc c' (Prod.mk.inj h).2.symm)]
    exact m.hits c'

/-- The same counter deleted in both layouts. -/
theorem Mirrors.eraseHits (m : Mirrors b t₀ K H) (c : Bytes) :
    Mirrors b t₀ (K.1, K.2.erase (hkey c)) (H.1, H.2.eraseField (bkey b c) (hkey c)) where
  nonneg := m.nonneg
  node := m.node
  fields := Redis.fields_erase m.fields _
  strings := m.strings
  rows c' hc' := by
    rw [Redis.erase, Redis.eraseField, AList.lookup_erase_ne (lkey_ne_hkey c' c),
      AList.lookup_erase_ne (fun h ↦ ne_hkey hc' c (Prod.mk.inj h).2)]
    exact m.rows c' hc'
  hits c' := by
    rw [Redis.erase, Redis.eraseField]
    by_cases heq : c' = c
    · rw [heq, AList.lookup_erase, AList.lookup_erase]
      rfl
    · rw [AList.lookup_erase_ne (fun h ↦ heq (hkey_inj.mp h)),
        AList.lookup_erase_ne (fun h ↦ heq (hkey_inj.mp (Prod.mk.inj h).2))]
      exact m.hits c'

/-! ## One operation -/

variable {cfg : Config} {t : Moment} {s : Node × Redis} {lay : Layout} {code url : Bytes}
  {ttl : Int64} {hasTtl : Bool}

/-- Both layouts have a link for the code, or none has. -/
def SameThere (b : UInt32) (now : Int64) (code : Bytes) (K H : Node × Redis) : Prop :=
  (Layout.key.value K.2 now code).isSome = ((Layout.hash b).value H.2 now code).isSome

instance : Decidable (SameThere b now code K H) := inferInstanceAs (Decidable (_ = _))

/-- The deadline that `shorten` asks for does not fit. -/
def Overflows (now ttl : Int64) : Prop := 0 < ttl ∧ 2 ^ 63 ≤ now.toInt + ttl.toInt

instance {now ttl : Int64} : Decidable (Overflows now ttl) := inferInstanceAs (Decidable (_ ∧ _))

theorem deadline_expiry {now ttl : Int64} (hnow : 0 ≤ now) :
    Redis.deadline now (if 0 < ttl then some ttl else none) =
      if Overflows now ttl then none else some (due (expiry now ttl)) := by
  by_cases httl : 0 < ttl
  · by_cases hfit : now.toInt + ttl.toInt < 2 ^ 63
    · have hno : ¬ Overflows now ttl := fun hov ↦ absurd hov.2 (not_le.mpr hfit)
      rw [if_pos httl, if_neg hno, deadline_of_pos hnow httl hfit, expiry, if_pos httl]
    · have hov : Overflows now ttl := ⟨httl, not_lt.mp hfit⟩
      rw [if_pos httl, if_pos hov, Redis.deadline, if_neg (fun h ↦ hfit h.2)]
  · rw [if_neg httl, if_neg (fun hov : Overflows now ttl ↦ httl hov.1), expiry, if_neg httl]
    rfl

theorem exec_setNew_key (h : s.2.fields = ∅) (hnow : 0 ≤ t.now) (code v : Bytes) (ttl : Int64) :
    (setNew .key code v ttl).exec (step cfg t) s =
      if (Layout.key.value s.2 t.now code).isSome ∨ Overflows t.now ttl then (false, s)
      else (true, s.1, s.2.setString (lkey code) (v, due (expiry t.now ttl))) := by
  rw [setNew, exec_set h, deadline_expiry hnow, Layout.value, Option.isSome_map]
  by_cases hov : Overflows t.now ttl
  · rw [if_pos hov, if_pos (.inr hov)]
  · rw [if_neg hov]
    exact if_congr (by simp [hov]) rfl rfl

theorem exec_setNew_hash (h : s.2.strings = ∅) (code v : Bytes) (ttl : Int64) :
    (setNew (.hash b) code v ttl).exec (step cfg t) s =
      if ((Layout.hash b).value s.2 t.now code).isSome then (false, s)
      else (true, s.1, s.2.setField (bkey b code) code v) :=
  exec_hsetnx h _ _ _

theorem serveOp_shorten {r : Bool × (Node × Redis)}
    (hr : (setNew lay code (enc (expiry t.now ttl) t.now url) ttl).exec (step cfg t) s = r) :
    serveOp cfg lay s (t, .shorten url code ttl) =
      (.code (if r.1 then some code else none), r.2) := by
  rw [serveOp, Op.prog, exec_bind, Kv.shorten, exec_bind, hr]
  obtain ⟨ok, s'⟩ := r
  cases ok with
  | false => rfl
  | true => rfl

theorem serveOp_shorten_key (h : s.2.fields = ∅) (hnow : 0 ≤ t.now) :
    serveOp cfg .key s (t, .shorten url code ttl) =
      if (Layout.key.value s.2 t.now code).isSome ∨ Overflows t.now ttl then (.code none, s)
      else (.code (some code), s.1, s.2.setString (lkey code)
        (enc (expiry t.now ttl) t.now url, due (expiry t.now ttl))) := by
  have hset := @exec_setNew_key cfg t s h hnow code (enc (expiry t.now ttl) t.now url) ttl
  split_ifs with hno
  · exact serveOp_shorten (hset.trans (if_pos hno))
  · exact serveOp_shorten (hset.trans (if_neg hno))

theorem serveOp_shorten_hash (h : s.2.strings = ∅) :
    serveOp cfg (.hash b) s (t, .shorten url code ttl) =
      if ((Layout.hash b).value s.2 t.now code).isSome then (.code none, s)
      else (.code (some code), s.1,
        s.2.setField (bkey b code) code (enc (expiry t.now ttl) t.now url)) := by
  have hset := @exec_setNew_hash b cfg t s h code (enc (expiry t.now ttl) t.now url) ttl
  split_ifs with hthere
  · exact serveOp_shorten (hset.trans (if_pos hthere))
  · exact serveOp_shorten (hset.trans (if_neg hthere))

theorem mirrors_shorten (m : Mirrors b t₀ K H) (hle : t₀ ≤ t.now) (hc : ¬ lit "h:" <+: code) :
    ((serveOp cfg .key K (t, .shorten url code ttl)).1 =
        (serveOp cfg (.hash b) H (t, .shorten url code ttl)).1 ↔
      ((Layout.key.value K.2 t.now code).isSome ∨ Overflows t.now ttl ↔
        ((Layout.hash b).value H.2 t.now code).isSome)) ∧
    (((Layout.key.value K.2 t.now code).isSome ∨ Overflows t.now ttl ↔
        ((Layout.hash b).value H.2 t.now code).isSome) →
      Mirrors b t.now (serveOp cfg .key K (t, .shorten url code ttl)).2
        (serveOp cfg (.hash b) H (t, .shorten url code ttl)).2) := by
  have m' := m.later hle
  rw [serveOp_shorten_key m.fields m'.nonneg, serveOp_shorten_hash m.strings]
  split_ifs with hk hh hh
  · exact ⟨by simp [hk, hh], fun _ ↦ m'⟩
  · exact ⟨by simp [hk, hh], fun h ↦ absurd (h.mp hk) hh⟩
  · exact ⟨by simp [hk, hh], fun h ↦ absurd (h.mpr hh) hk⟩
  · exact ⟨by simp [hk, hh], fun _ ↦ m'.setRow hc _ _ _⟩

theorem serveOp_update_of_none (lay : Layout) (h : lay.Own s.2)
    (hv : lay.value s.2 t.now code = none) :
    serveOp cfg lay s (t, .update code url ttl hasTtl) = (.result .missing, s) := by
  rw [serveOp, Op.prog, exec_bind, Kv.update, exec_bind, exec_kvGet h]
  dsimp only
  rw [hv]
  rfl

theorem serveOp_update {row : Row} {n : Node} {db : Redis} (h : lay.Own s.2)
    (hv : (lay.value s.2 t.now code).bind dec = some row)
    (hw : (overwrite lay code (if hasTtl then expiry t.now ttl else row.e)
      (enc (if hasTtl then expiry t.now ttl else row.e) row.c url) t.now).exec (step cfg t) s =
        (true, n, db)) :
    serveOp cfg lay s (t, .update code url ttl hasTtl) =
      (.result .ok, n.cacheDel code, db) := by
  rw [serveOp, Op.prog, exec_bind, Kv.update, exec_bind, exec_kvGet h]
  dsimp only
  rw [hv]
  dsimp only
  rw [exec_bind, hw]
  rfl

theorem exec_overwrite_key (h : s.2.fields = ∅) (hnow : 0 ≤ t.now) {exp : Int64}
    (hexp : 0 < exp → t.now < exp) (v : Bytes) :
    (overwrite .key code exp v t.now).exec (step cfg t) s =
      (true, s.1, s.2.setString (lkey code) (v, due exp)) := by
  rw [overwrite, exec_set h, deadline_left hnow hexp]
  exact if_neg (fun hand ↦ Bool.false_ne_true hand.1)

/-- The expiry that `update` writes lies ahead, or is none. -/
theorem lt_of_updated {now e : Int64} (hnow : 0 ≤ now) (he : 0 < e → now < e) :
    0 < (if hasTtl then expiry now ttl else e) →
      now < (if hasTtl then expiry now ttl else e) := by
  split_ifs with hhas
  · rw [expiry]
    split_ifs with httl
    · exact lt_add_of_pos hnow httl
    · exact fun h ↦ absurd h Int64.lt_irrefl
  · exact he

/-- The expiry that `update` writes to a row with expiry `e`. -/
def newExpiry (now ttl : Int64) (hasTtl : Bool) (e : Int64) : Int64 :=
  if hasTtl then expiry now ttl else e

theorem serveOp_update_key {e a : Int64} {u : Bytes} (h : s.2.fields = ∅) (hnow : 0 ≤ t.now)
    (hv : Layout.key.value s.2 t.now code = some (enc e a u)) (he : 0 < e → t.now < e) :
    serveOp cfg .key s (t, .update code url ttl hasTtl) =
      (.result .ok, s.1.cacheDel code, s.2.setString (lkey code)
        (enc (newExpiry t.now ttl hasTtl e) a url, due (newExpiry t.now ttl hasTtl e))) := by
  have hdec : (Layout.key.value s.2 t.now code).bind dec = some ⟨e, a, u⟩ := by
    rw [hv]
    exact dec_enc e a u
  refine @serveOp_update cfg t s .key _ _ _ _ _ _ _ h hdec ?_
  exact exec_overwrite_key h hnow (lt_of_updated hnow he) _

theorem serveOp_update_hash {e a : Int64} {u : Bytes} (h : s.2.strings = ∅)
    (hv : (Layout.hash b).value s.2 t.now code = some (enc e a u)) :
    serveOp cfg (.hash b) s (t, .update code url ttl hasTtl) =
      (.result .ok, s.1.cacheDel code, s.2.setField (bkey b code) code
        (enc (newExpiry t.now ttl hasTtl e) a url)) := by
  have hdec : ((Layout.hash b).value s.2 t.now code).bind dec = some ⟨e, a, u⟩ := by
    rw [hv]
    exact dec_enc e a u
  refine @serveOp_update cfg t s (.hash b) _ _ _ _ _ _ _ h hdec ?_
  exact exec_hset h _ _ _

theorem mirrors_update (m : Mirrors b t₀ K H) (hle : t₀ ≤ t.now) (hc : ¬ lit "h:" <+: code) :
    ((serveOp cfg .key K (t, .update code url ttl hasTtl)).1 =
        (serveOp cfg (.hash b) H (t, .update code url ttl hasTtl)).1 ↔
      SameThere b t.now code K H) ∧
    (SameThere b t.now code K H →
      Mirrors b t.now (serveOp cfg .key K (t, .update code url ttl hasTtl)).2
        (serveOp cfg (.hash b) H (t, .update code url ttl hasTtl)).2) := by
  have m' := m.later hle
  rw [SameThere]
  rcases m.compare hle hc with ⟨e, a, u, hk, hh, he⟩ | ⟨hk, hh⟩ | ⟨e, a, u, -, ⟨hk, he, hh⟩ | ⟨hk, hh⟩⟩
  · rw [serveOp_update_key m.fields m'.nonneg hk he, serveOp_update_hash m.strings hh, hk, hh]
    exact ⟨by simp, fun _ ↦ (m'.setRow hc _ _ _).mapNode (·.cacheDel code)⟩
  · rw [serveOp_update_of_none .key m.fields hk,
      serveOp_update_of_none (.hash b) m.strings hh, hk, hh]
    exact ⟨by simp, fun _ ↦ m'⟩
  · rw [serveOp_update_key m.fields m'.nonneg hk he,
      serveOp_update_of_none (.hash b) m.strings hh, hk, hh]
    exact ⟨by simp, fun h ↦ absurd h (by simp)⟩
  · rw [serveOp_update_of_none .key m.fields hk,
      serveOp_update_hash m.strings hh, hk, hh]
    exact ⟨by simp, fun h ↦ absurd h (by simp)⟩

theorem serveOp_remove {r : Bool × (Node × Redis)} (hr : (erase lay code).exec (step cfg t) s = r) :
    serveOp cfg lay s (t, .remove code) =
      (.result (if r.1 then .ok else .missing), if r.1 then r.2.1.cacheDel code else r.2.1, r.2.2) := by
  rw [serveOp, Op.prog, exec_bind, Kv.remove, exec_bind, hr]
  obtain ⟨ok, s'⟩ := r
  cases ok with
  | false => rfl
  | true => rfl

theorem exec_erase_key (h : s.2.fields = ∅) : (erase .key code).exec (step cfg t) s =
    if (Layout.key.value s.2 t.now code).isSome then
      (true, ((del (hkey code)).exec (step cfg t) (s.1, s.2.erase (lkey code))).2)
    else (false, s) := by
  rw [erase, exec_bind, exec_del h, Layout.value, Option.isSome_map]
  by_cases hthere : (s.2.string t.now (lkey code)).isSome = true
  · rw [if_pos hthere, if_pos hthere]
    rfl
  · rw [if_neg hthere, if_neg hthere]
    rfl

theorem exec_erase_hash (h : s.2.strings = ∅) : (erase (.hash b) code).exec (step cfg t) s =
    if ((Layout.hash b).value s.2 t.now code).isSome then
      (true, ((hdel (bkey b code) (hkey code)).exec (step cfg t)
        (s.1, s.2.eraseField (bkey b code) code)).2)
    else (false, s) := by
  rw [erase, exec_bind, exec_hdel h, Layout.value]
  by_cases hthere : (s.2.fields.lookup (bkey b code, code)).isSome = true
  · rw [if_pos hthere, if_pos hthere]
    rfl
  · rw [if_neg hthere, if_neg hthere]
    rfl

/-- The counter is deleted from both servers, or from neither. -/
theorem mirrors_delHits (m : Mirrors b t₀ K H) (c : Bytes) :
    Mirrors b t₀ ((del (hkey c)).exec (step cfg t) K).2
      ((hdel (bkey b c) (hkey c)).exec (step cfg t) H).2 := by
  rw [exec_del m.fields, exec_hdel m.strings]
  have hcounter : Layout.key.counter K.2 t.now c = (Layout.hash b).counter H.2 t.now c :=
    m.counter_eq c
  rw [Layout.counter, Layout.counter] at hcounter
  rw [← hcounter, Option.isSome_map]
  split_ifs with hthere
  · exact m.eraseHits c
  · exact m

theorem mirrors_remove (m : Mirrors b t₀ K H) (hle : t₀ ≤ t.now) (hc : ¬ lit "h:" <+: code) :
    ((serveOp cfg .key K (t, .remove code)).1 = (serveOp cfg (.hash b) H (t, .remove code)).1 ↔
      SameThere b t.now code K H) ∧
    (SameThere b t.now code K H → Mirrors b t.now (serveOp cfg .key K (t, .remove code)).2
      (serveOp cfg (.hash b) H (t, .remove code)).2) := by
  have m' := m.later hle
  have hkeys := @exec_erase_key cfg t K code m.fields
  have hhash := @exec_erase_hash b cfg t H code m.strings
  rw [SameThere]
  by_cases hk : (Layout.key.value K.2 t.now code).isSome = true
  · by_cases hh : ((Layout.hash b).value H.2 t.now code).isSome = true
    · have hdel := @mirrors_delHits b t.now _ _ cfg t (m'.eraseRow hc) code
      rw [serveOp_remove (hkeys.trans (if_pos hk)), serveOp_remove (hhash.trans (if_pos hh)), hk, hh]
      exact ⟨by simp, fun _ ↦ hdel.mapNode (·.cacheDel code)⟩
    · rw [serveOp_remove (hkeys.trans (if_pos hk)), serveOp_remove (hhash.trans (if_neg hh)), hk,
        Bool.eq_false_iff.mpr hh]
      exact ⟨by simp, fun h ↦ absurd h (by simp)⟩
  · by_cases hh : ((Layout.hash b).value H.2 t.now code).isSome = true
    · rw [serveOp_remove (hkeys.trans (if_neg hk)), serveOp_remove (hhash.trans (if_pos hh)), hh,
        Bool.eq_false_iff.mpr hk]
      exact ⟨by simp, fun h ↦ absurd h (by simp)⟩
    · rw [serveOp_remove (hkeys.trans (if_neg hk)), serveOp_remove (hhash.trans (if_neg hh)),
        Bool.eq_false_iff.mpr hk, Bool.eq_false_iff.mpr hh]
      exact ⟨by simp, fun _ ↦ m'⟩

theorem serveOp_stats (h : lay.Own s.2) : serveOp cfg lay s (t, .stats code) =
    (.link (((lay.value s.2 t.now code).bind dec).map fun row ↦
      { code
        url := row.u
        hits := ((lay.counter s.2 t.now code).bind stoll).getD 0 + (s.1.pendingAt code).getD 0
        createdAt := row.c
        expiresAt := row.e }), s) := by
  rw [serveOp, Op.prog, exec_bind, Kv.stats, exec_bind, exec_kvGet h]
  dsimp only
  rw [exec_bind, exec_kvHits h]
  dsimp only
  cases (lay.value s.2 t.now code).bind dec with
  | none => rfl
  | some row => rfl

theorem mirrors_stats (m : Mirrors b t₀ K H) (hle : t₀ ≤ t.now) (hc : ¬ lit "h:" <+: code) :
    ((serveOp cfg .key K (t, .stats code)).1 = (serveOp cfg (.hash b) H (t, .stats code)).1 ↔
      SameThere b t.now code K H) ∧
    (SameThere b t.now code K H → Mirrors b t.now (serveOp cfg .key K (t, .stats code)).2
      (serveOp cfg (.hash b) H (t, .stats code)).2) := by
  have m' := m.later hle
  have hcounter : Layout.key.counter K.2 t.now code = (Layout.hash b).counter H.2 t.now code :=
    m.counter_eq code
  have hkey : Layout.key.Own K.2 := m.fields
  have hhash : (Layout.hash b).Own H.2 := m.strings
  rw [serveOp_stats hkey, serveOp_stats hhash, SameThere, hcounter, m.node]
  refine ⟨?_, fun _ ↦ m'⟩
  rcases m.compare hle hc with ⟨e, a, u, hk, hh, -⟩ | ⟨hk, hh⟩ | ⟨e, a, u, -, ⟨hk, -, hh⟩ | ⟨hk, hh⟩⟩
  · rw [hk, hh]
    exact ⟨fun _ ↦ rfl, fun _ ↦ rfl⟩
  · rw [hk, hh]
    exact ⟨fun _ ↦ rfl, fun _ ↦ rfl⟩
  · simp [hk, hh]
  · simp [hk, hh]

theorem serveOp_resolve (h : lay.Own s.2) : serveOp cfg lay s (t, .resolve code) =
    (.url (s.1.resolved cfg code (fun _ ↦ t.now) (lay.value s.2 t.now code)).1,
      (s.1.resolved cfg code (fun _ ↦ t.now) (lay.value s.2 t.now code)).2, s.2) := by
  have hget (n : Node) : (kvGet lay code).exec (step cfg t) (n, s.2) =
      (lay.value s.2 t.now code, n, s.2) := exec_kvGet (s := (n, s.2)) h code
  rw [serveOp, Op.prog, exec_bind, Kv.resolve, Backend.exec_resolve hget]
  rfl

/-- `resolve` checks the expiry in both layouts. -/
theorem mirrors_resolve (m : Mirrors b t₀ K H) (hle : t₀ ≤ t.now) (hc : ¬ lit "h:" <+: code) :
    (serveOp cfg .key K (t, .resolve code)).1 = (serveOp cfg (.hash b) H (t, .resolve code)).1 ∧
    Mirrors b t.now (serveOp cfg .key K (t, .resolve code)).2
      (serveOp cfg (.hash b) H (t, .resolve code)).2 := by
  have m' := m.later hle
  have hkey : Layout.key.Own K.2 := m.fields
  have hhash : (Layout.hash b).Own H.2 := m.strings
  have hdead {e a : Int64} {u : Bytes} (he : expired e t.now = true) :
      H.1.resolved cfg code (fun _ ↦ t.now) (some (enc e a u)) =
        H.1.resolved cfg code (fun _ ↦ t.now) none := by
    refine Node.resolved_of_expired fun row hrow ↦ ?_
    rw [Option.bind_some, dec_enc] at hrow
    rw [← Option.some.inj hrow]
    exact he
  have hsame : H.1.resolved cfg code (fun _ ↦ t.now) (Layout.key.value K.2 t.now code) =
      H.1.resolved cfg code (fun _ ↦ t.now) ((Layout.hash b).value H.2 t.now code) := by
    rcases m.compare hle hc with
      ⟨e, a, u, hk, hh, -⟩ | ⟨hk, hh⟩ | ⟨e, a, u, he, ⟨hk, -, hh⟩ | ⟨hk, hh⟩⟩
    · rw [hk, hh]
    · rw [hk, hh]
    · rw [hk, hh, hdead he]
    · rw [hk, hh, hdead he]
  rw [serveOp_resolve hkey, serveOp_resolve hhash, m.node, hsame]
  have hmap := m'.mapNode fun _ ↦
    (H.1.resolved cfg code (fun _ ↦ t.now) ((Layout.hash b).value H.2 t.now code)).2
  exact ⟨rfl, hmap⟩

/-! ## Flushes -/

/-- Commands one after another. -/
def executed (t : Moment) (db : Redis) (cs : List Cmd) : Redis :=
  cs.foldl (fun db c ↦ (db.exec t c).2) db

theorem exec_pipe (cs : List Cmd) (s : Node × Redis) :
    ((pipe cs).exec (step cfg t) s).2 = (s.1, executed t s.2 cs) := by
  induction cs generalizing s with
  | nil => rfl
  | cons c cs ih =>
    rw [pipe, exec_bind, exec_bind]
    exact ih _

/-- The commands that a flush sends. -/
def hitCmds (lay : Layout) (deltas : List (Bytes × Int64)) : List Cmd := match lay with
  | .key => deltas.map fun p ↦ .incrby (hkey p.1) p.2
  | .hash b => deltas.map fun p ↦ .hincrby (bkey b p.1) (hkey p.1) p.2

theorem serveOp_flush : serveOp cfg lay s (t, .flush) =
    (.done, (s.1.drained t.ord allShards []).2,
      executed t s.2 (hitCmds lay (s.1.drained t.ord allShards []).1)) := by
  rw [serveOp, Op.prog, exec_bind, flushHits, exec_bind, exec_drainFrom]
  generalize s.1.drained t.ord allShards [] = r
  cases lay with
  | key =>
    dsimp only
    rw [incrbyMany, exec_bind, exec_pipe, List.map_map]
    rfl
  | hash b =>
    dsimp only
    rw [hincrbyMany, exec_bind, exec_pipe, List.map_map]
    rfl

/-- One increment in both layouts. -/
theorem mirrors_incr (m : Mirrors b t₀ K H) (c : Bytes) (d : Int64) :
    Mirrors b t₀ (K.1, (K.2.exec t (.incrby (hkey c) d)).2)
      (H.1, (H.2.exec t (.hincrby (bkey b c) (hkey c) d)).2) := by
  have hcounter : (K.2.string t.now (hkey c)).map Prod.fst =
      H.2.fields.lookup (bkey b c, hkey c) := m.counter_eq c
  have hforever : (K.2.string t.now (hkey c)).bind Prod.snd = none := by
    rw [Redis.string, m.hits c]
    cases H.2.fields.lookup (bkey b c, hkey c) with
    | none => rfl
    | some v => rfl
  have hnone : H.2.string t.now (bkey b c) = none := Redis.string_eq_none m.strings _ _
  rw [Redis.exec, Redis.exec, Redis.isHash_eq_false m.fields, hnone, hcounter, hforever]
  cases Redis.plus (H.2.fields.lookup (bkey b c, hkey c)) d with
  | error msg => exact m
  | ok n => exact m.setHits c (itoa n)

theorem mirrors_hitCmds (deltas : List (Bytes × Int64)) (m : Mirrors b t₀ K H) :
    Mirrors b t₀ (K.1, executed t K.2 (hitCmds .key deltas))
      (H.1, executed t H.2 (hitCmds (.hash b) deltas)) := by
  induction deltas generalizing K H with
  | nil => exact m
  | cons p deltas ih => exact ih (mirrors_incr m p.1 p.2)

theorem mirrors_flush (m : Mirrors b t₀ K H) (hle : t₀ ≤ t.now) :
    (serveOp cfg .key K (t, .flush)).1 = (serveOp cfg (.hash b) H (t, .flush)).1 ∧
    Mirrors b t.now (serveOp cfg .key K (t, .flush)).2 (serveOp cfg (.hash b) H (t, .flush)).2 := by
  rw [serveOp_flush, serveOp_flush, m.node]
  generalize H.1.drained t.ord allShards [] = r
  exact ⟨rfl, (mirrors_hitCmds r.1 (m.later hle)).mapNode fun _ ↦ r.2⟩

/-! ## The janitor -/

/-- A field that the janitor deletes. -/
def Dead (now : Int64) (db : Redis) (k f : Bytes) : Prop :=
  ¬ lit "h:" <+: f ∧
    ∃ v row, db.fields.lookup (k, f) = some v ∧ dec v = some row ∧ expired row.e now = true

/-- The fields are as they were, but for some that were deleted. -/
structure Swept (now : Int64) (db₀ db : Redis) : Prop where
  strings : db.strings = ∅
  fields : ∀ k f, db.fields.lookup (k, f) = db₀.fields.lookup (k, f) ∨
    db.fields.lookup (k, f) = none ∧ Dead now db₀ k f

theorem swept_executed {db₀ db : Redis} {cs : List Cmd}
    (hcs : ∀ c ∈ cs, ∃ k f, c = .hdel k f ∧ Dead now db₀ k f) (h : Swept now db₀ db) :
    Swept now db₀ (executed t db cs) := by
  induction cs generalizing db with
  | nil => exact h
  | cons c cs ih =>
    obtain ⟨k, f, rfl, hdead⟩ := hcs c List.mem_cons_self
    refine ih (fun c hc ↦ hcs c (List.mem_cons_of_mem _ hc)) ?_
    change Swept now db₀ (db.exec t (.hdel k f)).2
    rw [Redis.exec, Redis.string_eq_none h.strings]
    simp only [Option.isSome_none, Bool.false_eq_true, if_false]
    split_ifs with hthere
    · refine ⟨h.strings, fun k' f' ↦ ?_⟩
      by_cases heq : (k', f') = (k, f)
      · obtain ⟨rfl, rfl⟩ := Prod.mk.inj heq
        exact .inr ⟨AList.lookup_erase _ _, hdead⟩
      · rw [Redis.eraseField, AList.lookup_erase_ne heq]
        exact h.fields k' f'
    · exact h

theorem exec_hscanEach (k : Bytes) : ∃ l, (hscanEach k).exec (step cfg t) s = (l, s) ∧
    ∀ p ∈ l, s.2.fields.lookup (k, p.1) = some p.2 := by
  refine ⟨pairs (s.2.exec t (.hscan k)).1.seen.scanned, ?_, fun p ↦ lookup_of_mem_hscan⟩
  change (_, s.1, (s.2.exec t (.hscan k)).2) = _
  rw [exec_hscan_snd]
  rfl

theorem exec_sweepBuckets (bs : List Bytes) (dels : List Cmd)
    (hdels : ∀ c ∈ dels, ∃ k f, c = .hdel k f ∧ Dead now s.2 k f) :
    ∃ dels', (sweepBuckets now bs dels).exec (step cfg t) s = (dels', s) ∧
      ∀ c ∈ dels', ∃ k f, c = .hdel k f ∧ Dead now s.2 k f := by
  induction bs generalizing dels with
  | nil => exact ⟨dels, rfl, hdels⟩
  | cons b bs ih =>
    obtain ⟨l, hl, hfound⟩ := @exec_hscanEach cfg t s b
    rw [sweepBuckets, exec_bind, hl]
    refine ih _ fun c hc ↦ ?_
    rcases List.mem_append.mp hc with hc | hc
    · exact hdels c hc
    · obtain ⟨p, hp, rfl⟩ := List.mem_map.mp hc
      obtain ⟨hmem, hcond⟩ := List.mem_filter.mp hp
      simp only [Bool.and_eq_true, Bool.not_eq_true', decide_eq_false_iff_not,
        Option.any_eq_true] at hcond
      obtain ⟨hno, row, hrow, he⟩ := hcond
      exact ⟨b, p.1, rfl, hno, p.2, row, hfound p hmem, hrow, he⟩

theorem mirrors_sweep (m : Mirrors b t₀ K H) (hle : t₀ ≤ t.now) :
    (serveOp cfg .key K (t, .sweep)).1 = (serveOp cfg (.hash b) H (t, .sweep)).1 ∧
    Mirrors b t.now (serveOp cfg .key K (t, .sweep)).2 (serveOp cfg (.hash b) H (t, .sweep)).2 := by
  have m' := m.later hle
  have hscan : ((scanEach (lit "l:")).exec (step cfg t) H).2 = H := rfl
  obtain ⟨dels, hdels, hdead⟩ := @exec_sweepBuckets t.now cfg t H
    ((scanEach (lit "l:")).exec (step cfg t) H).1 [] (fun _ hc ↦ absurd hc List.not_mem_nil)
  have hserve : serveOp cfg (.hash b) H (t, .sweep) = (.done, H.1, executed t H.2 dels) := by
    rw [serveOp, Op.prog, exec_bind, sweepExpired, exec_bind, hscan, exec_bind, hdels, exec_bind]
    change (Out.done, ((pipe dels).exec (step cfg t) H).2) = _
    rw [exec_pipe]
  have hswept := swept_executed (t := t) hdead ⟨m.strings, fun _ _ ↦ .inl rfl⟩
  rw [hserve]
  refine ⟨rfl, m'.nonneg, m.node, m.fields, hswept.strings, fun c hc ↦ ?_, fun c ↦ ?_⟩
  · rcases hswept.fields (bkey b c) c with hsame | ⟨hgone, -, v, row, hv, hrow, he⟩
    · change RowMirrors t.now _ ((executed t H.2 dels).fields.lookup (bkey b c, c))
      rw [hsame]
      exact m'.rows c hc
    · -- The row has expired, so that the key layout is left with it.
      have hboth := m'.rows c hc
      rw [hv] at hboth
      change RowMirrors t.now _ ((executed t H.2 dels).fields.lookup (bkey b c, c))
      rw [hgone]
      exact hboth.drop hrow he
  · rcases hswept.fields (bkey b c) (hkey c) with hsame | ⟨-, hno, -⟩
    · change _ = ((executed t H.2 dels).fields.lookup (bkey b c, hkey c)).map _
      rw [hsame]
      exact m.hits c
    · exact absurd (List.prefix_append _ _) hno

/-! ## Runs -/

/-- The condition on an operation: `update`, `remove` and `stats` find a link in both layouts or in
none, and `shorten` is refused in both or in none. The key layout also refuses a deadline that does
not fit. -/
def Agree (b : UInt32) (s : (Node × Redis) × (Node × Redis)) (p : Moment × Op) : Prop := match p.2 with
  | .shorten _ code ttl => (Layout.key.value s.1.2 p.1.now code).isSome ∨ Overflows p.1.now ttl ↔
      ((Layout.hash b).value s.2.2 p.1.now code).isSome
  | .update code _ _ _ | .remove code | .stats code => SameThere b p.1.now code s.1 s.2
  | .resolve _ | .flush | .sweep => True

instance (s : (Node × Redis) × (Node × Redis)) : (p : Moment × Op) → Decidable (Agree b s p)
  | (_, .shorten _ _ _) => inferInstanceAs (Decidable (_ ↔ _))
  | (_, .update _ _ _ _) | (_, .remove _) | (_, .stats _) =>
    inferInstanceAs (Decidable (SameThere _ _ _ _ _))
  | (_, .resolve _) | (_, .flush) | (_, .sweep) => inferInstanceAs (Decidable True)

theorem mirrors_serveOp {p : Moment × Op} (m : Mirrors b t₀ K H) (hle : t₀ ≤ p.1.now)
    (hcode : ∀ c ∈ p.2.code, ¬ lit "h:" <+: c) :
    ((serveOp cfg .key K p).1 = (serveOp cfg (.hash b) H p).1 ↔ Agree b (K, H) p) ∧
    (Agree b (K, H) p → Mirrors b p.1.now (serveOp cfg .key K p).2 (serveOp cfg (.hash b) H p).2) := by
  have hfree (h : (serveOp cfg .key K p).1 = (serveOp cfg (.hash b) H p).1 ∧
      Mirrors b p.1.now (serveOp cfg .key K p).2 (serveOp cfg (.hash b) H p).2) :
      ((serveOp cfg .key K p).1 = (serveOp cfg (.hash b) H p).1 ↔ True) ∧ (True →
        Mirrors b p.1.now (serveOp cfg .key K p).2 (serveOp cfg (.hash b) H p).2) :=
    ⟨iff_true_intro h.1, fun _ ↦ h.2⟩
  obtain ⟨t, op⟩ := p
  cases op with
  | shorten url code ttl => exact mirrors_shorten m hle (hcode code rfl)
  | resolve code => exact hfree (mirrors_resolve m hle (hcode code rfl))
  | update code url ttl hasTtl => exact mirrors_update m hle (hcode code rfl)
  | remove code => exact mirrors_remove m hle (hcode code rfl)
  | stats code => exact mirrors_stats m hle (hcode code rfl)
  | flush => exact hfree (mirrors_flush m hle)
  | sweep => exact hfree (mirrors_sweep m hle)

theorem mirrors_empty (b : UInt32) : Mirrors b 0 ({}, {}) ({}, {}) where
  nonneg := Int64.le_refl 0
  node := rfl
  fields := rfl
  strings := rfl
  rows _ _ := .neither
  hits _ := rfl

/-- **The two layouts.** One node is run in both layouts, from an empty server, on the same
operations at non-decreasing times, with the same settings and the janitor anywhere. No code begins
like a hit field. The results are the same exactly when no operation but `resolve` meets a link that
only one of the layouts still has, and no deadline of a new link overflows. -/
theorem results_eq_iff (cfg : Config) (b : UInt32) {ops : List (Moment × Op)}
    (htimes : (0 :: ops.map (·.1.now)).IsChain (· ≤ ·))
    (hcodes : ∀ p ∈ ops, ∀ c ∈ p.2.code, ¬ lit "h:" <+: c) :
    Lockstep.outputs (serveOp cfg .key) ({}, {}) ops =
        Lockstep.outputs (serveOp cfg (.hash b)) ({}, {}) ops ↔
      Transition.Meets (Lockstep.both (serveOp cfg .key) (serveOp cfg (.hash b))) (Agree b)
        (({}, {}), ({}, {})) ops := by
  refine Lockstep.outputs_eq_iff_meets (· ≤ ·) (fun p ↦ p.1.now)
    (q := fun _ p ↦ ∀ c ∈ p.2.code, ¬ lit "h:" <+: c) (fun t₀ K H p hrel hle hcode ↦ ?_)
    (mirrors_empty b) htimes (Transition.meets_of_forall hcodes _)
  exact mirrors_serveOp hrel hle hcode

/-- A link that expires, is resolved, swept and created again. -/
def expiringLink : List (Moment × Op) :=
  [(⟨0, fun _ ↦ 0, default⟩, .shorten (lit "http://x") (lit "abc") 10),
    (⟨5, fun _ ↦ 0, default⟩, .resolve (lit "abc")), (⟨5, fun _ ↦ 0, default⟩, .flush),
    (⟨6, fun _ ↦ 0, default⟩, .stats (lit "abc")), (⟨20, fun _ ↦ 0, default⟩, .resolve (lit "abc")),
    (⟨20, fun _ ↦ 0, default⟩, .sweep),
    (⟨21, fun _ ↦ 0, default⟩, .shorten (lit "http://y") (lit "abc") 0)]

theorem results_eq_iff_expiringLink :
    Lockstep.outputs (serveOp {} .key) ({}, {}) expiringLink =
      Lockstep.outputs (serveOp {} (.hash 1000000)) ({}, {}) expiringLink :=
  (results_eq_iff {} 1000000 (by decide) (by decide +kernel)).mpr (by decide +kernel)

/-- The same link, created again before the janitor comes. -/
def expiredAlias : List (Moment × Op) :=
  [(⟨0, fun _ ↦ 0, default⟩, .shorten (lit "http://x") (lit "abc") 10),
    (⟨20, fun _ ↦ 0, default⟩, .shorten (lit "http://y") (lit "abc") 0)]

theorem layouts_differ :
    Lockstep.outputs (serveOp {} .key) ({}, {}) expiredAlias =
        [.code (some (lit "abc")), .code (some (lit "abc"))] ∧
      Lockstep.outputs (serveOp {} (.hash 1000000)) ({}, {}) expiredAlias =
        [.code (some (lit "abc")), .code none] := by
  decide +kernel

end Shrt.Kv
