import Shrt.App.Handle

/-!
# Query strings

What a client writes into a query string, `parse_query` reads back. A byte may be written in several
ways, which `Encodes` lists: as itself, as `%` and two hexadecimal digits of either case, and a
space as `+`. None of them holds a separator, so the string is cut where the client joined it, and
decoding gives the bytes back one by one (`parseQuery_encoded`).
-/

namespace Shrt

/-! ## Encoding -/

/-- Letters, digits, `-`, `_`, `.` and `~`. -/
def unreserved (b : UInt8) : Bool :=
  (97 ≤ b && b ≤ 122) || (65 ≤ b && b ≤ 90) || isDigit b || b = 45 || b = 95 || b = 46 || b = 126

/-- The ways to write a byte. -/
inductive Encodes : UInt8 → Bytes → Prop
  | plain {b : UInt8} (h : unreserved b = true) : Encodes b [b]
  | plus : Encodes 32 [43]
  | percent {b hi lo : UInt8} (hhi : hexVal hi = some (b.toNat / 16))
    (hlo : hexVal lo = some (b.toNat % 16)) : Encodes b [37, hi, lo]

/-- The ways to write a text. -/
inductive Encoded : Bytes → Bytes → Prop
  | nil : Encoded [] []
  | cons {b : UInt8} {s p t : Bytes} (h : Encodes b p) (hs : Encoded s t) : Encoded (b :: s) (p ++ t)

/-- The ways to write a key and its value. -/
def EncodedPair (kv : Bytes × Bytes) (t : Bytes) : Prop :=
  ∃ k v, Encoded kv.1 k ∧ Encoded kv.2 v ∧ t = k ++ 61 :: v

/-- A byte that is neither part of a number nor of the plain alphabet does not occur. -/
theorem Encodes.notMem {b x : UInt8} {p : Bytes} (h : Encodes b p) (hx : unreserved x = false)
    (hhex : hexVal x = none) (hplus : x ≠ 43) (hpercent : x ≠ 37) : x ∉ p := by
  have hdigit : ∀ {d : UInt8} {n : ℕ}, hexVal d = some n → x ≠ d := by
    rintro d n hd rfl
    exact Option.some_ne_none n (hd.symm.trans hhex)
  cases h with
  | plain h =>
    rw [List.mem_singleton]
    rintro rfl
    exact Bool.false_ne_true (hx.symm.trans h)
  | plus => rwa [List.mem_singleton]
  | percent hhi hlo => simp [hpercent, hdigit hhi, hdigit hlo]

theorem Encoded.notMem {s t : Bytes} {x : UInt8} (h : Encoded s t) (hx : unreserved x = false)
    (hhex : hexVal x = none) (hplus : x ≠ 43) (hpercent : x ≠ 37) : x ∉ t := by
  induction h with
  | nil => exact List.not_mem_nil
  | cons h _ ih => exact List.not_mem_append (h.notMem hx hhex hplus hpercent) ih

theorem Encoded.amp_notMem {s t : Bytes} (h : Encoded s t) : 38 ∉ t :=
  h.notMem (by decide) (by decide) (by decide) (by decide)

theorem Encoded.eq_notMem {s t : Bytes} (h : Encoded s t) : 61 ∉ t :=
  h.notMem (by decide) (by decide) (by decide) (by decide)

theorem EncodedPair.amp_notMem {kv : Bytes × Bytes} {t : Bytes} (h : EncodedPair kv t) : 38 ∉ t := by
  obtain ⟨k, v, hk, hv, rfl⟩ := h
  have hv' : 38 ∉ 61 :: v := List.not_mem_cons_of_ne_of_not_mem (by decide) hv.amp_notMem
  exact List.not_mem_append hk.amp_notMem hv'

/-! ## Decoding -/

theorem urlDecode_percent {a b : UInt8} {hi lo : ℕ} (ha : hexVal a = some hi) (hb : hexVal b = some lo)
    (r : Bytes) : urlDecode (37 :: a :: b :: r) = UInt8.ofNat (hi * 16 + lo) :: urlDecode r := by
  rw [urlDecode, ha, hb]

theorem urlDecode_cons {b : UInt8} (h : b ≠ 37) (r : Bytes) :
    urlDecode (b :: r) = (if b = 43 then 32 else b) :: urlDecode r := by
  rw [urlDecode]
  rintro a b' r' rfl
  exact absurd rfl h

/-- Every way to write a byte is decoded to it. -/
theorem urlDecode_encodes {b : UInt8} {p : Bytes} (h : Encodes b p) (r : Bytes) :
    urlDecode (p ++ r) = b :: urlDecode r := by
  cases h with
  | plain h =>
    have hpercent : b ≠ 37 := by
      rintro rfl
      exact absurd h (by decide)
    have hplus : b ≠ 43 := by
      rintro rfl
      exact absurd h (by decide)
    rw [List.singleton_append, urlDecode_cons hpercent, if_neg hplus]
  | plus => rfl
  | percent hhi hlo =>
    have hbyte : b.toNat / 16 * 16 + b.toNat % 16 = b.toNat := Nat.div_add_mod' b.toNat 16
    rw [List.cons_append, List.cons_append, List.cons_append, List.nil_append,
      urlDecode_percent hhi hlo, hbyte, UInt8.ofNat_toNat]

/-- **Every way to write a text is decoded to it.** -/
theorem urlDecode_encoded {s t : Bytes} (h : Encoded s t) : urlDecode t = s := by
  induction h with
  | nil => rfl
  | cons h _ ih => rw [urlDecode_encodes h, ih]

/-! ## Cutting -/

/-- The first `=` is the one between the key and the value. -/
theorem addParam_encoded (m : AList fun _ : Bytes ↦ Bytes) {kv : Bytes × Bytes} {t : Bytes}
    (h : EncodedPair kv t) : addParam m t = m.insert kv.1 kv.2 := by
  obtain ⟨k, v, hk, hv, rfl⟩ := h
  have hbefore : ∀ b ∈ k, decide (b ≠ 61) = true := by
    intro b hb
    exact decide_eq_true fun heq ↦ hk.eq_notMem (heq ▸ hb)
  have hdrop : (k ++ 61 :: v).dropWhile (· ≠ 61) = 61 :: v := by
    rw [List.dropWhile_append_of_pos hbefore, List.dropWhile_cons]
    rfl
  have htake : (k ++ 61 :: v).takeWhile (· ≠ 61) = k := by
    rw [List.takeWhile_append_of_pos hbefore, List.takeWhile_cons]
    exact List.append_nil k
  rw [addParam, hdrop, htake]
  simp only [urlDecode_encoded hk, urlDecode_encoded hv]

theorem parseQuery_eq_foldl {pairs : List (Bytes × Bytes)} {ts : List Bytes}
    (h : List.Forall₂ EncodedPair pairs ts) :
    parseQuery ([38].intercalate ts) = pairs.foldl (fun m kv ↦ m.insert kv.1 kv.2) ∅ := by
  have hfold : ∀ m, ts.foldl addParam m = pairs.foldl (fun m kv ↦ m.insert kv.1 kv.2) m := by
    induction h with
    | nil => exact fun m ↦ rfl
    | cons hpair _ ih =>
      intro m
      rw [List.foldl_cons, List.foldl_cons, ih, addParam_encoded m hpair]
  have hamp : ∀ t ∈ ts, 38 ∉ t := by
    clear hfold
    induction h with
    | nil => exact fun _ ht ↦ nomatch ht
    | cons hpair _ ih => exact List.forall_mem_cons.mpr ⟨hpair.amp_notMem, ih⟩
  by_cases hnil : ts = []
  · subst hnil
    rw [← hfold]
    rfl
  · rw [parseQuery, List.splitOn_intercalate 38 hamp hnil, hfold]

theorem lookup_foldl_insert {pairs : List (Bytes × Bytes)} (h : (pairs.map Prod.fst).Nodup)
    (m : AList fun _ : Bytes ↦ Bytes) (k v : Bytes) :
    (pairs.foldl (fun m kv ↦ m.insert kv.1 kv.2) m).lookup k = some v ↔
      (k, v) ∈ pairs ∨ k ∉ pairs.map Prod.fst ∧ m.lookup k = some v := by
  induction pairs generalizing m with
  | nil => simp
  | cons kv pairs ih =>
    obtain ⟨hnew, hnodup⟩ := List.nodup_cons.mp h
    rw [List.foldl_cons, ih hnodup]
    by_cases hk : k = kv.1
    · -- The key is set here and nowhere else.
      subst hk
      have hother : (kv.1, v) ∉ pairs := fun hmem ↦
        hnew (List.mem_map.mpr ⟨_, hmem, rfl⟩)
      rw [AList.lookup_insert]
      simp [hother, hnew, Prod.ext_iff, eq_comm]
    · have hne : (k, v) ≠ kv := fun heq ↦ hk (congrArg Prod.fst heq)
      rw [AList.lookup_insert_ne hk]
      simp only [List.mem_cons, List.map_cons, hne, hk, false_or]

/-- **Query strings are read back.** For pairs with distinct keys, however their bytes are written,
`parse_query` returns the map that the pairs make up. -/
theorem parseQuery_encoded {pairs : List (Bytes × Bytes)} {ts : List Bytes}
    (hkeys : (pairs.map Prod.fst).Nodup) (h : List.Forall₂ EncodedPair pairs ts) (k v : Bytes) :
    (parseQuery ([38].intercalate ts)).lookup k = some v ↔ (k, v) ∈ pairs := by
  rw [parseQuery_eq_foldl h, lookup_foldl_insert hkeys, AList.lookup_empty]
  simp

/-- A space and a slash as a value, and an empty key with an empty value. -/
theorem parseQuery_encoded_slash : (parseQuery (lit "q=+%2f&=")).lookup (lit "q") = some (lit " /") ∧
    (parseQuery (lit "q=+%2f&=")).lookup [] = some [] := by
  have hq : EncodedPair (lit "q", lit " /") (lit "q=+%2f") :=
    ⟨lit "q", lit "+%2f", .cons (.plain (by decide)) .nil,
      .cons .plus (.cons (.percent (by decide) (by decide)) .nil), rfl⟩
  have hnil : EncodedPair ([], []) (lit "=") := ⟨[], [], .nil, .nil, rfl⟩
  have hpairs := List.Forall₂.cons hq (List.Forall₂.cons hnil List.Forall₂.nil)
  have hread := parseQuery_encoded (by decide) hpairs
  exact ⟨(hread _ _).mpr (by decide), (hread _ _).mpr (by decide)⟩

end Shrt
