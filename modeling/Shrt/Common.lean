import Mathlib

/-!
# Bytes, decimal text and machine integers

Strings of the program are byte strings, `int64_t` is `Int64` with its wrapping arithmetic, and the
two C library readers it relies on (`strtoll` in base ten, `strtoul` in base sixteen) are written
out with the behaviour the C standard gives them: leading white space, an optional sign, the longest
run of digits, and saturation.

The one theorem that matters is `strtoll_itoa`: printing and reading back is the identity on every
`Int64`, the most negative value included, where the source negates `n + 1` instead of `n`.
-/

namespace Shrt

/-- A `std::string` or `std::string_view`. -/
abbrev Bytes := List UInt8

/-- The bytes of an ASCII literal. -/
def lit (s : String) : Bytes := s.toList.map Char.toUInt8

/-! ## Int64 as an additive group -/

instance instAddCommGroupInt64 : AddCommGroup Int64 where
  add_assoc := Int64.add_assoc
  zero_add := Int64.zero_add
  add_zero := Int64.add_zero
  add_comm := Int64.add_comm
  neg_add_cancel := Int64.add_left_neg
  sub_eq_add_neg := Int64.sub_eq_add_neg
  nsmul := nsmulRec
  zsmul := zsmulRec

/-! ## Printing -/

/-- The digit loop of `itoa`: fills `tmp` from the back. `fuel` is the size of the C buffer. -/
def itoaLoop : ℕ → UInt64 → Bytes → Bytes
  | 0, _, tmp => tmp
  | fuel + 1, v, tmp =>
    let tmp := (48 + (v % 10).toUInt8) :: tmp
    if v / 10 = 0 then tmp else itoaLoop fuel (v / 10) tmp

/-- The magnitude `itoa` prints. -/
def itoaAbs (n : Int64) : UInt64 := if n < 0 then (-(n + 1)).toUInt64 + 1 else n.toUInt64

/-- Decimal digits of `n`. -/
def itoa (n : Int64) : Bytes :=
  (if n < 0 then [45] else []) ++ itoaLoop 24 (itoaAbs n) []

/-! ## Reading -/

/-- `isspace` in the C locale. -/
def isSpace (b : UInt8) : Bool := b = 32 || (9 ≤ b && b ≤ 13)

/-- `isdigit`. -/
def isDigit (b : UInt8) : Bool := 48 ≤ b && b ≤ 57

/-- An optional sign and what follows it. -/
def sign : Bytes → Bool × Bytes
  | 45 :: r => (true, r)
  | 43 :: r => (false, r)
  | r => (false, r)

/-- The value of a run of decimal digits read after `v`. -/
def decVal (v : ℕ) (ds : Bytes) : ℕ := ds.foldl (fun v d ↦ 10 * v + (d.toNat - 48)) v

/-- `strtoll(s, nullptr, 10)`, saturating at the ends of the `int64_t` range. -/
def strtoll (s : Bytes) : Int64 :=
  let (neg, r) := sign (s.dropWhile isSpace)
  let v : ℤ := decVal 0 (r.takeWhile isDigit)
  Int64.ofInt (max (-2 ^ 63) (min (2 ^ 63 - 1) (if neg then -v else v)))

/-- `std::stoll`, which throws when there are no digits or the value does not fit. -/
def stoll (s : Bytes) : Option Int64 :=
  let (neg, r) := sign (s.dropWhile isSpace)
  let ds := r.takeWhile isDigit
  let v : ℤ := if neg then -decVal 0 ds else decVal 0 ds
  if ds ≠ [] ∧ -2 ^ 63 ≤ v ∧ v < 2 ^ 63 then some (Int64.ofInt v) else none

/-- The value of a hexadecimal digit. -/
def hexVal (b : UInt8) : Option ℕ :=
  if 48 ≤ b ∧ b ≤ 57 then some (b.toNat - 48)
  else if 97 ≤ b ∧ b ≤ 102 then some (b.toNat - 87)
  else if 65 ≤ b ∧ b ≤ 70 then some (b.toNat - 55)
  else none

/-- The value of the longest run of hexadecimal digits read after `v`. -/
def hexRun (v : ℕ) : Bytes → ℕ
  | [] => v
  | b :: r => match hexVal b with
    | some d => hexRun (16 * v + d) r
    | none => v

/-- `strtoul(s, nullptr, 16)`: an optional `0x` counts only when a digit follows it, and a minus
sign negates in the unsigned type. -/
def strtoul16 (s : Bytes) : UInt64 :=
  let (neg, r) := sign (s.dropWhile isSpace)
  let r := match r with
    | 48 :: x :: d :: r' => if (x = 120 ∨ x = 88) ∧ (hexVal d).isSome then d :: r' else r
    | _ => r
  let v := min (hexRun 0 r) (2 ^ 64 - 1)
  if neg then -UInt64.ofNat v else UInt64.ofNat v

/-! ## Printing and reading back -/

theorem toNat_itoaAbs (n : Int64) : ((itoaAbs n).toNat : ℤ) = |n.toInt| := by
  have hlo := n.le_toInt
  have hhi := n.toInt_lt
  rw [itoaAbs]
  split_ifs with h
  · rw [Int64.lt_iff_toInt_lt] at h
    have h0 : (0 : Int64).toInt = 0 := rfl
    have hn1 : (n + 1).toInt = n.toInt + 1 := by
      rw [Int64.toInt_add, show (1 : Int64).toInt = 1 from rfl, Int.bmod_eq_of_le] <;> omega
    have hneg : (-(n + 1)).toInt = -(n.toInt + 1) := by
      rw [Int64.toInt_neg, hn1, Int.bmod_eq_of_le] <;> omega
    have hle : (0 : Int64) ≤ -(n + 1) := by
      rw [Int64.le_iff_toInt_le, hneg]; omega
    have hnat : ((-(n + 1)).toUInt64.toNat : ℤ) = -(n.toInt + 1) := by
      rw [Int64.toNat_toUInt64_of_le hle, Int64.toNatClampNeg, hneg]; omega
    rw [UInt64.toNat_add, show (1 : UInt64).toNat = 1 from rfl, abs_of_neg (by omega)]
    omega
  · rw [Int64.lt_iff_toInt_lt, show (0 : Int64).toInt = 0 from rfl] at h
    have hle : (0 : Int64) ≤ n := by
      rw [Int64.le_iff_toInt_le, show (0 : Int64).toInt = 0 from rfl]; omega
    rw [Int64.toNat_toUInt64_of_le hle, Int64.toNatClampNeg, abs_of_nonneg (by omega)]
    omega

private theorem toNat_digit (v : UInt64) : (48 + (v % 10).toUInt8).toNat = 48 + v.toNat % 10 := by
  have hlt : v.toNat % 10 < 10 := Nat.mod_lt _ (by omega)
  rw [UInt8.toNat_add, UInt64.toNat_toUInt8, UInt64.toNat_mod,
    show (10 : UInt64).toNat = 10 from rfl, show (48 : UInt8).toNat = 48 from rfl]
  omega

private theorem isDigit_digit (v : UInt64) : isDigit (48 + (v % 10).toUInt8) = true := by
  have h := toNat_digit v
  have hlt : v.toNat % 10 < 10 := Nat.mod_lt _ (by omega)
  rw [isDigit, Bool.and_eq_true, decide_eq_true_iff, decide_eq_true_iff, UInt8.le_iff_toNat_le,
    UInt8.le_iff_toNat_le, h, show (48 : UInt8).toNat = 48 from rfl,
    show (57 : UInt8).toNat = 57 from rfl]
  omega

theorem decVal_append (v : ℕ) (ds es : Bytes) : decVal v (ds ++ es) = decVal (decVal v ds) es := by
  rw [decVal, decVal, decVal, List.foldl_append]

/-- The digit loop, whatever was already in the buffer: it puts a nonempty run of digits in front,
and reading the run gives the value back. -/
theorem itoaLoop_spec : ∀ (fuel : ℕ) (v : UInt64) (tmp : Bytes), v.toNat < 10 ^ fuel → 0 < fuel →
    ∃ ds, itoaLoop fuel v tmp = ds ++ tmp ∧ ds ≠ [] ∧ (∀ d ∈ ds, isDigit d = true) ∧
      decVal 0 ds = v.toNat := by
  intro fuel
  induction fuel with
  | zero => intro v tmp _ h; omega
  | succ fuel ih =>
    intro v tmp hv _
    have hdiv : (v / 10).toNat = v.toNat / 10 := UInt64.toNat_div v 10
    have hdig := toNat_digit v
    rw [itoaLoop]
    by_cases h0 : v / 10 = 0
    · have hsmall : v.toNat / 10 = 0 := by rw [← hdiv, h0]; rfl
      refine ⟨[48 + (v % 10).toUInt8], by simp [h0], by simp, ?_, ?_⟩
      · intro d hd
        rw [List.mem_singleton.mp hd]
        exact isDigit_digit v
      · rw [decVal, List.foldl_cons, List.foldl_nil, hdig]
        omega
    · have hpos : 0 < v.toNat / 10 := by
        rcases Nat.eq_zero_or_pos (v.toNat / 10) with hz | hp
        · exact absurd (UInt64.toNat_inj.mp (by rw [hdiv, hz]; rfl)) h0
        · exact hp
      have hlt : (v / 10).toNat < 10 ^ fuel := by
        rw [hdiv, Nat.div_lt_iff_lt_mul (by omega), ← pow_succ]; exact hv
      have hfuel : 0 < fuel := by
        rcases Nat.eq_zero_or_pos fuel with rfl | hp
        · rw [pow_zero, hdiv] at hlt; omega
        · exact hp
      obtain ⟨ds, hds, hne, hdigits, hval⟩ := ih (v / 10) ((48 + (v % 10).toUInt8) :: tmp) hlt hfuel
      refine ⟨ds ++ [48 + (v % 10).toUInt8], ?_, by simp, ?_, ?_⟩
      · simp only [h0, if_false, hds]
        simp
      · intro d hd
        rcases List.mem_append.mp hd with hd | hd
        · exact hdigits d hd
        · rw [List.mem_singleton.mp hd]
          exact isDigit_digit v
      · rw [decVal_append, hval, decVal, List.foldl_cons, List.foldl_nil, hdig, hdiv]
        omega

/-- The shape of printed numbers: an optional minus sign and a nonempty run of digits. -/
theorem itoa_eq (n : Int64) : ∃ ds, itoa n = (if n < 0 then [45] else []) ++ ds ∧ ds ≠ [] ∧
    (∀ d ∈ ds, isDigit d = true) ∧ (decVal 0 ds : ℤ) = |n.toInt| := by
  have hbound : (itoaAbs n).toNat < 10 ^ 24 :=
    lt_trans (itoaAbs n).toNat_lt (by norm_num)
  obtain ⟨ds, hds, hne, hdig, hval⟩ := itoaLoop_spec 24 (itoaAbs n) [] hbound (by omega)
  refine ⟨ds, by rw [itoa, hds, List.append_nil], hne, hdig, ?_⟩
  rw [hval, toNat_itoaAbs]

theorem isSpace_of_isDigit {d : UInt8} (h : isDigit d = true) : isSpace d = false := by
  simp only [isDigit, Bool.and_eq_true, decide_eq_true_eq, UInt8.le_iff_toNat_le,
    UInt8.reduceToNat] at h
  simp only [isSpace, Bool.or_eq_false_iff, Bool.and_eq_false_iff, decide_eq_false_iff_not,
    UInt8.le_iff_toNat_le, UInt8.reduceToNat, ← UInt8.toNat_inj]
  omega

theorem sign_of_isDigit {d : UInt8} (h : isDigit d = true) (r : Bytes) :
    sign (d :: r) = (false, d :: r) := by
  rw [sign]
  · intro _ heq
    obtain ⟨rfl, -⟩ := List.cons.inj heq
    exact absurd h (by decide)
  · intro _ heq
    obtain ⟨rfl, -⟩ := List.cons.inj heq
    exact absurd h (by decide)

private theorem ofInt_clamp_toInt (n : Int64) :
    Int64.ofInt (max (-2 ^ 63) (min (2 ^ 63 - 1) n.toInt)) = n := by
  have hlo := n.le_toInt
  have hhi := n.toInt_lt
  rw [min_eq_right (by omega), max_eq_right (by omega), Int64.ofInt_toInt]

theorem takeWhile_digits {ds t : Bytes} (hd : ∀ d ∈ ds, isDigit d = true)
    (ht : ∀ b ∈ t.head?, isDigit b = false) : (ds ++ t).takeWhile isDigit = ds := by
  rw [List.takeWhile_append_of_pos hd]
  cases t with
  | nil => simp
  | cons b t => simp [ht b rfl]

/-- What a reader makes of a printed number with anything that is not a digit after it. -/
private theorem digits_itoa_append (n : Int64) {t : Bytes}
    (ht : ∀ b ∈ t.head?, isDigit b = false) :
    ∃ neg r, sign ((itoa n ++ t).dropWhile isSpace) = (neg, r) ∧ r.takeWhile isDigit ≠ [] ∧
      (if neg then -(decVal 0 (r.takeWhile isDigit) : ℤ) else decVal 0 (r.takeWhile isDigit))
        = n.toInt := by
  obtain ⟨ds, hds, hne, hdig, hval⟩ := itoa_eq n
  obtain ⟨d, es, rfl⟩ := List.exists_cons_of_ne_nil hne
  have hd : isDigit d = true := hdig d List.mem_cons_self
  have htake := takeWhile_digits hdig ht
  rw [hds]
  split_ifs with hneg
  · have hsp : ([45] ++ d :: es ++ t).dropWhile isSpace = 45 :: (d :: es ++ t) := rfl
    rw [hsp]
    refine ⟨true, d :: es ++ t, rfl, by rwa [htake], ?_⟩
    rw [Int64.lt_iff_toInt_lt, show (0 : Int64).toInt = 0 from rfl] at hneg
    rw [htake, hval, if_pos rfl, abs_of_neg hneg, neg_neg]
  · have hsp : ([] ++ d :: es ++ t).dropWhile isSpace = d :: es ++ t := by
      rw [List.nil_append, List.cons_append, List.dropWhile_cons, isSpace_of_isDigit hd]
      simp
    rw [hsp]
    refine ⟨false, d :: es ++ t, sign_of_isDigit hd _, by rwa [htake], ?_⟩
    rw [Int64.lt_iff_toInt_lt, show (0 : Int64).toInt = 0 from rfl] at hneg
    rw [htake, hval, if_neg Bool.false_ne_true, abs_of_nonneg (not_lt.mp hneg)]

/-- **Printing and reading back**, with anything that is not a digit after the number. -/
theorem strtoll_itoa_append (n : Int64) {t : Bytes} (ht : ∀ b ∈ t.head?, isDigit b = false) :
    strtoll (itoa n ++ t) = n := by
  obtain ⟨neg, r, hsign, -, hval⟩ := digits_itoa_append n ht
  rw [strtoll, hsign]
  simp only [hval]
  exact ofInt_clamp_toInt n

theorem strtoll_itoa (n : Int64) : strtoll (itoa n) = n := by
  simpa using strtoll_itoa_append n (t := []) (by simp)

theorem stoll_itoa (n : Int64) : stoll (itoa n) = some n := by
  obtain ⟨neg, r, hsign, hne, hval⟩ := digits_itoa_append n (t := []) (by simp)
  rw [List.append_nil] at hsign
  rw [stoll, hsign]
  simp only [hval]
  rw [if_pos ⟨hne, n.le_toInt, n.toInt_lt⟩, Int64.ofInt_toInt]

/-! ## Searching -/

/-- The end of a line. -/
def CRLF : Bytes := [13, 10]

/-- `find`: what stands before the first occurrence of a text, and what stands behind it. -/
def cutAt (pat : Bytes) : Bytes → Option (Bytes × Bytes)
  | [] => if pat = [] then some ([], []) else none
  | b :: s =>
    if pat <+: b :: s then some ([], (b :: s).drop pat.length)
    else (cutAt pat s).map fun p ↦ (b :: p.1, p.2)

theorem cutAt_eq_some {pat s a b : Bytes} (h : cutAt pat s = some (a, b)) : s = a ++ pat ++ b := by
  induction s generalizing a b with
  | nil =>
    rw [cutAt] at h
    split_ifs at h with hpat
    obtain ⟨rfl, rfl⟩ := Prod.mk.inj (Option.some.inj h)
    rw [hpat]
    rfl
  | cons c s ih =>
    rw [cutAt] at h
    split_ifs at h with hpat
    · obtain ⟨rfl, rfl⟩ := Prod.mk.inj (Option.some.inj h)
      exact (List.prefix_iff_eq_append.mp hpat).symm
    · obtain ⟨⟨a', b'⟩, hcut, heq⟩ := Option.map_eq_some_iff.mp h
      obtain ⟨rfl, rfl⟩ := Prod.mk.inj heq
      rw [ih hcut]
      rfl

/-- The first occurrence of a text stays the first one. -/
theorem cutAt_append {pat s a b : Bytes} (t : Bytes) (h : cutAt pat s = some (a, b)) :
    cutAt pat (s ++ t) = some (a, b ++ t) := by
  induction s generalizing a b with
  | nil =>
    rw [cutAt] at h
    split_ifs at h with hpat
    obtain ⟨rfl, rfl⟩ := Prod.mk.inj (Option.some.inj h)
    subst hpat
    cases t with
    | nil => rfl
    | cons c t => simp [cutAt]
  | cons c s ih =>
    have hlen : pat.length ≤ (c :: s).length := by
      rw [cutAt_eq_some h, List.length_append, List.length_append]
      omega
    rw [List.cons_append, cutAt]
    rw [cutAt] at h
    split_ifs at h with hpat
    · obtain ⟨rfl, rfl⟩ := Prod.mk.inj (Option.some.inj h)
      have hlonger : pat <+: c :: (s ++ t) := hpat.trans ⟨t, rfl⟩
      rw [if_pos hlonger, ← List.cons_append, List.drop_append_of_le_length hlen]
    · -- The text does not begin here in the longer list either, since it fits the shorter one.
      have hno : ¬ pat <+: c :: (s ++ t) := by
        intro hlonger
        exact hpat (List.prefix_of_prefix_length_le hlonger ⟨t, rfl⟩ hlen)
      obtain ⟨⟨a', b'⟩, hcut, heq⟩ := Option.map_eq_some_iff.mp h
      obtain ⟨rfl, rfl⟩ := Prod.mk.inj heq
      rw [if_neg hno, ih hcut]
      rfl

/-- A text that is not found does not occur. -/
theorem not_infix_of_cutAt {pat s : Bytes} (h : cutAt pat s = none) : ¬ pat <:+: s := by
  induction s with
  | nil =>
    rw [cutAt] at h
    split_ifs at h with hpat
    exact fun hin ↦ hpat (List.infix_nil.mp hin)
  | cons b s ih =>
    rw [cutAt] at h
    split_ifs at h with hpat
    intro hin
    rcases List.infix_cons_iff.mp hin with hpre | hin
    · exact hpat hpre
    · exact ih (Option.map_eq_none_iff.mp h) hin

/-- A separator that a text does not hold ends the text. -/
theorem cutAt_singleton {b : UInt8} {s : Bytes} (h : b ∉ s) (t : Bytes) :
    cutAt [b] (s ++ [b] ++ t) = some (s, t) := by
  induction s with
  | nil => simp [cutAt]
  | cons a s ih =>
    have hno : ¬ [b] <+: a :: (s ++ [b] ++ t) := fun hpre ↦
      List.ne_of_not_mem_cons h (List.cons_prefix_cons.mp hpre).1
    rw [List.cons_append, List.cons_append, cutAt, if_neg hno, ih (List.not_mem_of_not_mem_cons h)]
    rfl

/-- A text that holds no line end does not begin with one, nor does it together with the line end
behind it: the line end would begin with the last byte before it. -/
theorem not_crlf_begins {b : UInt8} {s : Bytes} (h : ¬ CRLF <:+: b :: s) (t : Bytes) :
    ¬ CRLF <+: b :: (s ++ CRLF ++ t) := by
  intro hpre
  cases s with
  | nil =>
    obtain ⟨-, hsecond⟩ := List.cons_prefix_cons.mp hpre
    obtain ⟨hbad, -⟩ := List.cons_prefix_cons.mp hsecond
    exact absurd hbad (by decide)
  | cons b' s =>
    obtain ⟨rfl, hsecond⟩ := List.cons_prefix_cons.mp hpre
    obtain ⟨rfl, -⟩ := List.cons_prefix_cons.mp hsecond
    exact h ⟨[], s, rfl⟩

/-- A text that does not hold a pattern is what stands before the pattern, if the two do not
overlap. -/
theorem cutAt_crlf {s : Bytes} (h : ¬ CRLF <:+: s) (t : Bytes) :
    cutAt CRLF (s ++ CRLF ++ t) = some (s, t) := by
  induction s with
  | nil => rfl
  | cons b s ih =>
    have hs : ¬ CRLF <:+: s := fun hin ↦ h (hin.trans (List.suffix_cons b s).isInfix)
    rw [List.cons_append, List.cons_append, cutAt, if_neg (not_crlf_begins h t), ih hs]
    rfl

end Shrt
