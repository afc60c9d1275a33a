import Shrt.App.Json

/-!
# Numbers in request bodies

`strtod` takes more than the numbers of JSON, and it looks ahead: behind `1e` it looks for a sign
and a digit, behind `0x` for a hexadecimal digit, behind `inf` for `inity`. Two facts are all that
the reader of values needs. A number of JSON that is followed by nothing, by white space or by a
delimiter is read to its end, with its value (`strtod_numeral`). And whatever was read up to such a
byte is read again when something is appended to the text (`strtod_append`).
-/

namespace Shrt

open Jp (isWs)

/-! ## What may follow a number -/

/-- White space, and what stands behind a value in an array or an object. -/
def isDelimiter (b : UInt8) : Bool := isWs b || b = 44 || b = 93 || b = 125

/-- Nothing, or a delimiter, comes first. -/
def Stops (r : Bytes) : Prop := ∀ b ∈ r.head?, isDelimiter b = true

/-- A delimiter is nothing that `strtod` looks for. -/
structure Inert (b : UInt8) : Prop where
  not_digit : isDigit b = false
  not_hex : hexVal b = none
  not_point : b ≠ 46
  not_paren : b ≠ 40
  not_letter : ¬ (97 ≤ toLower b ∧ toLower b ≤ 122)

theorem inert_of_isDelimiter {b : UInt8} (h : isDelimiter b = true) : Inert b := by
  have hcases : b = 32 ∨ b = 9 ∨ b = 10 ∨ b = 13 ∨ b = 44 ∨ b = 93 ∨ b = 125 := by
    simpa [isDelimiter, isWs, or_assoc] using h
  rcases hcases with rfl | rfl | rfl | rfl | rfl | rfl | rfl <;>
    exact ⟨by decide, by decide, by decide, by decide, by decide⟩

theorem Inert.toLower_ne {b c : UInt8} (h : Inert b) (hc : 97 ≤ c ∧ c ≤ 122) : toLower b ≠ c := by
  rintro rfl
  exact h.not_letter hc

/-! ## Words -/

theorem word_eq_none {b c : UInt8} (h : toLower b ≠ c) (w t : Bytes) :
    word (c :: w) (b :: t) = none := by
  rw [word, if_neg]
  intro heq
  rw [List.length_cons, List.take_succ_cons, List.map_cons] at heq
  exact h (List.cons.inj heq).1

theorem word_eq_some {w s r : Bytes} : word w s = some r ↔ ∃ u, s = u ++ r ∧ u.map toLower = w := by
  rw [word]
  constructor
  · intro h
    split_ifs at h with htake
    obtain rfl := Option.some.inj h
    exact ⟨_, (List.take_append_drop _ s).symm, htake⟩
  · rintro ⟨u, rfl, rfl⟩
    rw [List.length_map, List.take_left, if_pos rfl, List.drop_left]

theorem head_of_word {c : UInt8} {w s r : Bytes} (h : word (c :: w) s = some r) :
    ∃ b t, s = b :: t ∧ toLower b = c := by
  obtain ⟨u, rfl, hu⟩ := word_eq_some.mp h
  cases u with
  | nil => exact nomatch hu
  | cons b u => exact ⟨b, u ++ r, rfl, (List.cons.inj hu).1⟩

/-- What does not begin like a word is a number. -/
theorem strtodAbs_cons {b : UInt8} (hi : toLower b ≠ 105) (hn : toLower b ≠ 110) (t : Bytes) :
    strtodAbs (b :: t) = (hexFloat (b :: t)).or (decFloat (b :: t)) := by
  have hinfinity : word (lit "infinity") (b :: t) = none := word_eq_none hi _ t
  have hinf : word (lit "inf") (b :: t) = none := word_eq_none hi _ t
  have hnan : word (lit "nan") (b :: t) = none := word_eq_none hn _ t
  rw [strtodAbs, hinfinity, hinf, hnan]
  rfl

theorem toLower_of_isDigit {d : UInt8} (h : isDigit d = true) : toLower d = d := by
  simp only [isDigit, Bool.and_eq_true, decide_eq_true_eq, UInt8.le_iff_toNat_le,
    UInt8.reduceToNat] at h
  have hno : ¬ ((decide (65 ≤ d) && decide (d ≤ 90)) = true) := by
    simp only [Bool.and_eq_true, decide_eq_true_eq, UInt8.le_iff_toNat_le, UInt8.reduceToNat]
    omega
  rw [toLower, if_neg hno]

theorem toLower_ne_of_isDigit {d c : UInt8} (h : isDigit d = true) (hc : isDigit c = false) :
    toLower d ≠ c := by
  rw [toLower_of_isDigit h]
  rintro rfl
  exact nomatch hc.symm.trans h

/-! ## The numbers of JSON -/

/-- A run of digits. -/
def Digits := { ds : Bytes // ds ≠ [] ∧ ∀ d ∈ ds, isDigit d = true }

/-- An exponent with its marker and an optional sign, which is negative when it is `true`. -/
structure Exponent where
  upper : Bool
  sign : Option Bool
  digits : Digits

namespace Exponent

/-- The sign as it is written. -/
def signText (e : Exponent) : Bytes := match e.sign with
  | none => []
  | some neg => if neg then [45] else [43]

/-- The marker. -/
def marker (e : Exponent) : UInt8 := if e.upper then 69 else 101

/-- An exponent as it is written. -/
def text (e : Exponent) : Bytes := e.marker :: (e.signText ++ e.digits.1)

/-- Its value. -/
def value (e : Exponent) : ℤ :=
  if e.sign = some true then -(decVal 0 e.digits.1 : ℤ) else decVal 0 e.digits.1

end Exponent

/-- A number of JSON. -/
structure Numeral where
  neg : Bool
  whole : Digits
  frac : Option Digits
  exp : Option Exponent
  /-- A zero stands alone before the point. -/
  whole_ok : whole.1.head? = some 48 → whole.1 = [48]

namespace Numeral

/-- The digits behind the point. -/
def fracDigits (n : Numeral) : Bytes := (n.frac.map Subtype.val).getD []

/-- The point and the digits behind it. -/
def fracText (n : Numeral) : Bytes := (n.frac.map fun ds ↦ 46 :: ds.1).getD []

/-- The exponent as it is written. -/
def expText (n : Numeral) : Bytes := (n.exp.map Exponent.text).getD []

/-- A number as it is written, behind the sign. -/
def absText (n : Numeral) : Bytes := n.whole.1 ++ (n.fracText ++ n.expText)

/-- A number as it is written. -/
def text (n : Numeral) : Bytes := (if n.neg then [45] else []) ++ n.absText

/-- The value behind the sign. -/
def absValue (n : Numeral) : ℚ := decVal 0 (n.whole.1 ++ n.fracDigits)
  * (10 : ℚ) ^ ((n.exp.map Exponent.value).getD 0 - n.fracDigits.length)

/-- The value of a number. -/
def value (n : Numeral) : ℚ := if n.neg then -n.absValue else n.absValue

end Numeral

/-! ## Numbers are read to their end -/

theorem dropWhile_digits {ds t : Bytes} (hd : ∀ d ∈ ds, isDigit d = true)
    (ht : ∀ b ∈ t.head?, isDigit b = false) : (ds ++ t).dropWhile isDigit = t := by
  rw [List.dropWhile_append_of_pos hd]
  cases t with
  | nil => rfl
  | cons b t => rw [List.dropWhile_cons, ht b rfl]; rfl

theorem Stops.not_digit {r : Bytes} (h : Stops r) : ∀ b ∈ r.head?, isDigit b = false :=
  fun b hb ↦ (inert_of_isDelimiter (h b hb)).not_digit

theorem exponent_stops {r : Bytes} (h : Stops r) : exponent 101 r = (0, r) := by
  cases r with
  | nil => rfl
  | cons b r =>
    have hb : toLower b ≠ 101 := (inert_of_isDelimiter (h b rfl)).toLower_ne (by decide)
    rw [exponent]
    simp only [hb, false_and, if_false]

namespace Exponent

theorem sign_signText (e : Exponent) (r : Bytes) :
    Shrt.sign (e.signText ++ e.digits.1 ++ r) = (decide (e.sign = some true), e.digits.1 ++ r) := by
  obtain ⟨upper, sign, ⟨ds, hne, hds⟩⟩ := e
  obtain ⟨d, ds, rfl⟩ := List.exists_cons_of_ne_nil hne
  cases sign with
  | none => exact sign_of_isDigit (hds d List.mem_cons_self) _
  | some neg => cases neg <;> rfl

theorem exponent_text (e : Exponent) {r : Bytes} (h : Stops r) :
    exponent 101 (e.text ++ r) = (e.value, r) := by
  have hmarker : toLower e.marker = 101 := by
    rw [marker]
    split_ifs <;> decide
  rw [text, List.cons_append, exponent, e.sign_signText]
  simp only [takeWhile_digits e.digits.2.2 h.not_digit, dropWhile_digits e.digits.2.2 h.not_digit,
    hmarker, e.digits.2.1, ne_eq, not_false_eq_true, and_self, if_true, value, decide_eq_true_eq]

end Exponent

/-- Digits without a point. -/
theorem mantissa_whole (ds : Digits) {rest : Bytes}
    (hrest : ∀ b ∈ rest.head?, isDigit b = false ∧ b ≠ 46) :
    mantissa isDigit (ds.1 ++ rest) = some (ds.1, [], rest) := by
  have hhead := fun b hb ↦ (hrest b hb).1
  rw [mantissa]
  simp only [takeWhile_digits ds.2.2 hhead, dropWhile_digits ds.2.2 hhead, ds.2.1, false_and, if_false]
  split
  · exact absurd rfl (hrest 46 rfl).2
  · rfl

/-- Digits on both sides of a point. -/
theorem mantissa_point (ds fs : Digits) {rest : Bytes} (hrest : ∀ b ∈ rest.head?, isDigit b = false) :
    mantissa isDigit (ds.1 ++ 46 :: (fs.1 ++ rest)) = some (ds.1, fs.1, rest) := by
  have hhead : ∀ b ∈ (46 :: (fs.1 ++ rest)).head?, isDigit b = false := by
    intro b hb
    obtain rfl : 46 = b := Option.some.inj hb
    decide
  rw [mantissa]
  simp only [takeWhile_digits ds.2.2 hhead, dropWhile_digits ds.2.2 hhead,
    takeWhile_digits fs.2.2 hrest, dropWhile_digits fs.2.2 hrest, ds.2.1, false_and, if_false]

namespace Numeral

variable (n : Numeral) {r : Bytes}

theorem exponent_expText (h : Stops r) :
    exponent 101 (n.expText ++ r) = ((n.exp.map Exponent.value).getD 0, r) := by
  rw [expText]
  cases n.exp with
  | none => exact exponent_stops h
  | some e => exact e.exponent_text h

/-- What follows the digits is neither a digit nor a point. -/
theorem head_expText (h : Stops r) : ∀ b ∈ (n.expText ++ r).head?, isDigit b = false ∧ b ≠ 46 := by
  intro b hb
  rw [expText] at hb
  cases hexp : n.exp with
  | none =>
    rw [hexp] at hb
    have hinert := inert_of_isDelimiter (h b hb)
    exact ⟨hinert.not_digit, hinert.not_point⟩
  | some e =>
    rw [hexp] at hb
    obtain rfl : e.marker = b := Option.some.inj hb
    rw [Exponent.marker]
    split_ifs <;> decide

theorem mantissa_absText (h : Stops r) : mantissa isDigit (n.absText ++ r)
    = some (n.whole.1, n.fracDigits, n.expText ++ r) := by
  have hrest := n.head_expText h
  rw [absText, List.append_assoc, List.append_assoc, fracText, fracDigits]
  cases n.frac with
  | none => exact mantissa_whole n.whole hrest
  | some ds => exact mantissa_point n.whole ds fun b hb ↦ (hrest b hb).1

/-- The `0x` of a hexadecimal number is not to be found. -/
theorem hexFloat_absText (h : Stops r) : hexFloat (n.absText ++ r) = none := by
  obtain ⟨d, ds, hds⟩ := List.exists_cons_of_ne_nil n.whole.2.1
  have hnext : ∀ b ∈ (n.fracText ++ n.expText ++ r).head?, toLower b ≠ 120 := by
    intro b hb
    rw [List.append_assoc, fracText] at hb
    cases hfrac : n.frac with
    | some fs =>
      rw [hfrac] at hb
      obtain rfl : 46 = b := Option.some.inj hb
      decide
    | none =>
      rw [hfrac, Option.map_none, Option.getD_none, List.nil_append, expText] at hb
      cases hexp : n.exp with
      | some e =>
        rw [hexp] at hb
        obtain rfl : e.marker = b := Option.some.inj hb
        rw [Exponent.marker]
        split_ifs <;> decide
      | none =>
        rw [hexp] at hb
        exact (inert_of_isDelimiter (h b hb)).toLower_ne (by decide)
  by_cases hd : d = 48
  · subst hd
    have hzero : n.whole.1 = [48] := n.whole_ok (by rw [hds]; rfl)
    rw [absText, hzero, List.append_assoc, List.singleton_append]
    cases hrest : n.fracText ++ n.expText ++ r with
    | nil => rfl
    | cons x t => rw [hexFloat, if_neg (hnext x (by rw [hrest]; rfl))]
  · rw [absText, hds, List.append_assoc, List.cons_append, hexFloat]
    rintro x t heq
    exact absurd (List.cons.inj heq).1 hd

theorem strtodAbs_absText (h : Stops r) : strtodAbs (n.absText ++ r) = some (.fin n.absValue, r) := by
  have hfloat : decFloat (n.absText ++ r) = some (.fin n.absValue, r) := by
    rw [decFloat, float, n.mantissa_absText h, Option.map_some, n.exponent_expText h]
    rfl
  obtain ⟨d, ds, hds⟩ := List.exists_cons_of_ne_nil n.whole.2.1
  have hd : isDigit d = true := n.whole.2.2 d (hds ▸ List.mem_cons_self)
  have hcons : n.absText ++ r = d :: (ds ++ (n.fracText ++ n.expText) ++ r) := by
    rw [absText, hds, List.cons_append, List.cons_append]
  rw [hcons, strtodAbs_cons (toLower_ne_of_isDigit hd (by decide))
    (toLower_ne_of_isDigit hd (by decide)), ← hcons, n.hexFloat_absText h, hfloat]
  rfl

end Numeral

/-- **A number of JSON is read to its end**, when nothing or a delimiter follows. -/
theorem strtod_numeral (n : Numeral) {r : Bytes} (h : Stops r) :
    strtod (n.text ++ r) = some (.fin n.value, r) := by
  obtain ⟨d, ds, hds⟩ := List.exists_cons_of_ne_nil n.whole.2.1
  have hd : isDigit d = true := n.whole.2.2 d (hds ▸ List.mem_cons_self)
  have habs : n.absText ++ r = d :: (ds ++ (n.fracText ++ n.expText) ++ r) := by
    rw [Numeral.absText, hds, List.cons_append, List.cons_append]
  have hsign : sign ((n.text ++ r).dropWhile isSpace) = (n.neg, n.absText ++ r) := by
    rw [Numeral.text, List.append_assoc]
    cases n.neg with
    | true => rfl
    | false =>
      rw [if_neg Bool.false_ne_true, List.nil_append, habs, List.dropWhile_cons, isSpace_of_isDigit hd,
        if_neg Bool.false_ne_true, sign_of_isDigit hd]
  rw [strtod, hsign]
  simp only [n.strtodAbs_absText h, Option.map_some, Numeral.value]
  cases n.neg with
  | true => rfl
  | false => rfl

/-! ## What was read is read again -/

section Append

variable {s r e : Bytes} {c d : UInt8}

/-- A run that ended at a byte ends there again. -/
theorem takeWhile_dropWhile_append {p : UInt8 → Bool} (h : s.dropWhile p = c :: r) (e : Bytes) :
    (s ++ e).takeWhile p = s.takeWhile p ∧ (s ++ e).dropWhile p = c :: (r ++ e) := by
  induction s with
  | nil => exact nomatch h
  | cons b s ih =>
    rw [List.dropWhile_cons] at h
    rw [List.cons_append, List.takeWhile_cons, List.takeWhile_cons, List.dropWhile_cons]
    split_ifs at h ⊢ with hb
    · obtain ⟨htake, hdrop⟩ := ih h
      exact ⟨by rw [htake], hdrop⟩
    · obtain ⟨rfl, rfl⟩ := List.cons.inj h
      exact ⟨rfl, rfl⟩

theorem sign_of_ne {b : UInt8} (hminus : b ≠ 45) (hplus : b ≠ 43) (t : Bytes) :
    sign (b :: t) = (false, b :: t) := by
  rw [sign]
  · rintro t' heq
    exact hminus (List.cons.inj heq).1
  · rintro t' heq
    exact hplus (List.cons.inj heq).1

theorem sign_append (hne : s ≠ []) (e : Bytes) : sign (s ++ e) = ((sign s).1, (sign s).2 ++ e) := by
  obtain ⟨b, s, rfl⟩ := List.exists_cons_of_ne_nil hne
  by_cases hminus : b = 45
  · subst hminus
    rfl
  · by_cases hplus : b = 43
    · subst hplus
      rfl
    · rw [List.cons_append, sign_of_ne hminus hplus, sign_of_ne hminus hplus]
      rfl

theorem exponent_cons (marker b : UInt8) (s : Bytes) : exponent marker (b :: s) =
    if toLower b = marker ∧ (sign s).2.takeWhile isDigit ≠ [] then
      (if (sign s).1 then -(decVal 0 ((sign s).2.takeWhile isDigit) : ℤ)
        else decVal 0 ((sign s).2.takeWhile isDigit), (sign s).2.dropWhile isDigit)
    else (0, b :: s) := rfl

theorem exponent_append {marker : UInt8} {v : ℤ} (hm : 97 ≤ marker ∧ marker ≤ 122) (hd : Inert d)
    (h : exponent marker s = (v, d :: r)) (e : Bytes) :
    exponent marker (s ++ e) = (v, d :: (r ++ e)) := by
  cases s with
  | nil => exact nomatch (Prod.mk.inj h).2
  | cons b s =>
    rw [exponent_cons] at h
    rw [List.cons_append, exponent_cons]
    by_cases hexp : toLower b = marker ∧ (sign s).2.takeWhile isDigit ≠ []
    · -- There is an exponent, and a digit in it, so that its sign is where it was.
      rw [if_pos hexp] at h
      obtain ⟨hv, hrest⟩ := Prod.mk.inj h
      have hne : s ≠ [] := by
        rintro rfl
        exact hexp.2 rfl
      obtain ⟨htake, hdrop⟩ := takeWhile_dropWhile_append hrest e
      rw [sign_append hne, htake, hdrop, if_pos hexp, ← hv]
    · rw [if_neg hexp] at h
      obtain ⟨rfl, hrest⟩ := Prod.mk.inj h
      obtain ⟨rfl, rfl⟩ := List.cons.inj hrest
      rw [if_neg fun hexp ↦ hd.toLower_ne hm hexp.1]

/-- The digits behind the point, if there is one, and the rest. -/
def behindPoint (digit : UInt8 → Bool) : Bytes → Bytes × Bytes
  | 46 :: r => (r.takeWhile digit, r.dropWhile digit)
  | r => ([], r)

theorem mantissa_eq (digit : UInt8 → Bool) (s : Bytes) : mantissa digit s =
    if s.takeWhile digit = [] ∧ (behindPoint digit (s.dropWhile digit)).1 = [] then none
    else some (s.takeWhile digit, behindPoint digit (s.dropWhile digit)) := rfl

theorem behindPoint_append {digit : UInt8 → Bool} {frac : Bytes}
    (h : behindPoint digit s = (frac, c :: r)) (e : Bytes) :
    behindPoint digit (s ++ e) = (frac, c :: (r ++ e)) := by
  have hother : ∀ {b : UInt8} {t : Bytes}, b ≠ 46 → behindPoint digit (b :: t) = ([], b :: t) := by
    intro b t hb
    rw [behindPoint]
    rintro t' heq
    exact hb (List.cons.inj heq).1
  cases s with
  | nil => exact nomatch (Prod.mk.inj h).2
  | cons b s =>
    by_cases hb : b = 46
    · subst hb
      obtain ⟨rfl, hrest⟩ := Prod.mk.inj h
      obtain ⟨htake, hdrop⟩ := takeWhile_dropWhile_append hrest e
      exact Prod.ext htake hdrop
    · rw [hother hb] at h
      obtain ⟨rfl, hrest⟩ := Prod.mk.inj h
      obtain ⟨rfl, rfl⟩ := List.cons.inj hrest
      rw [List.cons_append, hother hb]

theorem mantissa_append {digit : UInt8 → Bool} {whole frac : Bytes}
    (h : mantissa digit s = some (whole, frac, c :: r)) (e : Bytes) :
    mantissa digit (s ++ e) = some (whole, frac, c :: (r ++ e)) := by
  rw [mantissa_eq] at h
  split_ifs at h with hnone
  obtain ⟨rfl, hpoint⟩ := Prod.mk.inj (Option.some.inj h)
  cases hdrop : s.dropWhile digit with
  | nil =>
    rw [hdrop] at hpoint
    exact nomatch (Prod.mk.inj hpoint).2
  | cons b t =>
    obtain ⟨htake, hdrop'⟩ := takeWhile_dropWhile_append hdrop e
    rw [hdrop] at hpoint hnone
    rw [hpoint] at hnone
    rw [mantissa_eq, htake, hdrop', ← List.cons_append, behindPoint_append hpoint, if_neg hnone]

theorem float_append {digit : UInt8 → Bool} {marker : UInt8} {value : Bytes → ℕ → ℤ → ℚ} {x : Double}
    (hm : 97 ≤ marker ∧ marker ≤ 122) (hd : Inert d)
    (h : float digit marker value s = some (x, d :: r)) (e : Bytes) :
    float digit marker value (s ++ e) = some (x, d :: (r ++ e)) := by
  obtain ⟨⟨whole, frac, rest⟩, hmant, heq⟩ := Option.map_eq_some_iff.mp h
  obtain ⟨rfl, hrest⟩ := Prod.mk.inj heq
  have hexp : exponent marker rest = ((exponent marker rest).1, d :: r) := Prod.ext rfl hrest
  cases rest with
  | nil => exact nomatch hrest
  | cons c t =>
    rw [float, mantissa_append hmant e, Option.map_some, ← List.cons_append,
      exponent_append hm hd hexp e]

/-- A hexadecimal number is read again. -/
theorem hexFloat_append {x : Double} (hd : Inert d) (h : hexFloat s = some (x, d :: r)) (e : Bytes) :
    hexFloat (s ++ e) = some (x, d :: (r ++ e)) := by
  fun_cases hexFloat s with
  | case1 b t hx =>
    rw [hexFloat, if_pos hx] at h
    rw [List.cons_append, List.cons_append, hexFloat, if_pos hx]
    exact float_append (by decide) hd h e
  | case2 b t hx =>
    rw [hexFloat, if_neg hx] at h
    contradiction
  | case3 =>
    rw [hexFloat] at h
    · contradiction
    · assumption

theorem head_of_hexFloat {b : UInt8} {p : Double × Bytes} (h : hexFloat (b :: s) = some p) :
    b = 48 := by
  by_contra hb
  rw [hexFloat] at h
  · contradiction
  · rintro y t heq
    exact hb (List.cons.inj heq).1

/-- Of `0x` without a digit, only the zero is read. -/
theorem decFloat_zero_x {y : UInt8} (hy : toLower y = 120) (t : Bytes) :
    decFloat (48 :: y :: t) = some (.fin 0, y :: t) := by
  have hrest : ∀ b ∈ (y :: t).head?, isDigit b = false ∧ b ≠ 46 := by
    intro b hb
    obtain rfl : y = b := Option.some.inj hb
    constructor
    · by_contra hdigit
      exact toLower_ne_of_isDigit (Bool.not_eq_false _ ▸ hdigit) (by decide) hy
    · rintro rfl
      exact absurd hy (by decide)
  have hmant := mantissa_whole ⟨[48], by simp, by simp [isDigit]⟩ hrest
  have hexp : exponent 101 (y :: t) = (0, y :: t) := by
    rw [exponent_cons, if_neg]
    rintro ⟨hmarker, -⟩
    exact absurd (hmarker.symm.trans hy) (by decide)
  rw [decFloat, float]
  change Option.map _ (mantissa isDigit ([48] ++ y :: t)) = _
  rw [hmant, Option.map_some, hexp]
  simp [decVal]

/-- A decimal number is not taken for a hexadecimal one. -/
theorem hexFloat_append_of_none {x : Double} (hd : Inert d) (h : decFloat s = some (x, d :: r))
    (e : Bytes) : hexFloat (s ++ e) = none := by
  cases s with
  | nil => exact nomatch h
  | cons b s =>
    by_cases hb : b = 48
    · subst hb
      cases s with
      | nil => exact nomatch h
      | cons y s =>
        rw [List.cons_append, List.cons_append, hexFloat, if_neg]
        intro hy
        rw [decFloat_zero_x hy] at h
        obtain ⟨-, hrest⟩ := Prod.mk.inj (Option.some.inj h)
        obtain ⟨rfl, -⟩ := List.cons.inj hrest
        exact hd.toLower_ne (by decide) hy
    · rw [List.cons_append, hexFloat]
      rintro y t heq
      exact hb (List.cons.inj heq).1

/-- A decimal number begins with a digit or a point. -/
theorem head_of_decFloat {b : UInt8} {p : Double × Bytes} (h : decFloat (b :: s) = some p) :
    isDigit b = true ∨ b = 46 := by
  by_contra hno
  obtain ⟨hdigit, hpoint⟩ := not_or.mp hno
  obtain ⟨m, hm, -⟩ := Option.map_eq_some_iff.mp h
  have hnone : behindPoint isDigit (b :: s) = ([], b :: s) := by
    rw [behindPoint]
    rintro t' heq
    exact hpoint (List.cons.inj heq).1
  rw [mantissa_eq, List.takeWhile_cons, List.dropWhile_cons, if_neg hdigit, if_neg hdigit, hnone,
    if_pos ⟨rfl, rfl⟩] at hm
  exact nomatch hm

theorem word_append {w : Bytes} (h : word w s = some r) (e : Bytes) :
    word w (s ++ e) = some (r ++ e) := by
  obtain ⟨u, rfl, hu⟩ := word_eq_some.mp h
  exact word_eq_some.mpr ⟨u, List.append_assoc .., hu⟩

/-- A longer word does not go on behind an inert byte. -/
theorem word_none_of_shorter {w : Bytes} (hc : 97 ≤ c ∧ c ≤ 122) (hd : Inert d)
    (h : word w s = some (d :: r)) (w' : Bytes) : word (w ++ c :: w') s = none := by
  by_contra hsome
  obtain ⟨t, ht⟩ := Option.ne_none_iff_exists'.mp hsome
  obtain ⟨u, rfl, hu⟩ := word_eq_some.mp h
  obtain ⟨v, hv, hword⟩ := word_eq_some.mp ht
  have hmap := congrArg (List.map toLower) hv
  rw [List.map_append, List.map_append, hu, hword, List.map_cons, List.append_assoc,
    List.append_cancel_left_eq] at hmap
  exact hd.toLower_ne hc (List.cons.inj hmap).1

theorem nanTail_append (hd : Inert d) (h : nanTail s = d :: r) (e : Bytes) :
    nanTail (s ++ e) = d :: (r ++ e) := by
  cases s with
  | nil => exact nomatch h
  | cons b s =>
    by_cases hb : b = 40
    · subst hb
      rw [nanTail] at h
      split at h
      · rename_i r' hclose
        obtain ⟨-, hdrop⟩ := takeWhile_dropWhile_append hclose e
        rw [List.cons_append, nanTail, hdrop, h]
        rfl
      · exact absurd (List.cons.inj h).1.symm hd.not_paren
    · have hother : ∀ t : Bytes, nanTail (b :: t) = b :: t := by
        intro t
        rw [nanTail]
        rintro t' heq
        exact hb (List.cons.inj heq).1
      rw [hother] at h
      rw [List.cons_append, hother, ← List.cons_append, h, List.cons_append]

theorem strtodAbs_append {x : Double} (hd : Inert d) (h : strtodAbs s = some (x, d :: r))
    (e : Bytes) : strtodAbs (s ++ e) = some (x, d :: (r ++ e)) := by
  rw [strtodAbs] at h
  split at h
  · rename_i r' hinf
    obtain ⟨rfl, rfl⟩ := Prod.mk.inj (Option.some.inj h)
    have hinf' : (word (lit "infinity") (s ++ e)).or (word (lit "inf") (s ++ e))
        = some (d :: (r ++ e)) := by
      rcases Option.or_eq_some_iff.mp hinf with hlong | ⟨-, hshort⟩
      · rw [word_append hlong]
        rfl
      · have hshort' := word_append hshort e
        have hlong' : word (lit "infinity") (s ++ e) = none :=
          @word_none_of_shorter _ _ 105 _ _ (by decide) hd hshort' (lit "nity")
        rw [hlong', hshort']
        rfl
    rw [strtodAbs, hinf']
  · rename_i r' _ hnan
    obtain ⟨rfl, htail⟩ := Prod.mk.inj (Option.some.inj h)
    have hnan' := word_append hnan e
    obtain ⟨b, t, hbt, hb⟩ := head_of_word hnan'
    have hinfinity : word (lit "infinity") (s ++ e) = none := by
      rw [hbt]
      exact word_eq_none (hb ▸ by decide) _ t
    have hinf : word (lit "inf") (s ++ e) = none := by
      rw [hbt]
      exact word_eq_none (hb ▸ by decide) _ t
    rw [strtodAbs, hinfinity, hinf, hnan']
    change some (Double.nan, nanTail (r' ++ e)) = _
    rw [nanTail_append hd htail]
  · cases s with
    | nil => contradiction
    | cons b s =>
      have hfloat : (hexFloat (b :: (s ++ e))).or (decFloat (b :: (s ++ e))) = some (x, d :: (r ++ e)) ∧
          (isDigit b = true ∨ b = 46) := by
        rcases Option.or_eq_some_iff.mp h with hhex | ⟨-, hdec⟩
        · rw [← List.cons_append, hexFloat_append hd hhex]
          exact ⟨rfl, .inl (head_of_hexFloat hhex ▸ by decide)⟩
        · rw [← List.cons_append, hexFloat_append_of_none hd hdec,
            show decFloat (b :: s ++ e) = some (x, d :: (r ++ e)) from
              float_append (by decide) hd hdec e]
          exact ⟨rfl, head_of_decFloat hdec⟩
      obtain ⟨hvalue, hhead⟩ := hfloat
      have hlower : toLower b ≠ 105 ∧ toLower b ≠ 110 := by
        rcases hhead with hdigit | rfl
        · exact ⟨toLower_ne_of_isDigit hdigit (by decide), toLower_ne_of_isDigit hdigit (by decide)⟩
        · decide
      rw [List.cons_append, strtodAbs_cons hlower.1 hlower.2, hvalue]

end Append

theorem strtod_eq (s : Bytes) : strtod s =
    (strtodAbs (sign (s.dropWhile isSpace)).2).map fun p ↦
      (if (sign (s.dropWhile isSpace)).1 then p.1.neg else p.1, p.2) := rfl

/-- **What was read up to a delimiter is read again**, whatever is appended. -/
theorem strtod_append {s r : Bytes} {x : Double} {d : UInt8} (hd : isDelimiter d = true)
    (h : strtod s = some (x, d :: r)) (e : Bytes) : strtod (s ++ e) = some (x, d :: (r ++ e)) := by
  rw [strtod_eq] at h
  rw [strtod_eq]
  cases hspace : s.dropWhile isSpace with
  | nil =>
    rw [hspace] at h
    exact nomatch h
  | cons b t =>
    rw [hspace] at h
    obtain ⟨⟨y, rest⟩, hy, heq⟩ := Option.map_eq_some_iff.mp h
    obtain ⟨hx, rfl⟩ := Prod.mk.inj heq
    rw [(takeWhile_dropWhile_append hspace e).2, ← List.cons_append,
      sign_append (List.cons_ne_nil b t), strtodAbs_append (inert_of_isDelimiter hd) hy e,
      Option.map_some, hx]

end Shrt
