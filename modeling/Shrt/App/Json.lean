import Shrt.Common

/-!
# Request bodies

The JSON reader of the request handler. It is a recursive descent over a pointer range; here each
reader returns what it read with the bytes it left, or nothing where the source clears `ok`, which
is never set again and ends every loop. Numbers are read by `strtod`, which takes more than JSON
does: leading white space, a plus sign, hexadecimal, infinities and NaNs. Their values are exact
rationals.

The readers recurse on a bound that `jparse` chooses. `val_eq_of_le` says that the bound is never
what ends them: any larger one gives the same result.
-/

namespace Shrt

/-! ## Numbers -/

/-- A `double`, with finite values taken exactly. -/
inductive Double where
  | fin (q : ℚ)
  | inf (neg : Bool)
  | nan
  deriving DecidableEq

namespace Double

/-- Unary minus. -/
def neg : Double → Double
  | fin q => fin (-q)
  | inf b => inf !b
  | nan => nan

/-- `x <= 0`, which a NaN is not. -/
def nonpos : Double → Bool
  | fin q => q ≤ 0
  | inf b => b
  | nan => false

/-- The conversion to `int64_t`. Out of range it is undefined in C++; `undef` says what the compiler
makes of it. -/
def toInt64 (undef : Double → Int64) (x : Double) : Int64 := match x with
  | fin q =>
    let z := q.num.tdiv q.den
    if -2 ^ 63 ≤ z ∧ z < 2 ^ 63 then Int64.ofInt z else undef x
  | _ => undef x

end Double

/-- `tolower` in the C locale. -/
def toLower (b : UInt8) : UInt8 := if 65 ≤ b && b ≤ 90 then b + 32 else b

/-- `isalnum` in the C locale, or an underscore: what may stand in the parentheses of a NaN. -/
def isWordByte (b : UInt8) : Bool := isDigit b || (97 ≤ toLower b && toLower b ≤ 122) || b = 95

/-- A word in any case. -/
def word (w s : Bytes) : Option Bytes :=
  if (s.take w.length).map toLower = w then some (s.drop w.length) else none

/-- Digits with an optional point, at least one digit in all: those before it, those after it, and
the rest. -/
def mantissa (digit : UInt8 → Bool) (s : Bytes) : Option (Bytes × Bytes × Bytes) :=
  let whole := s.takeWhile digit
  let r := s.dropWhile digit
  let p : Bytes × Bytes := match r with
    | 46 :: r => (r.takeWhile digit, r.dropWhile digit)
    | r => ([], r)
  if whole = [] ∧ p.1 = [] then none else some (whole, p.1, p.2)

/-- An exponent, which counts only when a digit follows the marker and the sign. -/
def exponent (marker : UInt8) (s : Bytes) : ℤ × Bytes := match s with
  | b :: r =>
    let (neg, r) := sign r
    let ds := r.takeWhile isDigit
    if toLower b = marker ∧ ds ≠ [] then
      (if neg then -(decVal 0 ds : ℤ) else decVal 0 ds, r.dropWhile isDigit)
    else (0, s)
  | [] => (0, s)

/-- Digits and an exponent. `value` is told the digits, how many of them are behind the point, and
the exponent. -/
def float (digit : UInt8 → Bool) (marker : UInt8) (value : Bytes → ℕ → ℤ → ℚ) (s : Bytes) :
    Option (Double × Bytes) :=
  (mantissa digit s).map fun m ↦
    (.fin (value (m.1 ++ m.2.1) m.2.1.length (exponent marker m.2.2).1), (exponent marker m.2.2).2)

/-- A decimal number. -/
def decFloat (s : Bytes) : Option (Double × Bytes) :=
  float isDigit 101 (fun ds k e ↦ decVal 0 ds * (10 : ℚ) ^ (e - k)) s

/-- A hexadecimal number. -/
def hexFloat : Bytes → Option (Double × Bytes)
  | 48 :: x :: s =>
    if toLower x = 120 then
      float (fun b ↦ (hexVal b).isSome) 112 (fun ds k e ↦ hexRun 0 ds * (2 : ℚ) ^ (e - 4 * k)) s
    else none
  | _ => none

/-- The parenthesised text that may follow `nan`. -/
def nanTail (s : Bytes) : Bytes := match s with
  | 40 :: r => match r.dropWhile isWordByte with
    | 41 :: r => r
    | _ => s
  | _ => s

/-- `strtod` after the sign. -/
def strtodAbs (s : Bytes) : Option (Double × Bytes) :=
  match (word (lit "infinity") s).or (word (lit "inf") s), word (lit "nan") s with
  | some r, _ => some (.inf false, r)
  | none, some r => some (.nan, nanTail r)
  | none, none => (hexFloat s).or (decFloat s)

/-- `strtod`: the value and the bytes after it, or nothing where no number starts. -/
def strtod (s : Bytes) : Option (Double × Bytes) :=
  let (neg, r) := sign (s.dropWhile isSpace)
  (strtodAbs r).map fun (x, r) ↦ (if neg then x.neg else x, r)

/-! ## Values -/

/-- A JSON value. -/
inductive J where
  | nul
  | num (x : Double)
  | str (s : Bytes)
  | arr (xs : List J)
  | obj (kvs : List (Bytes × J))
  | bool (b : Bool)

/-- The first member of an object with a key. -/
def J.find (j : J) (k : Bytes) : Option J := match j with
  | obj kvs => (kvs.find? fun p ↦ p.1 = k).map Prod.snd
  | _ => none

namespace Jp

/-- White space between tokens. -/
def isWs (b : UInt8) : Bool := b = 32 || b = 9 || b = 10 || b = 13

/-- Skip white space. -/
def ws (s : Bytes) : Bytes := s.dropWhile isWs

/-- A keyword. -/
def lit (w s : Bytes) : Option Bytes := if w <+: s then some (s.drop w.length) else none

/-- What `str` reads after the opening quote. A `u` escape is four bytes of anything for one
question mark, and nothing at all near the end. -/
def strTail : Bytes → Option (Bytes × Bytes)
  | 34 :: r => some ([], r)
  | 92 :: 117 :: _ :: _ :: _ :: _ :: r => (strTail r).map fun p ↦ (63 :: p.1, p.2)
  | 92 :: 117 :: r => strTail r
  | 92 :: 110 :: r => (strTail r).map fun p ↦ (10 :: p.1, p.2)
  | 92 :: 114 :: r => (strTail r).map fun p ↦ (13 :: p.1, p.2)
  | 92 :: 116 :: r => (strTail r).map fun p ↦ (9 :: p.1, p.2)
  | 92 :: b :: r => (strTail r).map fun p ↦ (b :: p.1, p.2)
  | b :: r => (strTail r).map fun p ↦ (b :: p.1, p.2)
  | [] => none

/-- A string with its quotes. -/
def str : Bytes → Option (Bytes × Bytes)
  | 34 :: r => strTail r
  | _ => none

/-- A number. -/
def num (s : Bytes) : Option (J × Bytes) := (strtod s).map fun p ↦ (.num p.1, p.2)

mutual

/-- Any value. -/
def val : ℕ → Bytes → Option (J × Bytes)
  | 0, _ => none
  | fuel + 1, s => match ws s with
    | [] => none
    | b :: r =>
      if b = 123 then obj fuel r
      else if b = 91 then arr fuel r
      else if b = 34 then (str (b :: r)).map fun p ↦ (.str p.1, p.2)
      else if b = 116 then (lit (Shrt.lit "true") (b :: r)).map fun r ↦ (.bool true, r)
      else if b = 102 then (lit (Shrt.lit "false") (b :: r)).map fun r ↦ (.bool false, r)
      else if b = 110 then (lit (Shrt.lit "null") (b :: r)).map fun r ↦ (.nul, r)
      else num (b :: r)

/-- An array after its bracket. -/
def arr : ℕ → Bytes → Option (J × Bytes)
  | 0, _ => none
  | fuel + 1, s => match ws s with
    | 93 :: r => some (.arr [], r)
    | s => items fuel [] s

/-- The loop of `arr`. -/
def items : ℕ → List J → Bytes → Option (J × Bytes)
  | 0, _, _ => none
  | fuel + 1, xs, s => match val fuel s with
    | none => none
    | some (x, r) => match ws r with
      | 44 :: r => items fuel (xs ++ [x]) r
      | 93 :: r => some (.arr (xs ++ [x]), r)
      | _ => none

/-- An object after its brace. -/
def obj : ℕ → Bytes → Option (J × Bytes)
  | 0, _ => none
  | fuel + 1, s => match ws s with
    | 125 :: r => some (.obj [], r)
    | s => members fuel [] s

/-- The loop of `obj`. -/
def members : ℕ → List (Bytes × J) → Bytes → Option (J × Bytes)
  | 0, _, _ => none
  | fuel + 1, kvs, s => match str (ws s) with
    | none => none
    | some (k, r) => match ws r with
      | 58 :: r => match val fuel r with
        | none => none
        | some (x, r) => match ws r with
          | 44 :: r => members fuel (kvs ++ [(k, x)]) r
          | 125 :: r => some (.obj (kvs ++ [(k, x)]), r)
          | _ => none
      | _ => none

end

/-! ## Every reader reads something -/

/-- A reader leaves less than it was given. -/
def Shrinks {α : Type*} (f : Bytes → Option (α × Bytes)) : Prop :=
  ∀ {s x r}, f s = some (x, r) → r.length < s.length

theorem length_ws_le (s : Bytes) : (ws s).length ≤ s.length := List.length_dropWhile_le ..

theorem length_lt_of_ws {s r : Bytes} {b : UInt8} (h : ws s = b :: r) : r.length < s.length := by
  have hle := length_ws_le s
  rw [h, List.length_cons] at hle
  omega

theorem shrinks_map {α β : Type*} {f : Bytes → Option (α × Bytes)} (hf : Shrinks f) (g : α → β) :
    Shrinks fun s ↦ (f s).map fun p ↦ (g p.1, p.2) := by
  intro s x r h
  obtain ⟨⟨y, r'⟩, hy, heq⟩ := Option.map_eq_some_iff.mp h
  obtain ⟨-, rfl⟩ := Prod.mk.inj heq
  exact hf hy

theorem length_dropWhile_lt {p : UInt8 → Bool} {s : Bytes} (h : s.takeWhile p ≠ []) :
    (s.dropWhile p).length < s.length := by
  have hsum := congrArg List.length (List.takeWhile_append_dropWhile (p := p) (l := s))
  rw [List.length_append] at hsum
  have hpos := List.length_pos_of_ne_nil h
  omega

theorem length_mantissa_lt {digit : UInt8 → Bool} {s whole frac r : Bytes}
    (h : mantissa digit s = some (whole, frac, r)) : r.length < s.length := by
  rw [mantissa] at h
  split_ifs at h with hnone
  obtain ⟨-, hr⟩ := Prod.mk.inj (Option.some.inj h)
  obtain ⟨-, rfl⟩ := Prod.mk.inj hr
  have hle := List.length_dropWhile_le digit s
  split
  · rename_i r hdot
    have hrest := List.length_dropWhile_le digit r
    rw [hdot, List.length_cons] at hle
    exact hrest.trans_lt hle
  · rename_i hdot
    have hwhole : s.takeWhile digit ≠ [] := by
      intro hnil
      refine hnone ⟨hnil, ?_⟩
      split
      · exact absurd ‹_› (hdot _)
      · rfl
    exact length_dropWhile_lt hwhole

theorem length_sign_le (s : Bytes) : (sign s).2.length ≤ s.length := by
  fun_cases sign s <;> simp

theorem length_exponent_le (marker : UInt8) (s : Bytes) :
    (exponent marker s).2.length ≤ s.length := by
  fun_cases exponent marker s with
  | case1 b r neg r' hsign =>
    have hle := length_sign_le r
    rw [hsign] at hle
    have hrest := List.length_dropWhile_le isDigit r'
    simp only [List.length_cons] at hle ⊢
    omega
  | case2 => exact le_rfl
  | case3 => exact le_rfl

theorem shrinks_float {digit : UInt8 → Bool} {marker : UInt8} {value : Bytes → ℕ → ℤ → ℚ} :
    Shrinks (float digit marker value) := by
  intro s x r h
  obtain ⟨m, hm, heq⟩ := Option.map_eq_some_iff.mp h
  obtain ⟨-, rfl⟩ := Prod.mk.inj heq
  exact (length_exponent_le marker m.2.2).trans_lt (length_mantissa_lt hm)

theorem shrinks_hexFloat : Shrinks hexFloat := by
  intro s x r h
  fun_cases hexFloat s with
  | case1 b s hx =>
    rw [hexFloat, if_pos hx] at h
    have hlt := shrinks_float h
    simp only [List.length_cons]
    omega
  | case2 b s hx =>
    rw [hexFloat, if_neg hx] at h
    exact nomatch h
  | case3 =>
    rw [hexFloat] at h
    · exact nomatch h
    · assumption

theorem length_word_lt {w s r : Bytes} (hw : w ≠ []) (h : word w s = some r) :
    r.length < s.length := by
  rw [word] at h
  split_ifs at h with htake
  obtain rfl := Option.some.inj h
  have hlen := congrArg List.length htake
  have hpos := List.length_pos_of_ne_nil hw
  rw [List.length_map, List.length_take] at hlen
  rw [List.length_drop]
  omega

theorem length_nanTail_le (s : Bytes) : (nanTail s).length ≤ s.length := by
  fun_cases nanTail s with
  | case1 r r' hclose =>
    have hle := List.length_dropWhile_le isWordByte r
    rw [hclose] at hle
    simp only [List.length_cons] at hle ⊢
    omega
  | _ => exact le_rfl

theorem shrinks_strtodAbs : Shrinks strtodAbs := by
  intro s x r h
  rw [strtodAbs] at h
  split at h
  · rename_i r' hinf
    obtain ⟨-, rfl⟩ := Prod.mk.inj (Option.some.inj h)
    rcases Option.or_eq_some_iff.mp hinf with hinf | ⟨-, hinf⟩
    · exact length_word_lt (by decide) hinf
    · exact length_word_lt (by decide) hinf
  · rename_i r' _ hnan
    obtain ⟨-, rfl⟩ := Prod.mk.inj (Option.some.inj h)
    exact (length_nanTail_le r').trans_lt (length_word_lt (by decide) hnan)
  · rcases Option.or_eq_some_iff.mp h with h | ⟨-, h⟩
    · exact shrinks_hexFloat h
    · exact shrinks_float h

theorem shrinks_strtod : Shrinks strtod := by
  intro s x r h
  rw [strtod] at h
  obtain ⟨⟨y, r'⟩, hy, heq⟩ := Option.map_eq_some_iff.mp h
  obtain ⟨-, rfl⟩ := Prod.mk.inj heq
  refine (shrinks_strtodAbs hy).trans_le ((length_sign_le _).trans ?_)
  exact List.length_dropWhile_le ..

theorem shrinks_strTail : Shrinks strTail := by
  intro s
  have hstep : ∀ {b : UInt8} {r : Bytes}, (∀ {x r'}, strTail r = some (x, r') → r'.length < r.length) →
      ∀ {x r'}, (strTail r).map (fun p ↦ (b :: p.1, p.2)) = some (x, r') → r'.length < r.length := by
    intro b r ih x r' h
    obtain ⟨p, hp, heq⟩ := Option.map_eq_some_iff.mp h
    obtain ⟨-, rfl⟩ := Prod.mk.inj heq
    exact ih hp
  fun_induction strTail s with
  | case1 r =>
    rintro x r' ⟨⟩
    simp
  | case9 => exact nofun
  | case3 r _ ih =>
    intro x r' h
    have hlt := ih h
    simp only [List.length_cons]
    omega
  | _ =>
    rename_i ih
    intro x r' h
    have hlt := hstep ih h
    simp only [List.length_cons]
    omega

theorem shrinks_str : Shrinks str := by
  intro s x r h
  fun_cases str s with
  | case1 r' => exact (shrinks_strTail h).trans (Nat.lt_succ_self _)
  | case2 =>
    rw [str] at h
    · exact nomatch h
    · assumption

theorem shrinks_lit {w : Bytes} (hw : w ≠ []) (x : J) :
    Shrinks fun s ↦ (lit w s).map fun r ↦ (x, r) := by
  intro s y r h
  obtain ⟨r', hlit, heq⟩ := Option.map_eq_some_iff.mp h
  obtain ⟨-, rfl⟩ := Prod.mk.inj heq
  rw [Jp.lit] at hlit
  split_ifs at hlit with hpre
  obtain rfl := Option.some.inj hlit
  have hle := hpre.length_le
  have hpos := List.length_pos_of_ne_nil hw
  rw [List.length_drop]
  omega

/-- All readers, for one bound on their recursion. -/
structure AllShrink (fuel : ℕ) : Prop where
  val : Shrinks (val fuel)
  arr : Shrinks (arr fuel)
  items : ∀ xs, Shrinks (items fuel xs)
  obj : Shrinks (obj fuel)
  members : ∀ kvs, Shrinks (members fuel kvs)

theorem allShrink (fuel : ℕ) : AllShrink fuel := by
  induction fuel with
  | zero => exact ⟨nofun, nofun, fun _ ↦ nofun, nofun, fun _ ↦ nofun⟩
  | succ fuel ih =>
    constructor
    · intro s x r h
      rw [val] at h
      split at h
      · exact nomatch h
      · rename_i b r' hws
        have hlt := length_lt_of_ws hws
        have hle := length_ws_le s
        rw [hws] at hle
        split_ifs at h
        · exact (ih.obj h).trans hlt
        · exact (ih.arr h).trans hlt
        · exact (shrinks_map shrinks_str _ h).trans_le hle
        · exact (shrinks_lit (by decide) _ h).trans_le hle
        · exact (shrinks_lit (by decide) _ h).trans_le hle
        · exact (shrinks_lit (by decide) _ h).trans_le hle
        · exact (shrinks_map shrinks_strtod _ h).trans_le hle
    · intro s x r h
      rw [arr] at h
      split at h
      · rename_i r' hws
        obtain ⟨-, rfl⟩ := Prod.mk.inj (Option.some.inj h)
        exact length_lt_of_ws hws
      · exact (ih.items [] h).trans_le (length_ws_le s)
    · intro xs s x r h
      rw [items] at h
      split at h
      · exact nomatch h
      · rename_i y r₁ hval
        have hlt := ih.val hval
        split at h
        · rename_i r₂ hws
          exact ((ih.items _ h).trans (length_lt_of_ws hws)).trans hlt
        · rename_i r₂ hws
          obtain ⟨-, rfl⟩ := Prod.mk.inj (Option.some.inj h)
          exact (length_lt_of_ws hws).trans hlt
        · exact nomatch h
    · intro s x r h
      rw [obj] at h
      split at h
      · rename_i r' hws
        obtain ⟨-, rfl⟩ := Prod.mk.inj (Option.some.inj h)
        exact length_lt_of_ws hws
      · exact (ih.members [] h).trans_le (length_ws_le s)
    · intro kvs s x r h
      rw [members] at h
      split at h
      · exact nomatch h
      · rename_i k r₁ hstr
        have hkey := (shrinks_str hstr).trans_le (length_ws_le s)
        split at h
        · rename_i r₂ hcolon
          have hkey := (length_lt_of_ws hcolon).trans hkey
          split at h
          · exact nomatch h
          · rename_i y r₃ hval
            have hlt := (ih.val hval).trans hkey
            split at h
            · rename_i r₄ hws
              exact ((ih.members _ h).trans (length_lt_of_ws hws)).trans hlt
            · rename_i r₄ hws
              obtain ⟨-, rfl⟩ := Prod.mk.inj (Option.some.inj h)
              exact (length_lt_of_ws hws).trans hlt
            · exact nomatch h
        · exact nomatch h

/-! ## The bound does not matter -/

/-- A bound is large enough for each reader, by the length of what it is given: one more changes
nothing. -/
structure Enough (fuel : ℕ) : Prop where
  val : ∀ s, 3 * s.length + 1 ≤ fuel → val (fuel + 1) s = val fuel s
  arr : ∀ s, 3 * s.length + 3 ≤ fuel → arr (fuel + 1) s = arr fuel s
  items : ∀ xs s, 3 * s.length + 2 ≤ fuel → items (fuel + 1) xs s = items fuel xs s
  obj : ∀ s, 3 * s.length + 3 ≤ fuel → obj (fuel + 1) s = obj fuel s
  members : ∀ kvs s, 3 * s.length + 2 ≤ fuel → members (fuel + 1) kvs s = members fuel kvs s

theorem enough (fuel : ℕ) : Enough fuel := by
  induction fuel with
  | zero => constructor <;> intros <;> omega
  | succ fuel ih =>
    constructor
    · intro s hs
      rw [val, val]
      split
      · rfl
      · rename_i b r hws
        have hlt := length_lt_of_ws hws
        rw [ih.obj r (by omega), ih.arr r (by omega)]
    · intro s hs
      rw [arr, arr]
      have hle := length_ws_le s
      split
      · rfl
      · exact ih.items [] (ws s) (by omega)
    · intro xs s hs
      rw [items, items, ih.val s (by omega)]
      split
      · rfl
      · rename_i y r hval
        have hlt := (allShrink fuel).val hval
        split
        · rename_i r' hws
          have hrest := length_lt_of_ws hws
          rw [ih.items _ r' (by omega)]
        · rfl
        · rfl
    · intro s hs
      rw [obj, obj]
      have hle := length_ws_le s
      split
      · rfl
      · exact ih.members [] (ws s) (by omega)
    · intro kvs s hs
      rw [members, members]
      split
      · rfl
      · rename_i k r hstr
        have hkey := (shrinks_str hstr).trans_le (length_ws_le s)
        split
        · rename_i r' hcolon
          have hcolon := length_lt_of_ws hcolon
          rw [ih.val r' (by omega)]
          split
          · rfl
          · rename_i y r₃ hval
            have hlt := (allShrink fuel).val hval
            split
            · rename_i r₄ hws
              have hrest := length_lt_of_ws hws
              rw [ih.members _ r₄ (by omega)]
            · rfl
            · rfl
        · rfl

/-- **Values are read to their end**: a larger bound gives the same result. -/
theorem val_eq_of_le {s : Bytes} {fuel : ℕ} (h : 3 * s.length + 1 ≤ fuel) :
    val fuel s = val (3 * s.length + 1) s := by
  induction fuel, h using Nat.le_induction with
  | base => rfl
  | succ fuel hle ih => rw [(enough fuel).val s hle, ih]

end Jp

/-- `jparse`: a whole text. -/
def jparse (s : Bytes) : Option J :=
  (Jp.val (3 * s.length + 1) s).bind fun p ↦ if Jp.ws p.2 = [] then some p.1 else none

end Shrt
