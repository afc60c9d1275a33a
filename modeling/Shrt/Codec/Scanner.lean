import Shrt.Codec.Basic

/-!
# The decoder as a byte automaton

`parse_op` is a loop over positions with five inner loops. Read one byte at a time it is an
automaton whose mode says which of the loops the position is in and whose second component is the
`Op` filled in so far. `parseOp_eq_scan` says that the two agree on every line.

The automaton is the form every later argument uses, because it composes: scanning `s ++ t` is
scanning `t` from where `s` left off. A torn line followed by a fresh one, or a line read from its
middle, is then a question about the mode at the seam.
-/

namespace Shrt

/-- Where in the loops of `parse_op` the position is. -/
inductive Mode where
  /-- Looking for the quote that opens a key. -/
  | out
  /-- Inside a key, with its first byte once that has been read. -/
  | key (k : Option UInt8)
  /-- After a key, looking for the colon. -/
  | sep (k : UInt8)
  /-- After the colon, skipping blanks. -/
  | val (k : UInt8)
  /-- Inside a string value: the raw bytes so far, whether a backslash was among them, and whether
  the next byte belongs to one. -/
  | str (k : UInt8) (raw : Bytes) (escapes skip : Bool)
  /-- Inside any other value. -/
  | num (k : UInt8) (text : Bytes)
  deriving DecidableEq

/-- The string a raw value stands for. -/
def strValue (raw : Bytes) (escapes : Bool) : Bytes := if escapes then unescape raw else raw

/-- The effect of one byte. -/
def Mode.step : Mode × Op → UInt8 → Mode × Op
  | (.out, o), b => if b = dquote then (.key none, o) else (.out, o)
  | (.key k, o), b => if b = dquote then (.sep (k.getD 0), o) else (.key (some (k.getD b)), o)
  | (.sep k, o), b => if b = colon then (.val k, o) else (.sep k, o)
  | (.val k, o), b =>
    if isBlank b then (.val k, o)
    else if b = dquote then (.str k [] false false, o)
    else if b = comma ∨ b = rbrace then (.out, o.setNum k [])
    else (.num k [b], o)
  | (.str k raw escapes skip, o), b =>
    if skip then (.str k (raw ++ [b]) escapes false, o)
    else if b = bslash then (.str k (raw ++ [b]) true true, o)
    else if b = dquote then (.out, o.setStr k (strValue raw escapes))
    else (.str k (raw ++ [b]) escapes false, o)
  | (.num k text, o), b =>
    if b = comma ∨ b = rbrace then (.out, o.setNum k text) else (.num k (text ++ [b]), o)

/-- The effect of a byte string. -/
def scan (q : Mode × Op) (bs : Bytes) : Mode × Op := bs.foldl Mode.step q

/-- What `parse_op` returns when the line ends. -/
def finish : Mode × Op → Option Op
  | (.out, o) => o.checked
  | (.key _, _) => none
  | (.sep _, _) => none
  | (.val _, _) => none
  | (.str k raw escapes _, o) => (o.setStr k (strValue raw escapes)).checked
  | (.num k text, o) => (o.setNum k text).checked

@[simp] theorem scan_nil (q : Mode × Op) : scan q [] = q := rfl

theorem scan_cons (q : Mode × Op) (b : UInt8) (bs : Bytes) :
    scan q (b :: bs) = scan (Mode.step q b) bs := rfl

theorem scan_append (q : Mode × Op) (s t : Bytes) : scan q (s ++ t) = scan (scan q s) t :=
  List.foldl_append

/-! ## The inner loops

One lemma for each loop: the automaton stays in the loop's mode as long as the loop does. -/

theorem scan_out_dropWhile (o : Op) (bs : Bytes) :
    scan (.out, o) bs = scan (.out, o) (bs.dropWhile (· ≠ dquote)) := by
  induction bs with
  | nil => rfl
  | cons b bs ih =>
    by_cases hb : b = dquote
    · simp [hb]
    · rw [scan_cons, Mode.step, if_neg hb, ih]
      simp [hb]

private theorem scan_key_some (k : UInt8) (o : Op) (bs : Bytes) :
    scan (.key (some k), o) bs = match bs.dropWhile (· ≠ dquote) with
      | [] => (.key (some k), o)
      | _ :: r => scan (.sep k, o) r := by
  induction bs with
  | nil => rfl
  | cons b bs ih =>
    by_cases hb : b = dquote
    · simp [hb, scan_cons, Mode.step]
    · rw [scan_cons, Mode.step, if_neg hb, Option.getD_some, ih]
      simp [hb]

theorem scan_key_none (o : Op) (bs : Bytes) :
    finish (scan (.key none, o) bs) = match bs.dropWhile (· ≠ dquote) with
      | [] => none
      | _ :: r => finish (scan (.sep ((bs.takeWhile (· ≠ dquote)).headD 0), o) r) := by
  cases bs with
  | nil => rfl
  | cons b bs =>
    by_cases hb : b = dquote
    · simp [hb, scan_cons, Mode.step]
    · rw [scan_cons, Mode.step, if_neg hb, Option.getD_none, scan_key_some]
      simp only [ne_eq, decide_not, List.dropWhile_cons, hb, decide_false, Bool.not_false, if_true,
        List.takeWhile_cons, List.headD_cons]
      cases bs.dropWhile fun x ↦ !decide (x = dquote) <;> rfl

theorem scan_sep (k : UInt8) (o : Op) (bs : Bytes) :
    scan (.sep k, o) bs = match bs.dropWhile (· ≠ colon) with
      | [] => (.sep k, o)
      | _ :: r => scan (.val k, o) r := by
  induction bs with
  | nil => rfl
  | cons b bs ih =>
    by_cases hb : b = colon
    · simp [hb, scan_cons, Mode.step]
    · rw [scan_cons, Mode.step, if_neg hb, ih]
      simp [hb]

theorem scan_val_dropWhile (k : UInt8) (o : Op) (bs : Bytes) :
    scan (.val k, o) bs = scan (.val k, o) (bs.dropWhile isBlank) := by
  induction bs with
  | nil => rfl
  | cons b bs ih =>
    by_cases hb : isBlank b = true
    · rw [scan_cons, Mode.step, if_pos hb, ih]
      simp [hb]
    · simp [hb]

theorem scanStr_bslash (e : UInt8) (r : Bytes) :
    scanStr (bslash :: e :: r) = (bslash :: e :: (scanStr r).1, true, (scanStr r).2.2) := by
  rw [scanStr, if_pos rfl]

theorem scanStr_dquote (r : Bytes) : scanStr (dquote :: r) = ([], false, r) := by
  rw [scanStr.eq_def]
  simp [dquote, bslash]

theorem scanStr_cons {b : UInt8} (hb : b ≠ bslash) (hq : b ≠ dquote) (r : Bytes) :
    scanStr (b :: r) = (b :: (scanStr r).1, (scanStr r).2.1, (scanStr r).2.2) := by
  rw [scanStr.eq_def]
  simp [hb, hq]

/-- The string loop, entered with some raw bytes already read. -/
theorem scan_str (k : UInt8) (o : Op) (bs : Bytes) : ∀ (raw : Bytes) (escapes : Bool),
    finish (scan (.str k raw escapes false, o) bs)
      = finish (scan (.out, o.setStr k (strValue (raw ++ (scanStr bs).1)
          (escapes || (scanStr bs).2.1))) (scanStr bs).2.2) := by
  -- The induction follows the loop, which steps over two bytes after a backslash.
  induction bs using scanStr.induct with
  | case1 => intro raw escapes; simp [scanStr, finish]
  | case2 => intro raw escapes; simp [scanStr, scan_cons, Mode.step, finish]
  | case3 e r ih =>
    intro raw escapes
    rw [scanStr_bslash, scan_cons, scan_cons]
    simp only [Mode.step, Bool.false_eq_true, if_false, if_true]
    rw [ih]
    simp
  | case4 r hb =>
    intro raw escapes
    rw [scanStr_dquote, scan_cons, Mode.step]
    simp [hb]
  | case5 b r hb hq ih =>
    intro raw escapes
    rw [scanStr_cons hb hq, scan_cons, Mode.step]
    simp only [hb, hq, Bool.false_eq_true, if_false, ih]
    simp

/-- The number loop, entered with some text already read. -/
theorem scan_num (k : UInt8) (o : Op) : ∀ (bs text : Bytes),
    finish (scan (.num k text, o) bs)
      = finish (scan (.out, o.setNum k (text ++ bs.takeWhile fun b ↦ b ≠ comma && b ≠ rbrace))
          (bs.dropWhile fun b ↦ b ≠ comma && b ≠ rbrace)) := by
  intro bs
  induction bs with
  | nil => intro text; simp [finish]
  | cons b bs ih =>
    intro text
    by_cases hb : b = comma ∨ b = rbrace
    · have hq : b ≠ dquote := by rcases hb with rfl | rfl <;> decide
      have hp : (decide (b ≠ comma) && decide (b ≠ rbrace)) = false := by
        rcases hb with rfl | rfl <;> decide
      rw [scan_cons, Mode.step, if_pos hb, List.takeWhile_cons, List.dropWhile_cons, hp]
      simp only [Bool.false_eq_true, if_false, List.append_nil]
      rw [scan_cons, Mode.step, if_neg hq]
    · have hp : (decide (b ≠ comma) && decide (b ≠ rbrace)) = true := by
        rw [not_or] at hb
        simp [hb.1, hb.2]
      rw [scan_cons, Mode.step, if_neg hb, ih, List.takeWhile_cons, List.dropWhile_cons, hp]
      simp

/-! ## One turn of the outer loop -/

theorem length_scanStr_le (bs : Bytes) : (scanStr bs).2.2.length ≤ bs.length := by
  induction bs using scanStr.induct with
  | case1 => simp [scanStr]
  | case2 => simp [scanStr]
  | case3 e r ih =>
    rw [scanStr_bslash]
    simp only [List.length_cons]
    omega
  | case4 r hb => simp [scanStr_dquote]
  | case5 b r hb hq ih =>
    rw [scanStr_cons hb hq]
    simp only [List.length_cons]
    omega

private theorem length_of_dropWhile {p : UInt8 → Bool} {bs r : Bytes} {q : UInt8}
    (h : bs.dropWhile p = q :: r) : r.length < bs.length := by
  have hle := (List.dropWhile_suffix p (l := bs)).length_le
  rw [h, List.length_cons] at hle
  omega

/-- A turn that goes on consumes at least one byte. -/
theorem length_of_scanField {b rest : Bytes} {k : UInt8} {v : Value}
    (h : scanField b = .field k v rest) : rest.length < b.length := by
  rw [scanField] at h
  split at h
  · exact absurd h (by simp)
  · rename_i h₁
    split at h
    · exact absurd h (by simp)
    · rename_i h₂
      simp only at h
      split at h
      · exact absurd h (by simp)
      · rename_i h₃
        split at h
        · exact absurd h (by simp)
        · rename_i q r₃ h₄
          have h₁ := length_of_dropWhile h₁
          have h₂ := length_of_dropWhile h₂
          have h₃ := length_of_dropWhile h₃
          have h₄' := length_of_dropWhile h₄
          split at h
          · injection h with _ _ hrest
            have := length_scanStr_le r₃
            rw [← hrest]
            omega
          · injection h with _ _ hrest
            have := (List.dropWhile_suffix (fun b ↦ decide (b ≠ comma) && decide (b ≠ rbrace))
              (l := q :: r₃)).length_le
            rw [← hrest]
            rw [List.length_cons] at this
            omega

/-- One turn of the loop is what the automaton does up to the end of the field. -/
theorem finish_scan_out (o : Op) (b : Bytes) :
    finish (scan (.out, o) b) = match scanField b with
      | .done => o.checked
      | .bad => none
      | .field k v rest => finish (scan (.out, o.set k v) rest) := by
  rw [scanField, scan_out_dropWhile]
  cases hq : b.dropWhile (· ≠ dquote) with
  | nil => rfl
  | cons q r =>
    have hqd : q = dquote := by
      have := List.head?_dropWhile_not (· ≠ dquote) b
      rw [hq] at this
      simpa using this
    rw [scan_cons, Mode.step, if_pos hqd, scan_key_none]
    simp only
    cases r.dropWhile (· ≠ dquote) with
    | nil => rfl
    | cons q₁ r₁ =>
      simp only
      rw [scan_sep]
      cases r₁.dropWhile (· ≠ colon) with
      | nil => rfl
      | cons q₂ r₂ =>
        simp only
        rw [scan_val_dropWhile]
        cases hv : r₂.dropWhile isBlank with
        | nil => rfl
        | cons q₃ r₃ =>
          have hnb : isBlank q₃ = false := by
            have := List.head?_dropWhile_not isBlank r₂
            rw [hv] at this
            simpa using this
          simp only
          rw [scan_cons, Mode.step]
          simp only [hnb, Bool.false_eq_true, if_false]
          by_cases hd : q₃ = dquote
          · rw [if_pos hd, if_pos hd, scan_str]
            simp [Op.set, strValue]
          · rw [if_neg hd, if_neg hd]
            split_ifs with hc
            · have hp : (decide (q₃ ≠ comma) && decide (q₃ ≠ rbrace)) = false := by
                rcases hc with rfl | rfl <;> decide
              rw [List.takeWhile_cons, List.dropWhile_cons, hp]
              simp only [Bool.false_eq_true, if_false, Op.set]
              rw [scan_cons, Mode.step, if_neg hd]
            · have hp : (decide (q₃ ≠ comma) && decide (q₃ ≠ rbrace)) = true := by
                rw [not_or] at hc
                simp [hc.1, hc.2]
              rw [scan_num, List.takeWhile_cons, List.dropWhile_cons, hp]
              simp [Op.set]

theorem parseLoop_eq_scan : ∀ (fuel : ℕ) (b : Bytes) (o : Op), b.length < fuel →
    parseLoop fuel b o = finish (scan (.out, o) b) := by
  intro fuel
  induction fuel with
  | zero => intro b o h; omega
  | succ fuel ih =>
    intro b o h
    rw [parseLoop, finish_scan_out]
    cases hs : scanField b with
    | done => rfl
    | bad => rfl
    | field k v rest =>
      have := length_of_scanField hs
      exact ih rest _ (by omega)

/-- **The decoder is the automaton.** -/
theorem parseOp_eq_scan (line : Bytes) : parseOp line = finish (scan (.out, {}) line) :=
  parseLoop_eq_scan _ _ _ (Nat.lt_succ_self _)

end Shrt
