import Shrt.Codec.Scanner
import Shrt.Lib.Cursor

/-!
# The decoder with positions

In the source `parse_op` and `unescape` move positions over the line, by one, two or six at a time,
and a position may step over the end behind a backslash before it is used as the end of a slice. The
definitions here keep the positions, and every access that could go wrong is one that can fault:
reading a byte, taking a slice, and taking another turn of a loop, of which each loop is given one
more than there are bytes.

None of them faults, whatever the bytes (`parseOp_safe`): the decoder ends, reads and slices in
range, and returns what the decoder on suffixes returns. A position is tied to the other decoder by
the suffix that begins there.
-/

namespace Shrt

open Cursor (Fault get substr skipWhile)

/-! ## Unescaping -/

/-- The loop of `unescape`, at position `i` with the output so far. -/
def unescapeLoop (b : Bytes) : ℕ → ℕ → Bytes → Except Fault Bytes
  | 0, _, _ => .error .turns
  | turns + 1, i, out =>
    if i < b.length then do
      let c ← get b i
      if c ≠ bslash ∨ b.length ≤ i + 1 then unescapeLoop b turns (i + 1) (out ++ [c])
      else do
        let e ← get b (i + 1)
        if e = key 'n' then unescapeLoop b turns (i + 2) (out ++ [10])
        else if e = key 'r' then unescapeLoop b turns (i + 2) (out ++ [13])
        else if e = key 't' then unescapeLoop b turns (i + 2) (out ++ [9])
        else if e = key 'u' then
          if i + 5 < b.length then do
            let digits ← substr b (i + 2) 4
            unescapeLoop b turns (i + 6) (out ++ utf8Of (strtoul16 digits).toUInt32)
          else unescapeLoop b turns (i + 2) out
        else unescapeLoop b turns (i + 2) (out ++ [e])
    else pure out

/-- `unescape`. -/
def unescapeAt (b : Bytes) : Except Fault Bytes := unescapeLoop b (b.length + 1) 0 []

/-! ## The loops of the scanner -/

/-- The string loop: the position where it ends, and whether it has met a backslash. -/
def strLoop (b : Bytes) : ℕ → ℕ → Bool → Except Fault (ℕ × Bool)
  | 0, _, _ => .error .turns
  | turns + 1, pos, escapes =>
    if pos < b.length then do
      let c ← get b pos
      if c = bslash then strLoop b turns (pos + 2) true
      else if c = dquote then pure (pos, escapes)
      else strLoop b turns (pos + 1) escapes
    else pure (pos, escapes)

/-- The loop that takes the blanks off the end of a number. -/
def trimLoop : ℕ → Bytes → Except Fault Bytes
  | 0, _ => .error .turns
  | turns + 1, num =>
    if num ≠ [] then do
      if isBlank (← get num (num.length - 1)) then trimLoop turns num.dropLast else pure num
    else pure num

/-- What one turn of the outer loop finds, and where it leaves the position. -/
inductive Turn where
  | done
  | bad
  | field (k : UInt8) (v : Value) (pos : ℕ)

/-- The string that a raw value stands for. -/
def strValueAt (raw : Bytes) (escapes : Bool) : Except Fault Bytes :=
  if escapes then unescapeAt raw else pure raw

/-- The key between two quotes, which may be empty. -/
def keyAt (b : Bytes) (ks pos : ℕ) : Except Fault UInt8 := if ks < pos then get b ks else pure 0

/-- The value of a field, from the position of its first byte, and where it ends. -/
def valueAt (b : Bytes) (pos : ℕ) : Except Fault (Value × ℕ) := do
  let c ← get b pos
  if c = dquote then do
    let vs := pos + 1
    let (pos, escapes) ← strLoop b (b.length + 1) vs false
    let raw ← substr b vs (pos - vs)
    let s ← strValueAt raw escapes
    pure (.str s, pos + 1)
  else do
    let vs := pos
    let pos ← skipWhile (fun b ↦ b ≠ comma && b ≠ rbrace) b (b.length + 1) vs
    let num ← substr b vs (pos - vs)
    let num ← trimLoop (num.length + 1) num
    pure (.num num, pos)

/-- One turn of the outer loop of `parse_op`. -/
def turnAt (b : Bytes) (pos : ℕ) : Except Fault Turn := do
  let pos ← skipWhile (· ≠ dquote) b (b.length + 1) pos
  if b.length ≤ pos then pure .done
  else do
    let ks := pos + 1
    let pos ← skipWhile (· ≠ dquote) b (b.length + 1) ks
    if b.length ≤ pos then pure .bad
    else do
      let k ← keyAt b ks pos
      let pos ← skipWhile (· ≠ colon) b (b.length + 1) (pos + 1)
      if b.length ≤ pos then pure .bad
      else do
        let pos ← skipWhile isBlank b (b.length + 1) (pos + 1)
        if b.length ≤ pos then pure .bad
        else do
          let (v, pos) ← valueAt b pos
          pure (.field k v pos)

/-- The outer loop of `parse_op`. -/
def parseLoopAt (b : Bytes) : ℕ → ℕ → Op → Except Fault (Option Op)
  | 0, _, _ => .error .turns
  | turns + 1, pos, o =>
    if pos < b.length then do
      match ← turnAt b pos with
      | .done => pure o.checked
      | .bad => pure none
      | .field k v pos => parseLoopAt b turns pos (o.set k v)
    else pure o.checked

/-- `parse_op`. -/
def parseOpAt (line : Bytes) : Except Fault (Option Op) := parseLoopAt line (line.length + 1) 0 {}

/-! ## No loop faults -/

theorem unescape_cons_of_ne {c : UInt8} (hc : c ≠ bslash) (r : Bytes) :
    unescape (c :: r) = c :: unescape r := by
  rw [unescape.eq_def]
  simp only [if_pos hc]

theorem unescape_u (h₁ h₂ h₃ h₄ : UInt8) (r : Bytes) :
    unescape (bslash :: key 'u' :: h₁ :: h₂ :: h₃ :: h₄ :: r)
      = utf8Of (strtoul16 [h₁, h₂, h₃, h₄]).toUInt32 ++ unescape r := by
  rw [unescape.eq_def]
  rfl

/-- The escape of a code point with too few digits is dropped. -/
theorem unescape_u_short {r : Bytes} (hr : r.length < 4) :
    unescape (bslash :: key 'u' :: r) = unescape r := by
  rw [unescape.eq_def]
  match r, hr with
  | [], _ => rfl
  | [_], _ => rfl
  | [_, _], _ => rfl
  | [_, _, _], _ => rfl
  | _ :: _ :: _ :: _ :: _, hr => exact absurd hr (by simp)

/-- The other escapes stand for one byte. -/
theorem unescape_pair {e : UInt8} (hu : e ≠ key 'u') (r : Bytes) :
    unescape (bslash :: e :: r) = (if e = key 'n' then 10 else if e = key 'r' then 13
      else if e = key 't' then 9 else e) :: unescape r := by
  rw [unescape.eq_def]
  simp only [ne_eq, not_true_eq_false, if_false, if_neg hu]
  split_ifs
  · rfl
  · rfl
  · rfl
  · rfl

theorem exists_four {r : Bytes} (hr : 4 ≤ r.length) :
    ∃ h₁ h₂ h₃ h₄ r', r = h₁ :: h₂ :: h₃ :: h₄ :: r' := by
  match r, hr with
  | h₁ :: h₂ :: h₃ :: h₄ :: r', _ => exact ⟨h₁, h₂, h₃, h₄, r', rfl⟩

theorem unescapeLoop_eq (b : Bytes) : ∀ (turns i : ℕ) (out : Bytes), b.length - i < turns →
    unescapeLoop b turns i out = .ok (out ++ unescape (b.drop i)) := by
  intro turns
  induction turns with
  | zero =>
    intro i out h
    exact absurd h (Nat.not_lt_zero _)
  | succ turns ih =>
    intro i out h
    rw [unescapeLoop]
    cases hd : b.drop i with
    | nil =>
      rw [if_neg (not_lt.mpr (Cursor.length_le_iff.mpr hd)), unescape, List.append_nil]
      rfl
    | cons c r =>
      have hlt := Cursor.lt_length_of_drop hd
      have hr := Cursor.drop_succ_of_drop hd
      have hlen : r.length = b.length - (i + 1) := by rw [← hr, List.length_drop]
      rw [if_pos hlt, Cursor.get_of_drop hd]
      show (if c ≠ bslash ∨ b.length ≤ i + 1 then _ else _) = _
      by_cases hc : c = bslash
      · subst hc
        cases r with
        | nil =>
          have hend : b.length ≤ i + 1 := Cursor.length_le_iff.mpr hr
          rw [if_pos (.inr hend), ih _ _ (by omega), hr, unescape.eq_def]
          simp [unescape]
        | cons e r =>
          have hnext := Cursor.lt_length_of_drop hr
          have hr₂ : b.drop (i + 2) = r := Cursor.drop_succ_of_drop hr
          rw [List.length_cons] at hlen
          rw [if_neg (by simp [hnext]), Cursor.get_of_drop hr]
          show (if e = key 'n' then _ else _) = _
          by_cases hu : e = key 'u'
          · subst hu
            rw [if_neg (by decide), if_neg (by decide), if_neg (by decide), if_pos rfl]
            by_cases hfour : i + 5 < b.length
            · obtain ⟨h₁, h₂, h₃, h₄, r', rfl⟩ := exists_four (by omega : 4 ≤ r.length)
              have hrest : b.drop (i + 6) = r' := by
                rw [show i + 6 = i + 2 + 4 from rfl, ← List.drop_drop, hr₂]
                rfl
              rw [if_pos hfour, Cursor.substr_of_le (by omega), hr₂, unescape_u,
                ← List.append_assoc]
              exact (ih _ _ (by omega)).trans (by rw [hrest]; rfl)
            · rw [if_neg hfour, ih _ _ (by omega), hr₂, unescape_u_short (by omega)]
          · rw [unescape_pair hu, if_neg hu]
            split_ifs
            all_goals rw [ih _ _ (by omega), hr₂, List.append_assoc, List.singleton_append]
      · rw [if_pos (.inl hc), ih _ _ (by omega), hr, unescape_cons_of_ne hc, List.append_assoc,
          List.singleton_append]

theorem unescapeAt_eq (b : Bytes) : unescapeAt b = .ok (unescape b) := by
  rw [unescapeAt, unescapeLoop_eq b _ _ _ (by omega), List.nil_append, List.drop_zero]

/-- The raw value of a string stands from `pos` to `stop`, and behind its closing quote is the rest.
-/
structure StrAt (b : Bytes) (pos stop : ℕ) (raw rest : Bytes) : Prop where
  le : pos ≤ stop
  raw_eq : (b.drop pos).take (stop - pos) = raw
  rest_eq : b.drop (stop + 1) = rest

/-- One more byte in front. -/
theorem StrAt.cons {b raw rest r : Bytes} {pos stop : ℕ} {c : UInt8}
    (h : StrAt b (pos + 1) stop raw rest) (hd : b.drop pos = c :: r) :
    StrAt b pos stop (c :: raw) rest := by
  have hle := h.le
  have hraw := h.raw_eq
  rw [Cursor.drop_succ_of_drop hd] at hraw
  refine ⟨by omega, ?_, h.rest_eq⟩
  rw [hd, show stop - pos = (stop - (pos + 1)) + 1 by omega, List.take_succ_cons, hraw]

theorem strLoop_spec (b : Bytes) : ∀ (turns pos : ℕ) (escapes : Bool), b.length - pos < turns →
    ∃ stop, strLoop b turns pos escapes = .ok (stop, escapes || (scanStr (b.drop pos)).2.1) ∧
      StrAt b pos stop (scanStr (b.drop pos)).1 (scanStr (b.drop pos)).2.2 := by
  intro turns
  induction turns with
  | zero =>
    intro pos escapes h
    exact absurd h (Nat.not_lt_zero _)
  | succ turns ih =>
    intro pos escapes h
    rw [strLoop]
    cases hd : b.drop pos with
    | nil =>
      have hle := Cursor.length_le_iff.mpr hd
      rw [if_neg (not_lt.mpr hle), scanStr, Bool.or_false]
      refine ⟨pos, rfl, le_rfl, ?_, List.drop_eq_nil_of_le (by omega)⟩
      rw [hd, List.take_nil]
    | cons c r =>
      have hlt := Cursor.lt_length_of_drop hd
      have hr := Cursor.drop_succ_of_drop hd
      rw [if_pos hlt, Cursor.get_of_drop hd]
      by_cases hc : c = bslash
      · subst hc
        obtain ⟨stop, hstop, hat⟩ := ih (pos + 2) true (by omega)
        rw [Bool.true_or] at hstop
        cases r with
        | nil =>
          -- The position steps over the end.
          have hpast : b.length ≤ stop + 1 :=
            (Cursor.length_le_iff.mpr hr).trans (by have := hat.le; omega)
          have hend : StrAt b (pos + 1) stop [] [] := by
            refine ⟨by have := hat.le; omega, ?_, List.drop_eq_nil_of_le hpast⟩
            rw [hr, List.take_nil]
          rw [scanStr, if_pos rfl, Bool.or_true]
          exact ⟨stop, hstop, hend.cons hd⟩
        | cons e r =>
          rw [Cursor.drop_succ_of_drop hr] at hat
          rw [scanStr_bslash, Bool.or_true]
          exact ⟨stop, hstop, (hat.cons hr).cons hd⟩
      · by_cases hq : c = dquote
        · subst hq
          rw [scanStr_dquote, Bool.or_false]
          refine ⟨pos, rfl, le_rfl, ?_, hr⟩
          rw [Nat.sub_self, List.take_zero]
        · obtain ⟨stop, hstop, hat⟩ := ih (pos + 1) escapes (by omega)
          rw [hr] at hstop hat
          rw [scanStr_cons hc hq]
          exact ⟨stop, (if_neg hc).trans ((if_neg hq).trans hstop), hat.cons hd⟩

theorem trimNum_concat (num : Bytes) (x : UInt8) :
    Op.trimNum (num ++ [x]) = if isBlank x then Op.trimNum num else num ++ [x] := by
  rw [Op.trimNum, List.reverse_append, List.reverse_singleton, List.singleton_append,
    List.dropWhile_cons]
  split_ifs
  · rfl
  · simp

theorem trimLoop_eq : ∀ (turns : ℕ) (num : Bytes), num.length < turns →
    trimLoop turns num = .ok (Op.trimNum num) := by
  intro turns
  induction turns with
  | zero =>
    intro num h
    exact absurd h (Nat.not_lt_zero _)
  | succ turns ih =>
    intro num h
    rw [trimLoop]
    rcases List.eq_nil_or_concat' num with rfl | ⟨l, x, rfl⟩
    · rfl
    · have hlast : (l ++ [x]).drop ((l ++ [x]).length - 1) = [x] := by
        rw [List.length_append, List.length_singleton, Nat.add_sub_cancel, List.drop_left]
      rw [List.length_append, List.length_singleton] at h
      rw [if_pos (by simp), Cursor.get_of_drop hlast, trimNum_concat, List.dropLast_concat]
      by_cases hx : isBlank x = true
      · rw [if_pos hx]
        exact (if_pos hx).trans (ih l (by omega))
      · rw [if_neg hx]
        exact if_neg hx

theorem setNum_trimNum (o : Op) (k : UInt8) (num : Bytes) :
    o.setNum k (Op.trimNum num) = o.setNum k num := by
  have htwice : Op.trimNum (Op.trimNum num) = Op.trimNum num := by
    rw [Op.trimNum, Op.trimNum, List.reverse_reverse, List.dropWhile_idempotent]
  rw [Op.setNum, htwice, Op.setNum]

/-! ## No turn faults -/

section Turns

variable {b r : Bytes} {pos : ℕ} {q : UInt8}

theorem strValueAt_eq (raw : Bytes) (escapes : Bool) :
    strValueAt raw escapes = .ok (strValue raw escapes) := by
  rw [strValueAt, strValue]
  split_ifs
  · exact unescapeAt_eq raw
  · rfl

theorem valueAt_str (hd : b.drop pos = dquote :: r) : ∃ stop, b.drop stop = (scanStr r).2.2 ∧
    valueAt b pos = .ok (.str (strValue (scanStr r).1 (scanStr r).2.1), stop) := by
  have hlt := Cursor.lt_length_of_drop hd
  obtain ⟨stop, hstop, hat⟩ := strLoop_spec b (b.length + 1) (pos + 1) false (by omega)
  have htake := hat.raw_eq
  rw [Cursor.drop_succ_of_drop hd] at hstop hat htake
  have hraw : substr b (pos + 1) (stop - (pos + 1)) = .ok (scanStr r).1 := by
    rw [Cursor.substr_of_le hlt, Cursor.drop_succ_of_drop hd, htake]
  refine ⟨stop + 1, hat.rest_eq, ?_⟩
  rw [valueAt, Cursor.get_of_drop hd, Cursor.ok_bind, if_pos rfl]
  simp only [hstop, Cursor.ok_bind, hraw, strValueAt_eq, Bool.false_or]
  rfl

theorem valueAt_num (hd : b.drop pos = q :: r) (hq : q ≠ dquote) :
    ∃ stop, b.drop stop = (q :: r).dropWhile (fun b ↦ b ≠ comma && b ≠ rbrace) ∧
      valueAt b pos = .ok
        (.num (Op.trimNum ((q :: r).takeWhile fun b ↦ b ≠ comma && b ≠ rbrace)), stop) := by
  have hlt := Cursor.lt_length_of_drop hd
  obtain ⟨stop, hstop, -, hrest, htake⟩ :=
    Cursor.skipWhile_spec (fun b ↦ b ≠ comma && b ≠ rbrace) b (b.length + 1) pos (by omega)
  rw [hd] at hrest htake
  have hnum : substr b pos (stop - pos)
      = .ok ((q :: r).takeWhile fun b ↦ b ≠ comma && b ≠ rbrace) := by
    rw [Cursor.substr_of_le hlt.le, hd, htake]
  refine ⟨stop, hrest, ?_⟩
  rw [valueAt, Cursor.get_of_drop hd, Cursor.ok_bind, if_neg hq]
  simp only [hstop, Cursor.ok_bind, hnum, trimLoop_eq _ _ (Nat.lt_succ_self _)]
  rfl

/-- The key is the first byte between the quotes, or zero if there is none. -/
theorem keyAt_eq {ks : ℕ} (hle : ks ≤ pos) (hpos : pos < b.length)
    (ht : (b.drop ks).take (pos - ks) = (b.drop ks).takeWhile (· ≠ dquote)) :
    keyAt b ks pos = .ok (((b.drop ks).takeWhile (· ≠ dquote)).headD 0) := by
  rw [keyAt, ← ht]
  rcases hle.eq_or_lt with rfl | hlt
  · rw [if_neg (lt_irrefl _), Nat.sub_self, List.take_zero]
    rfl
  · rw [if_pos hlt]
    cases hd : b.drop ks with
    | nil => exact absurd (Cursor.length_le_iff.mpr hd) (not_le.mpr (hlt.trans hpos))
    | cons c r =>
      obtain ⟨n, hn⟩ : ∃ n, pos - ks = n + 1 := ⟨pos - ks - 1, by omega⟩
      rw [Cursor.get_of_drop hd, hn, List.take_succ_cons]
      rfl

/-- A turn of the loop with positions finds what the turn on the suffix finds. -/
def Turn.Agrees (b : Bytes) : Turn → Scan → Prop
  | .done, .done => True
  | .bad, .bad => True
  | .field k v pos, .field k' v' rest =>
    k = k' ∧ (∀ o : Op, o.set k v = o.set k v') ∧ b.drop pos = rest
  | _, _ => False

/-- **One turn.** -/
theorem turnAt_spec (b : Bytes) (pos : ℕ) :
    ∃ t, turnAt b pos = .ok t ∧ t.Agrees b (scanField (b.drop pos)) := by
  have hskip := fun p pos ↦ Cursor.skipWhile_spec p b (b.length + 1) pos (by omega)
  obtain ⟨p₁, h₁, -, hd₁, -⟩ := hskip (· ≠ dquote) pos
  rw [turnAt, h₁, Cursor.ok_bind, scanField, ← hd₁]
  cases hb₁ : b.drop p₁ with
  | nil => exact ⟨.done, if_pos (Cursor.length_le_iff.mpr hb₁), trivial⟩
  | cons q₁ r₁ =>
    have hks := Cursor.drop_succ_of_drop hb₁
    obtain ⟨p₂, h₂, hle₂, hd₂, ht₂⟩ := hskip (· ≠ dquote) (p₁ + 1)
    rw [hks] at hd₂
    simp only [if_neg (not_le.mpr (Cursor.lt_length_of_drop hb₁)), h₂, Cursor.ok_bind, ← hd₂]
    cases hb₂ : b.drop p₂ with
    | nil => exact ⟨.bad, if_pos (Cursor.length_le_iff.mpr hb₂), trivial⟩
    | cons q₂ r₂ =>
      have hkey := keyAt_eq hle₂ (Cursor.lt_length_of_drop hb₂) ht₂
      rw [hks] at hkey
      obtain ⟨p₃, h₃, -, hd₃, -⟩ := hskip (· ≠ colon) (p₂ + 1)
      rw [Cursor.drop_succ_of_drop hb₂] at hd₃
      simp only [if_neg (not_le.mpr (Cursor.lt_length_of_drop hb₂)), hkey, h₃, Cursor.ok_bind, ← hd₃]
      cases hb₃ : b.drop p₃ with
      | nil => exact ⟨.bad, if_pos (Cursor.length_le_iff.mpr hb₃), trivial⟩
      | cons q₃ r₃ =>
        obtain ⟨p₄, h₄, -, hd₄, -⟩ := hskip isBlank (p₃ + 1)
        rw [Cursor.drop_succ_of_drop hb₃] at hd₄
        simp only [if_neg (not_le.mpr (Cursor.lt_length_of_drop hb₃)), h₄, Cursor.ok_bind, ← hd₄]
        cases hb₄ : b.drop p₄ with
        | nil => exact ⟨.bad, if_pos (Cursor.length_le_iff.mpr hb₄), trivial⟩
        | cons q₄ r₄ =>
          simp only [if_neg (not_le.mpr (Cursor.lt_length_of_drop hb₄))]
          by_cases hq : q₄ = dquote
          · subst hq
            obtain ⟨stop, hrest, hval⟩ := valueAt_str hb₄
            rw [hval, Cursor.ok_bind, if_pos rfl]
            exact ⟨_, rfl, rfl, fun _ ↦ rfl, hrest⟩
          · obtain ⟨stop, hrest, hval⟩ := valueAt_num hb₄ hq
            rw [hval, Cursor.ok_bind, if_neg hq]
            exact ⟨_, rfl, rfl, fun o ↦ setNum_trimNum o _ _, hrest⟩

end Turns

/-! ## No line faults -/

theorem parseLoopAt_eq (b : Bytes) : ∀ (turns pos : ℕ) (o : Op), b.length - pos < turns →
    parseLoopAt b turns pos o = .ok (parseLoop turns (b.drop pos) o) := by
  intro turns
  induction turns with
  | zero =>
    intro pos o h
    exact absurd h (Nat.not_lt_zero _)
  | succ turns ih =>
    intro pos o h
    obtain ⟨t, hturn, hagrees⟩ := turnAt_spec b pos
    rw [parseLoopAt, parseLoop]
    by_cases hpos : pos < b.length
    · rw [if_pos hpos, hturn, Cursor.ok_bind]
      cases hs : scanField (b.drop pos) with
      | done =>
        rw [hs] at hagrees
        cases t with
        | done => rfl
        | bad | field => exact hagrees.elim
      | bad =>
        rw [hs] at hagrees
        cases t with
        | bad => rfl
        | done | field => exact hagrees.elim
      | field k v rest =>
        rw [hs] at hagrees
        cases t with
        | done | bad => exact hagrees.elim
        | field k' v' pos' =>
          obtain ⟨rfl, hset, hrest⟩ := hagrees
          -- The turn has consumed at least one byte.
          have hless := length_of_scanField hs
          rw [← hrest, List.length_drop, List.length_drop] at hless
          simp only
          rw [ih pos' _ (by omega), hset, hrest]
    · have hnil : b.drop pos = [] := List.drop_eq_nil_of_le (not_lt.mp hpos)
      rw [if_neg hpos, hnil]
      rfl

/-- **The decoder is safe on garbage.** On every byte string `parse_op` and `unescape` end, read
bytes only at positions below the length and slice only from positions not beyond it, and they
return what the decoder on suffixes returns. -/
theorem parseOp_safe (line : Bytes) :
    parseOpAt line = .ok (parseOp line) ∧ unescapeAt line = .ok (unescape line) := by
  refine ⟨?_, unescapeAt_eq line⟩
  rw [parseOpAt, parseLoopAt_eq line _ _ _ (by omega), List.drop_zero, parseOp]

end Shrt
