import Shrt.Codec.Scanner
import Shrt.Lib.Framing

/-!
# Log lines read back

A `LogOp` is an operation the store can write: a row, a hit delta or a tombstone, for a code that
passes `code_ok`. Its line parses to the operation again, whatever the url and the numbers
(`parseOp_line`), and holds no newline (`record_line`), so a log of such lines is framed by
newlines and `replay_file` reads it back, torn tail included (`replayOps_logText_take`).

The escaping of urls is what carries this. Every quote of an escaped url follows a backslash and
every backslash opens a pair, so the string loop of the scanner leaves an escaped url exactly at
the quote that closes it (`scan_esc`).
-/

namespace Shrt

/-! ## Codes -/

/-- The bytes `code_ok` admits: `isalnum` in the C locale, the underscore and the hyphen. -/
def codeByte (b : UInt8) : Bool :=
  (48 ≤ b && b ≤ 57) || (65 ≤ b && b ≤ 90) || (97 ≤ b && b ≤ 122) || b = 95 || b = 45

/-- `code_ok`. -/
def codeOk (s : Bytes) : Bool := !s.isEmpty && s.length ≤ 64 && s.all codeByte

/-- A code the HTTP layer admits. -/
abbrev Code := { s : Bytes // codeOk s = true }

/-- The code of most runs below. -/
theorem codeOk_a : codeOk (lit "a") = true := by decide

theorem Code.ne_nil (c : Code) : c.1 ≠ [] := by
  intro h
  have := c.2
  rw [h] at this
  exact absurd this (by decide)

theorem codeByte_of_mem {s : Bytes} (hs : codeOk s = true) {b : UInt8} (hb : b ∈ s) :
    codeByte b = true := by
  simp only [codeOk, Bool.and_eq_true, List.all_eq_true] at hs
  exact hs.2 b hb

/-- No byte of a code means anything to the scanner or to the line splitter. -/
theorem Code.ne_of_mem (c : Code) {b x : UInt8} (hb : b ∈ c.1) (hx : codeByte x = false) :
    b ≠ x := by
  rintro rfl
  rw [codeByte_of_mem c.2 hb] at hx
  exact absurd hx (by decide)

/-! ## Operations the store writes -/

/-- An operation of the log. -/
inductive LogOp where
  | row (c : Code) (u : Bytes) (a e i n : Int64)
  | hit (c : Code) (d i : Int64)
  | del (c : Code)
  deriving DecidableEq

namespace LogOp

/-- The code an operation is about. -/
def code : LogOp → Code
  | row c .. => c
  | hit c .. => c
  | del c => c

/-- The line the store appends for an operation. -/
def line : LogOp → Bytes
  | row c u a e i n => rowLine c.1 u a e i n
  | hit c d i => hitLine c.1 d i
  | del c => delLine c.1

/-- What `parse_op` should make of the line: every field equal, `has_e` true iff `e ≠ 0`. -/
def toOp : LogOp → Op
  | row c u a e i n => { c := c.1, u, a, e, i, n, hasE := e ≠ 0 }
  | hit c d i => { h := c.1, d, i }
  | del c => { x := c.1 }

end LogOp

/-- The log of a list of operations: each line followed by a newline. -/
def logText (ops : List LogOp) : Bytes := Framing.frame NL (ops.map LogOp.line)

/-- The lines `replay_file` hands to its callback. -/
def replayFile (content : Bytes) : List Bytes := (Framing.cut NL [] content).1

/-- The operations that reach the index: the lines for which `parse_op` returns true. -/
def replayOps (content : Bytes) : List Op := (replayFile content).filterMap parseOp

/-! ## Escaped urls -/

private theorem utf8Of_control : ∀ b : Fin 32,
    utf8Of (strtoul16 [48, 48, hexDigit (UInt8.ofNat b / 16), hexDigit (UInt8.ofNat b % 16)]).toUInt32
      = [UInt8.ofNat b] := by
  decide

private theorem hexDigit_control : ∀ b : Fin 32,
    hexDigit (UInt8.ofNat b / 16) ∉ [dquote, bslash, NL] ∧
      hexDigit (UInt8.ofNat b % 16) ∉ [dquote, bslash, NL] := by
  decide

/-- The three shapes an escaped byte can have. -/
inductive EscShape (b : UInt8) : Bytes → Prop
  /-- The byte itself. -/
  | plain (hq : b ≠ dquote) (hb : b ≠ bslash) (hn : b ≠ NL) : EscShape b [b]
  /-- A backslash and one byte. -/
  | pair (e : UInt8) (hu : e ≠ key 'u') (hn : e ≠ NL)
      (hval : ∀ r, unescape (bslash :: e :: r) = b :: unescape r) : EscShape b [bslash, e]
  /-- A control byte, as a four-digit escape. -/
  | control (h h' : UInt8) (hh : h ∉ [dquote, bslash, NL]) (hh' : h' ∉ [dquote, bslash, NL])
      (hval : utf8Of (strtoul16 [48, 48, h, h']).toUInt32 = [b]) :
      EscShape b [bslash, key 'u', 48, 48, h, h']

theorem escByte_shape (b : UInt8) : EscShape b (escByte b) := by
  rw [escByte]
  split_ifs with hq hb hn hr ht hc
  · exact .pair dquote (by decide) (by decide) fun r ↦ by rw [hq, unescape.eq_def]; rfl
  · exact .pair bslash (by decide) (by decide) fun r ↦ by rw [hb, unescape.eq_def]; rfl
  · exact .pair (key 'n') (by decide) (by decide) fun r ↦ by rw [hn, unescape.eq_def]; rfl
  · exact .pair (key 'r') (by decide) (by decide) fun r ↦ by rw [hr, unescape.eq_def]; rfl
  · exact .pair (key 't') (by decide) (by decide) fun r ↦ by rw [ht, unescape.eq_def]; rfl
  · have hlt : b.toNat < 32 := by simpa [UInt8.lt_iff_toNat_lt] using hc
    have hval := utf8Of_control ⟨b.toNat, hlt⟩
    have hhex := hexDigit_control ⟨b.toNat, hlt⟩
    simp only [UInt8.ofNat_toNat] at hval hhex
    exact .control _ _ hhex.1 hhex.2 hval
  · exact .plain hq hb hn

theorem esc_cons (b : UInt8) (s : Bytes) : esc (b :: s) = escByte b ++ esc s := List.flatMap_cons

theorem NL_notMem_escByte (b : UInt8) : NL ∉ escByte b := by
  have hshape := escByte_shape b
  generalize escByte b = es at hshape ⊢
  cases hshape with
  | plain hq hb hn => simpa using Ne.symm hn
  | pair e hu hn hval => simpa using ⟨by decide, Ne.symm hn⟩
  | control h h' hh hh' hval =>
    simp only [List.mem_cons, List.not_mem_nil, or_false, not_or] at hh hh' ⊢
    exact ⟨by decide, by decide, by decide, by decide, Ne.symm hh.2.2, Ne.symm hh'.2.2⟩

theorem NL_notMem_esc (s : Bytes) : NL ∉ esc s := by
  rw [esc, List.mem_flatMap]
  rintro ⟨b, -, hb⟩
  exact NL_notMem_escByte b hb

/-- **Unescaping undoes escaping.** -/
theorem unescape_esc (s : Bytes) : unescape (esc s) = s := by
  induction s with
  | nil => rfl
  | cons b s ih =>
    have hshape := escByte_shape b
    rw [esc_cons]
    generalize escByte b = es at hshape ⊢
    cases hshape with
    | plain hq hb hn =>
      rw [List.singleton_append, unescape.eq_def]
      simp [hb, ih]
    | pair e hu hn hval => rw [List.cons_append, List.singleton_append, hval, ih]
    | control h h' hh hh' hval =>
      have hu : unescape ([bslash, key 'u', 48, 48, h, h'] ++ esc s)
          = utf8Of (strtoul16 [48, 48, h, h']).toUInt32 ++ unescape (esc s) := by
        rw [unescape.eq_def]
        rfl
      rw [hu, hval, ih, List.singleton_append]

/-- An escaped url without a backslash is the url. -/
theorem esc_of_bslash_notMem {s : Bytes} (h : bslash ∉ esc s) : esc s = s := by
  induction s with
  | nil => rfl
  | cons b s ih =>
    rw [esc_cons] at h ⊢
    rw [List.mem_append, not_or] at h
    rw [ih h.2]
    have hshape := escByte_shape b
    generalize escByte b = es at hshape h ⊢
    cases hshape with
    | plain hq hb hn => rfl
    | pair e hu hn hval => exact absurd List.mem_cons_self h.1
    | control h₁ h₂ hh hh' hval => exact absurd List.mem_cons_self h.1

/-- The string loop reads bytes that are neither quote nor backslash one by one. -/
theorem scan_str_plain (k : UInt8) (o : Op) {s : Bytes} (hs : ∀ b ∈ s, b ≠ dquote ∧ b ≠ bslash) :
    ∀ (raw : Bytes) (escapes : Bool),
      scan (.str k raw escapes false, o) s = (.str k (raw ++ s) escapes false, o) := by
  induction s with
  | nil => intro raw escapes; simp
  | cons b s ih =>
    intro raw escapes
    obtain ⟨hq, hb⟩ := hs b List.mem_cons_self
    rw [scan_cons, Mode.step]
    simp only [Bool.false_eq_true, if_false, hb, hq]
    rw [ih fun b hb ↦ hs b (List.mem_cons_of_mem _ hb)]
    simp

/-- The string loop steps over a backslash together with the byte after it. -/
theorem scan_str_pair (k : UInt8) (o : Op) (e : UInt8) (raw : Bytes) (escapes : Bool) :
    scan (.str k raw escapes false, o) [bslash, e] = (.str k (raw ++ [bslash, e]) true false, o) := by
  simp [scan_cons, Mode.step]

/-- The digits of a control escape are neither quote nor backslash. -/
theorem plain_of_control {h h' : UInt8} (hh : h ∉ [dquote, bslash, NL])
    (hh' : h' ∉ [dquote, bslash, NL]) :
    ∀ x ∈ [48, 48, h, h'], x ≠ dquote ∧ x ≠ bslash := by
  simp only [List.mem_cons, List.not_mem_nil, or_false, not_or] at hh hh'
  intro x hx
  simp only [List.mem_cons, List.not_mem_nil, or_false] at hx
  rcases hx with rfl | rfl | rfl | rfl
  · decide
  · decide
  · exact ⟨hh.1, hh.2.1⟩
  · exact ⟨hh'.1, hh'.2.1⟩

/-- The escape of one byte leaves the string loop in the string. -/
theorem scan_escByte (k : UInt8) (o : Op) (b : UInt8) (raw : Bytes) (escapes : Bool) :
    scan (.str k raw escapes false, o) (escByte b)
      = (.str k (raw ++ escByte b) (escapes || decide (bslash ∈ escByte b)) false, o) := by
  have hshape := escByte_shape b
  generalize escByte b = es at hshape ⊢
  cases hshape with
  | plain hq hb hn =>
    rw [scan_str_plain k o (by simpa using ⟨hq, hb⟩)]
    simp [Ne.symm hb]
  | pair e hu hn hval => simp [scan_str_pair]
  | control h h' hh hh' hval =>
    have hsplit : [bslash, key 'u', 48, 48, h, h'] = [bslash, key 'u'] ++ [48, 48, h, h'] := rfl
    rw [hsplit, scan_append, scan_str_pair, scan_str_plain k o (plain_of_control hh hh')]
    simp

/-- An escaped url leaves the string loop in the string, having seen a backslash iff there is
one. -/
theorem scan_esc (k : UInt8) (o : Op) (s : Bytes) : ∀ (raw : Bytes) (escapes : Bool),
    scan (.str k raw escapes false, o) (esc s)
      = (.str k (raw ++ esc s) (escapes || decide (bslash ∈ esc s)) false, o) := by
  induction s with
  | nil => intro raw escapes; simp [esc]
  | cons b s ih =>
    intro raw escapes
    rw [esc_cons, scan_append, scan_escByte, ih]
    simp [Bool.or_assoc]

theorem strValue_esc (s : Bytes) : strValue (esc s) (decide (bslash ∈ esc s)) = s := by
  rw [strValue]
  split_ifs with h
  · exact unescape_esc s
  · exact esc_of_bslash_notMem (by simpa using h)

/-! ## Fields

What a whole field of a line does to the automaton, from the byte before its key to the byte that
ends its value. -/

/-- A string field whose value is an escaped url. -/
theorem scan_urlField (k : UInt8) (o : Op) (s : Bytes) :
    scan (.str k [] false false, o) (esc s ++ [dquote]) = (.out, o.setStr k s) := by
  rw [scan_append, scan_esc]
  simp [scan_cons, Mode.step, strValue_esc, show dquote ≠ bslash by decide]

/-- A string field whose value is a code. -/
theorem scan_codeField (k : UInt8) (o : Op) (c : Code) :
    scan (.str k [] false false, o) (c.1 ++ [dquote]) = (.out, o.setStr k c.1) := by
  rw [scan_append, scan_str_plain k o fun b hb ↦
    ⟨c.ne_of_mem hb (by decide), c.ne_of_mem hb (by decide)⟩]
  simp [scan_cons, Mode.step, strValue, show dquote ≠ bslash by decide]

/-- The bytes of a number as the store prints it. -/
def NumText (t : Bytes) : Prop :=
  t ≠ [] ∧ ∀ b ∈ t, isBlank b = false ∧ b ∉ [dquote, comma, rbrace, NL]

private theorem numText_of_digits {sgn ds : Bytes} (hs : sgn = [] ∨ sgn = [45]) (hne : ds ≠ [])
    (hd : ∀ d ∈ ds, isDigit d = true) : NumText (sgn ++ ds) := by
  have hdigit : ∀ d, isDigit d = true → isBlank d = false ∧ d ∉ [dquote, comma, rbrace, NL] := by
    intro d h
    simp only [isDigit, Bool.and_eq_true, decide_eq_true_eq, UInt8.le_iff_toNat_le,
      UInt8.reduceToNat] at h
    simp only [isBlank, dquote, comma, rbrace, NL, Bool.or_eq_false_iff, decide_eq_false_iff_not,
      List.mem_cons, List.not_mem_nil, or_false, not_or, ← UInt8.toNat_inj, UInt8.reduceToNat]
    omega
  refine ⟨by simp [hne], fun b hb ↦ ?_⟩
  rcases List.mem_append.mp hb with hb | hb
  · rcases hs with rfl | rfl
    · exact absurd hb List.not_mem_nil
    · rw [List.mem_singleton.mp hb]
      decide
  · exact hdigit b (hd b hb)

theorem numText_itoa (n : Int64) : NumText (itoa n) := by
  obtain ⟨ds, hds, hne, hdig, -⟩ := itoa_eq n
  rw [hds]
  refine numText_of_digits ?_ hne hdig
  split_ifs
  · exact .inr rfl
  · exact .inl rfl

theorem numText_null : NumText (lit "null") := by
  have hnull : lit "null" = [110, 117, 108, 108] := rfl
  rw [hnull]
  refine ⟨by decide, fun b hb ↦ ?_⟩
  simp only [List.mem_cons, List.not_mem_nil, or_false] at hb
  rcases hb with rfl | rfl | rfl | rfl <;> decide

/-- The text of an expiry, `null` for none. -/
def expiryText (e : Int64) : Bytes := if e = 0 then lit "null" else itoa e

theorem numText_expiryText (e : Int64) : NumText (expiryText e) := by
  rw [expiryText]
  split_ifs
  · exact numText_null
  · exact numText_itoa e

theorem scan_num_text (k : UInt8) (o : Op) {t : Bytes} (ht : ∀ b ∈ t, b ≠ comma ∧ b ≠ rbrace) :
    ∀ text : Bytes, scan (.num k text, o) t = (.num k (text ++ t), o) := by
  induction t with
  | nil => intro text; simp
  | cons b t ih =>
    intro text
    obtain ⟨hc, hr⟩ := ht b List.mem_cons_self
    rw [scan_cons, Mode.step, if_neg (by simp [hc, hr]),
      ih fun b hb ↦ ht b (List.mem_cons_of_mem _ hb)]
    simp

theorem scan_val_numText (k : UInt8) (o : Op) {t : Bytes} (ht : NumText t) :
    scan (.val k, o) t = (.num k t, o) := by
  obtain ⟨b, r, rfl⟩ := List.exists_cons_of_ne_nil ht.1
  have hmem : ∀ x ∈ b :: r, x ≠ dquote ∧ x ≠ comma ∧ x ≠ rbrace := by
    intro x hx
    have := (ht.2 x hx).2
    simp only [List.mem_cons, List.not_mem_nil, or_false, not_or] at this
    exact ⟨this.1, this.2.1, this.2.2.1⟩
  obtain ⟨hq, hc, hr⟩ := hmem b List.mem_cons_self
  rw [scan_cons, Mode.step]
  simp only [(ht.2 b List.mem_cons_self).1, Bool.false_eq_true, if_false, hq, hc, hr, or_self]
  rw [scan_num_text k o fun x hx ↦ (hmem x (List.mem_cons_of_mem _ hx)).2]
  simp

/-- A number field, ended by a comma or by the closing brace. -/
theorem scan_numField (k : UInt8) (o : Op) {t : Bytes} (ht : NumText t) {z : UInt8}
    (hz : z = comma ∨ z = rbrace) : scan (.val k, o) (t ++ [z]) = (.out, o.setNum k t) := by
  rw [scan_append, scan_val_numText k o ht, scan_cons, Mode.step, if_pos hz, scan_nil]

theorem trimNum_of_numText {t : Bytes} (ht : NumText t) : Op.trimNum t = t := by
  have hrev : ∀ b ∈ t.reverse, isBlank b = false := fun b hb ↦
    (ht.2 b (List.mem_reverse.mp hb)).1
  rw [Op.trimNum]
  cases hr : t.reverse with
  | nil => rw [← List.reverse_reverse t, hr]; rfl
  | cons b r =>
    rw [List.dropWhile_cons, hrev b (by rw [hr]; exact List.mem_cons_self)]
    simp [← hr]

theorem itoa_ne_null (n : Int64) : itoa n ≠ lit "null" := by
  intro h
  have hval := strtoll_itoa n
  rw [h] at hval
  have h0 : n = 0 := by rw [← hval]; rfl
  rw [h0] at h
  exact absurd h (by decide)

/-! ## Lines as fields -/

/-- The opening brace. -/
def lbrace : UInt8 := 123

/-- The key of a field, up to its colon. -/
def keyPart (k : UInt8) : Bytes := [dquote, k, dquote, colon]

/-- A string field, from its key to the closing quote. -/
def strField (k : UInt8) (raw : Bytes) : Bytes := keyPart k ++ ([dquote] ++ (raw ++ [dquote]))

/-- A number field, without the byte that ends it. -/
def numField (k : UInt8) (t : Bytes) : Bytes := keyPart k ++ t

theorem rowLine_eq (c u : Bytes) (a e i n : Int64) :
    rowLine c u a e i n = [lbrace] ++ (strField (key 'c') c ++ ([comma]
      ++ (strField (key 'u') (esc u) ++ ([comma] ++ (numField (key 'a') (itoa a) ++ [comma]
      ++ (numField (key 'e') (expiryText e) ++ [comma] ++ (numField (key 'i') (itoa i) ++ [comma]
      ++ (numField (key 'n') (itoa n) ++ [rbrace])))))))) := by
  have h₁ : lit "\x7b\"c\":\"" = [lbrace] ++ keyPart (key 'c') ++ [dquote] := rfl
  have h₂ : lit "\",\"u\":\"" = [dquote, comma] ++ keyPart (key 'u') ++ [dquote] := rfl
  have h₃ : lit "\",\"a\":" = [dquote, comma] ++ keyPart (key 'a') := rfl
  have h₄ : lit ",\"e\":" = [comma] ++ keyPart (key 'e') := rfl
  have h₅ : lit ",\"i\":" = [comma] ++ keyPart (key 'i') := rfl
  have h₆ : lit ",\"n\":" = [comma] ++ keyPart (key 'n') := rfl
  have h₇ : lit "\x7d" = [rbrace] := rfl
  rw [rowLine, h₁, h₂, h₃, h₄, h₅, h₆, h₇]
  simp [strField, numField, expiryText]

theorem hitLine_eq (c : Bytes) (d i : Int64) :
    hitLine c d i = [lbrace] ++ (strField (key 'h') c ++ ([comma]
      ++ (numField (key 'd') (itoa d) ++ [comma] ++ (numField (key 'i') (itoa i) ++ [rbrace])))) := by
  have h₁ : lit "\x7b\"h\":\"" = [lbrace] ++ keyPart (key 'h') ++ [dquote] := rfl
  have h₂ : lit "\",\"d\":" = [dquote, comma] ++ keyPart (key 'd') := rfl
  have h₃ : lit ",\"i\":" = [comma] ++ keyPart (key 'i') := rfl
  have h₄ : lit "\x7d" = [rbrace] := rfl
  rw [hitLine, h₁, h₂, h₃, h₄]
  simp [strField, numField]

theorem delLine_eq (c : Bytes) :
    delLine c = [lbrace] ++ (strField (key 'x') c ++ [rbrace]) := by
  have h₁ : lit "\x7b\"x\":\"" = [lbrace] ++ keyPart (key 'x') ++ [dquote] := rfl
  have h₂ : lit "\"\x7d" = [dquote, rbrace] := rfl
  rw [delLine, h₁, h₂]
  simp [strField]

/-! ## Lines parse back -/

theorem scan_keyPart {k : UInt8} (hk : k ≠ dquote) (o : Op) :
    scan (.out, o) (keyPart k) = (.val k, o) := by
  simp [keyPart, scan_cons, Mode.step, hk]

theorem scan_out_of_ne {b : UInt8} (hb : b ≠ dquote) (o : Op) :
    scan (.out, o) [b] = (.out, o) := by
  simp [scan_cons, Mode.step, hb]

theorem scan_val_dquote (k : UInt8) (o : Op) :
    scan (.val k, o) [dquote] = (.str k [] false false, o) := rfl

theorem scan_strField_code {k : UInt8} (hk : k ≠ dquote) (o : Op) (c : Code) :
    scan (.out, o) (strField k c.1) = (.out, o.setStr k c.1) := by
  rw [strField, scan_append, scan_keyPart hk, scan_append, scan_val_dquote, scan_codeField]

theorem scan_strField_esc {k : UInt8} (hk : k ≠ dquote) (o : Op) (u : Bytes) :
    scan (.out, o) (strField k (esc u)) = (.out, o.setStr k u) := by
  rw [strField, scan_append, scan_keyPart hk, scan_append, scan_val_dquote, scan_urlField]

theorem scan_numField_end {k : UInt8} (hk : k ≠ dquote) (o : Op) {t : Bytes} (ht : NumText t)
    {z : UInt8} (hz : z = comma ∨ z = rbrace) :
    scan (.out, o) (numField k t ++ [z]) = (.out, o.setNum k t) := by
  rw [numField, List.append_assoc, scan_append, scan_keyPart hk, scan_numField k o ht hz]

/-- The number a field of printed digits stores. -/
theorem setNum_itoa (o : Op) (k : UInt8) (n : Int64) :
    o.setNum k (itoa n)
      = if k = key 'a' then { o with a := n }
        else if k = key 'e' then { o with e := n, hasE := true }
        else if k = key 'i' then { o with i := n }
        else if k = key 'n' then { o with n := n }
        else if k = key 'd' then { o with d := n }
        else o := by
  simp [Op.setNum, trimNum_of_numText (numText_itoa n), itoa_ne_null, strtoll_itoa]

theorem setNum_expiryText (o : Op) (e : Int64) (he : o.e = 0) (hh : o.hasE = false) :
    o.setNum (key 'e') (expiryText e) = { o with e := e, hasE := decide (e ≠ 0) } := by
  rw [expiryText]
  split_ifs with h0
  · have hkey : key 'e' ≠ key 'a' := by decide
    subst h0
    simp only [Op.setNum, trimNum_of_numText numText_null, hkey, if_false, if_true, ne_eq,
      not_true_eq_false, decide_false]
    rw [← he, ← hh]
  · have hkey : key 'e' ≠ key 'a' := by decide
    rw [setNum_itoa]
    simp [hkey, h0]

/-- The automaton after a whole line. -/
theorem scan_line (op : LogOp) : scan (.out, {}) op.line = (.out, op.toOp) := by
  have hb : lbrace ≠ dquote := by decide
  have hc : comma ≠ dquote := by decide
  have hr : rbrace ≠ dquote := by decide
  cases op with
  | row c u a e i n =>
    rw [LogOp.line, rowLine_eq, scan_append, scan_out_of_ne hb, scan_append,
      scan_strField_code (by decide), scan_append, scan_out_of_ne hc, scan_append,
      scan_strField_esc (by decide), scan_append, scan_out_of_ne hc, scan_append,
      scan_numField_end (by decide) _ (numText_itoa a) (.inl rfl), scan_append,
      scan_numField_end (by decide) _ (numText_expiryText e) (.inl rfl), scan_append,
      scan_numField_end (by decide) _ (numText_itoa i) (.inl rfl),
      scan_numField_end (by decide) _ (numText_itoa n) (.inr rfl)]
    rw [setNum_itoa, setNum_expiryText _ _ rfl rfl, setNum_itoa, setNum_itoa]
    rfl
  | hit c d i =>
    rw [LogOp.line, hitLine_eq, scan_append, scan_out_of_ne hb, scan_append,
      scan_strField_code (by decide), scan_append, scan_out_of_ne hc, scan_append,
      scan_numField_end (by decide) _ (numText_itoa d) (.inl rfl),
      scan_numField_end (by decide) _ (numText_itoa i) (.inr rfl), setNum_itoa, setNum_itoa]
    rfl
  | del c =>
    rw [LogOp.line, delLine_eq, scan_append, scan_out_of_ne hb, scan_append,
      scan_strField_code (by decide), scan_out_of_ne hr]
    rfl

theorem checked_toOp (op : LogOp) : op.toOp.checked = some op.toOp := by
  have hne := op.code.ne_nil
  cases op <;> simp_all [Op.checked, LogOp.toOp, LogOp.code]

/-- **One line reads back**, for every url and every number. -/
theorem parseOp_line (op : LogOp) : parseOp op.line = some op.toOp := by
  rw [parseOp_eq_scan, scan_line, finish, checked_toOp]

/-! ## Logs read back -/

private theorem NL_notMem_numText {t : Bytes} (ht : NumText t) : NL ∉ t := by
  intro hmem
  exact absurd (by simp) (ht.2 NL hmem).2

theorem NL_notMem_code (c : Code) : NL ∉ c.1 := fun h ↦ c.ne_of_mem h (x := NL) (by decide) rfl

/-- A line is a record: nonempty and free of newlines. -/
theorem record_line (op : LogOp) : Framing.Record NL op.line := by
  have hk : ∀ k : UInt8, k ≠ NL → NL ∉ keyPart k := by
    intro k hk
    simp only [keyPart, List.mem_cons, List.not_mem_nil, or_false, not_or]
    exact ⟨by decide, Ne.symm hk, by decide, by decide⟩
  cases op with
  | row c u a e i n =>
    rw [LogOp.line, rowLine_eq]
    refine ⟨by simp, ?_⟩
    simp only [strField, numField, List.mem_append, List.mem_singleton, not_or]
    simp only [NL_notMem_code, NL_notMem_esc, NL_notMem_numText (numText_itoa _),
      NL_notMem_numText (numText_expiryText _), hk _ (show key 'c' ≠ NL by decide),
      hk _ (show key 'u' ≠ NL by decide), hk _ (show key 'a' ≠ NL by decide),
      hk _ (show key 'e' ≠ NL by decide), hk _ (show key 'i' ≠ NL by decide),
      hk _ (show key 'n' ≠ NL by decide)]
    decide
  | hit c d i =>
    rw [LogOp.line, hitLine_eq]
    refine ⟨by simp, ?_⟩
    simp only [strField, numField, List.mem_append, List.mem_singleton, not_or]
    simp only [NL_notMem_code, NL_notMem_numText (numText_itoa _),
      hk _ (show key 'h' ≠ NL by decide), hk _ (show key 'd' ≠ NL by decide),
      hk _ (show key 'i' ≠ NL by decide)]
    decide
  | del c =>
    rw [LogOp.line, delLine_eq]
    refine ⟨by simp, ?_⟩
    simp only [strField, List.mem_append, List.mem_singleton, not_or]
    simp only [NL_notMem_code, hk _ (show key 'x' ≠ NL by decide)]
    decide

theorem record_of_mem_lines {ops : List LogOp} : ∀ l ∈ ops.map LogOp.line, Framing.Record NL l := by
  intro l hl
  obtain ⟨op, -, rfl⟩ := List.mem_map.mp hl
  exact record_line op

@[simp] theorem logText_nil : logText [] = [] := rfl

theorem logText_cons (op : LogOp) (ops : List LogOp) :
    logText (op :: ops) = op.line ++ NL :: logText ops := by
  rw [logText, List.map_cons, Framing.frame_cons, logText]

theorem logText_append (ops ops' : List LogOp) :
    logText (ops ++ ops') = logText ops ++ logText ops' := by
  rw [logText, List.map_append, Framing.frame_append, logText, logText]

theorem filterMap_parseOp_lines (ops : List LogOp) :
    (ops.map LogOp.line).filterMap parseOp = ops.map LogOp.toOp := by
  induction ops with
  | nil => rfl
  | cons op ops ih => simp [parseOp_line, ih]

/-- What replay sees when complete lines are followed by anything. -/
theorem replayOps_logText_append (ops : List LogOp) (t : Bytes) :
    replayOps (logText ops ++ t) = ops.map LogOp.toOp ++ replayOps t := by
  rw [replayOps, replayFile, logText, Framing.cut_frame_append record_of_mem_lines,
    List.filterMap_append, filterMap_parseOp_lines]
  rfl

theorem replayOps_logText (ops : List LogOp) : replayOps (logText ops) = ops.map LogOp.toOp := by
  rw [← List.append_nil (logText ops), replayOps_logText_append]
  simp [replayOps, replayFile]

/-- The number of operations whose whole line, newline included, lies within `m` bytes. -/
def closedOps (ops : List LogOp) (m : ℕ) : ℕ := Framing.closedWithin (ops.map LogOp.line) m

theorem replayOps_logText_take (ops : List LogOp) (m : ℕ) :
    replayOps ((logText ops).take m) = (ops.take (closedOps ops m)).map LogOp.toOp := by
  rw [replayOps, replayFile, logText, Framing.cut_fst_of_take_frame record_of_mem_lines,
    ← List.map_take, filterMap_parseOp_lines, closedOps]

/-- All lines lie within `m` bytes only if the whole log does. -/
theorem length_logText_le_of_closedOps {ops : List LogOp} {m : ℕ}
    (h : ops.length ≤ closedOps ops m) : (logText ops).length ≤ m := by
  have hle := @Framing.length_frame_take_closedWithin_le _ NL (ops.map LogOp.line) m
  rwa [List.take_of_length_le (by rwa [List.length_map])] at hle

/-- **The log format round-trips, torn tails included.** Replaying a log yields its operations with
every field equal. Replaying any byte prefix `p` of it yields exactly the operations whose whole
line lies inside `p`: some number `k` of leading ones, such that the first `k` lines are inside `p`
and the next one is not. -/
theorem log_roundtrip (ops : List LogOp) :
    replayOps (logText ops) = ops.map LogOp.toOp ∧
      ∀ p : Bytes, p <+: logText ops → ∃ k ≤ ops.length,
        replayOps p = (ops.take k).map LogOp.toOp ∧ logText (ops.take k) <+: p ∧
          (k < ops.length → ¬ logText (ops.take (k + 1)) <+: p) := by
  refine ⟨replayOps_logText ops, fun p hp ↦ ?_⟩
  have htake : p = (logText ops).take p.length := List.prefix_iff_eq_take.mp hp
  have hk : closedOps ops p.length ≤ ops.length := by
    simpa [closedOps] using Framing.closedWithin_le_length (ops.map LogOp.line) p.length
  have hlen : ∀ k, (logText (ops.take k)).length
      = (Framing.frame NL ((ops.map LogOp.line).take k)).length := by
    intro k
    rw [logText, List.map_take]
  refine ⟨closedOps ops p.length, hk, ?_, ?_, fun hlt hpre ↦ ?_⟩
  · rw [← replayOps_logText_take, ← htake]
  · -- Both are prefixes of the log, and the closed lines are the shorter one.
    have hsub : logText (ops.take (closedOps ops p.length)) <+: logText ops := by
      refine ⟨logText (ops.drop (closedOps ops p.length)), ?_⟩
      rw [← logText_append, List.take_append_drop]
    refine List.prefix_of_prefix_length_le hsub hp ?_
    rw [hlen]
    exact Framing.length_frame_take_closedWithin_le _ _
  · have hle := hpre.length_le
    rw [hlen] at hle
    refine absurd hle (not_le.mpr (Framing.lt_length_frame_take_succ _ _ ?_))
    simpa [closedOps] using hlt

end Shrt
