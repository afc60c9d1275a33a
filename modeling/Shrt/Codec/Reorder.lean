import Shrt.Codec.RoundTrip

/-!
# Fields in another order

`parse_op` tolerates its fields in any order, and blanks behind each colon and each value. A line is
taken apart into the fields it is printed from, each with the effect it has on the operation that is
being read (`OpField.store`). Wherever a field stands, and whatever ends it, the scanner comes out
of it with that effect and nothing else (`scan_spaced`). Fields with different keys write to
different parts of the operation, so their order does not matter (`parseOp_reordered`).
-/

namespace Shrt

/-! ## Fields -/

/-- A field as the encoder prints it: a code or an escaped url between quotes, a number, or an
expiry. -/
inductive OpField where
  | code (k : UInt8) (c : Code)
  | url (k : UInt8) (u : Bytes)
  | num (k : UInt8) (n : Int64)
  | expiry (k : UInt8) (e : Int64)

namespace OpField

/-- The key. -/
def name : OpField → UInt8
  | code k _ => k
  | url k _ => k
  | num k _ => k
  | expiry k _ => k

/-- The text behind the colon. -/
def value : OpField → Bytes
  | code _ c => [dquote] ++ (c.1 ++ [dquote])
  | url _ u => [dquote] ++ (esc u ++ [dquote])
  | num _ n => itoa n
  | expiry _ e => expiryText e

/-- What the field does to the operation. -/
def store (o : Op) : OpField → Op
  | code k c => o.setStr k c.1
  | url k u => o.setStr k u
  | num k n => o.setNum k (itoa n)
  | expiry k e => o.setNum k (expiryText e)

end OpField

/-- The fields of an operation, in the order of its line. -/
def LogOp.fields : LogOp → List OpField
  | row c u a e i n => [.code (key 'c') c, .url (key 'u') u, .num (key 'a') a, .expiry (key 'e') e,
      .num (key 'i') i, .num (key 'n') n]
  | hit c d i => [.code (key 'h') c, .num (key 'd') d, .num (key 'i') i]
  | del c => [.code (key 'x') c]

/-- Spaces and tabs. -/
abbrev Blanks := { w : Bytes // ∀ b ∈ w, isBlank b = true }

/-- A field with blanks behind its colon and behind its value. -/
structure Spaced where
  field : OpField
  before : Blanks
  after : Blanks

/-- The text of a field. -/
def Spaced.text (f : Spaced) : Bytes :=
  keyPart f.field.name ++ (f.before.1 ++ (f.field.value ++ f.after.1))

/-- Fields with commas between them. -/
def fieldsText : List Spaced → Bytes
  | [] => []
  | [f] => f.text
  | f :: g :: fs => f.text ++ ([comma] ++ fieldsText (g :: fs))

/-- An object with some fields. -/
def objectText (fs : List Spaced) : Bytes := [lbrace] ++ (fieldsText fs ++ [rbrace])

/-- A field without blanks. -/
def OpField.tight (f : OpField) : Spaced := ⟨f, ⟨[], fun _ h ↦ nomatch h⟩, ⟨[], fun _ h ↦ nomatch h⟩⟩

theorem OpField.text_tight (f : OpField) : f.tight.text = keyPart f.name ++ f.value := by
  rw [Spaced.text, tight]
  simp

/-- A line is the object of its fields, in order and without blanks. -/
theorem objectText_fields (op : LogOp) : objectText (op.fields.map OpField.tight) = op.line := by
  cases op with
  | row c u a e i n =>
    rw [LogOp.line, rowLine_eq]
    simp [LogOp.fields, objectText, fieldsText, OpField.text_tight, OpField.name, OpField.value,
      strField, numField]
  | hit c d i =>
    rw [LogOp.line, hitLine_eq]
    simp [LogOp.fields, objectText, fieldsText, OpField.text_tight, OpField.name, OpField.value,
      strField, numField]
  | del c =>
    rw [LogOp.line, delLine_eq]
    simp [LogOp.fields, objectText, fieldsText, OpField.text_tight, OpField.name, OpField.value,
      strField]

/-! ## What a field does to the scanner -/

theorem scan_val_blanks (k : UInt8) (o : Op) (w : Blanks) : scan (.val k, o) w.1 = (.val k, o) := by
  rw [scan_val_dropWhile, List.dropWhile_eq_nil_iff.mpr w.2, scan_nil]

theorem scan_out_blanks (o : Op) (w : Blanks) : scan (.out, o) w.1 = (.out, o) := by
  have hall : w.1.dropWhile (· ≠ dquote) = [] := by
    refine List.dropWhile_eq_nil_iff.mpr fun b hb ↦ ?_
    have hblank := w.2 b hb
    rw [decide_eq_true_iff]
    rintro rfl
    exact absurd hblank (by decide)
  rw [scan_out_dropWhile, hall, scan_nil]

/-- Blanks behind a number do not matter. -/
theorem setNum_append_blanks (o : Op) (k : UInt8) (t : Bytes) (w : Blanks) :
    o.setNum k (t ++ w.1) = o.setNum k t := by
  have htrim : Op.trimNum (t ++ w.1) = Op.trimNum t := by
    have hrev : ∀ b ∈ w.1.reverse, isBlank b = true := fun b hb ↦ w.2 b (List.mem_reverse.mp hb)
    rw [Op.trimNum, List.reverse_append, List.dropWhile_append_of_pos hrev, Op.trimNum]
  rw [Op.setNum, htrim, Op.setNum]

/-- A string value, with blanks and the end of the field behind it. -/
theorem scan_quoted {k : UInt8} {o o' : Op} {raw : Bytes} (w : Blanks) {z : UInt8} (hz : z ≠ dquote)
    (h : scan (.str k [] false false, o) (raw ++ [dquote]) = (.out, o')) :
    scan (.val k, o) ([dquote] ++ (raw ++ [dquote]) ++ w.1 ++ [z]) = (.out, o') := by
  rw [scan_append, scan_append, scan_append, scan_val_dquote, h, scan_out_blanks, scan_out_of_ne hz]

/-- A number, with blanks and the end of the field behind it. -/
theorem scan_number (k : UInt8) (o : Op) {t : Bytes} (ht : NumText t) (w : Blanks) {z : UInt8}
    (hz : z = comma ∨ z = rbrace) : scan (.val k, o) (t ++ w.1 ++ [z]) = (.out, o.setNum k t) := by
  have hplain : ∀ b ∈ w.1, b ≠ comma ∧ b ≠ rbrace := by
    intro b hb
    have hblank := w.2 b hb
    refine ⟨?_, ?_⟩
    · rintro rfl
      exact absurd hblank (by decide)
    · rintro rfl
      exact absurd hblank (by decide)
  rw [scan_append, scan_append, scan_val_numText k o ht, scan_num_text k o hplain, scan_cons,
    Mode.step, if_pos hz, scan_nil, setNum_append_blanks]

theorem scan_value (f : OpField) (o : Op) (w : Blanks) {z : UInt8} (hz : z = comma ∨ z = rbrace) :
    scan (.val f.name, o) (f.value ++ w.1 ++ [z]) = (.out, f.store o) := by
  have hquote : z ≠ dquote := by
    rcases hz with rfl | rfl
    · decide
    · decide
  cases f with
  | code k c => exact scan_quoted w hquote (scan_codeField k o c)
  | url k u => exact scan_quoted w hquote (scan_urlField k o u)
  | num k n => exact scan_number k o (numText_itoa n) w hz
  | expiry k e => exact scan_number k o (numText_expiryText e) w hz

/-- **One field**, wherever it stands: the scanner is back where it looks for a key. -/
theorem scan_spaced {f : Spaced} (hk : f.field.name ≠ dquote) (o : Op) {z : UInt8}
    (hz : z = comma ∨ z = rbrace) : scan (.out, o) (f.text ++ [z]) = (.out, f.field.store o) := by
  rw [Spaced.text, List.append_assoc, scan_append, scan_keyPart hk, List.append_assoc, scan_append,
    scan_val_blanks, scan_value f.field o f.after hz]

theorem scan_fieldsText {fs : List Spaced} (hk : ∀ f ∈ fs, f.field.name ≠ dquote) : ∀ o : Op,
    scan (.out, o) (fieldsText fs ++ [rbrace])
      = (.out, (fs.map Spaced.field).foldl OpField.store o) := by
  induction fs with
  | nil => exact fun o ↦ scan_out_of_ne (by decide) o
  | cons f fs ih =>
    intro o
    have hf := hk f List.mem_cons_self
    cases fs with
    | nil => exact scan_spaced hf o (.inr rfl)
    | cons g fs =>
      rw [fieldsText, List.append_assoc, ← List.append_assoc, ← List.append_assoc, List.append_assoc,
        scan_append, scan_spaced hf o (.inl rfl), ih fun g hg ↦ hk g (List.mem_cons_of_mem _ hg)]
      rfl

/-- **An object** is read as its fields, one after the other. -/
theorem parseOp_objectText {fs : List Spaced} (hk : ∀ f ∈ fs, f.field.name ≠ dquote) :
    parseOp (objectText fs) = ((fs.map Spaced.field).foldl OpField.store {}).checked := by
  rw [parseOp_eq_scan, objectText, scan_append, scan_out_of_ne (by decide), scan_fieldsText hk,
    finish]

/-! ## Fields commute -/

/-- What the two switches can do under a key: write the members that go with it, or nothing. -/
inductive Writes : UInt8 → (Op → Op) → Prop
  | c (s : Bytes) : Writes (key 'c') fun o ↦ { o with c := s }
  | u (s : Bytes) : Writes (key 'u') fun o ↦ { o with u := s }
  | h (s : Bytes) : Writes (key 'h') fun o ↦ { o with h := s }
  | x (s : Bytes) : Writes (key 'x') fun o ↦ { o with x := s }
  | a (v : Int64) : Writes (key 'a') fun o ↦ { o with a := v }
  | e (v : Int64) : Writes (key 'e') fun o ↦ { o with e := v, hasE := true }
  | i (v : Int64) : Writes (key 'i') fun o ↦ { o with i := v }
  | n (v : Int64) : Writes (key 'n') fun o ↦ { o with n := v }
  | d (v : Int64) : Writes (key 'd') fun o ↦ { o with d := v }
  | nothing (k : UInt8) : Writes k id

theorem writes_setStr (k : UInt8) (s : Bytes) : Writes k fun o ↦ o.setStr k s := by
  simp only [Op.setStr]
  split_ifs with hc hu hh hx
  · exact hc ▸ .c s
  · exact hu ▸ .u s
  · exact hh ▸ .h s
  · exact hx ▸ .x s
  · exact .nothing k

theorem writes_setNum (k : UInt8) (t : Bytes) : Writes k fun o ↦ o.setNum k t := by
  simp only [Op.setNum]
  generalize (if Op.trimNum t = lit "null" then 0 else strtoll (Op.trimNum t)) = v
  split_ifs with ha he hnull hi hn hd
  · exact ha ▸ .a v
  · exact he ▸ .e v
  · exact .nothing k
  · exact hi ▸ .i v
  · exact hn ▸ .n v
  · exact hd ▸ .d v
  · exact .nothing k

theorem Writes.comm {k k' : UInt8} {f g : Op → Op} (hf : Writes k f) (hg : Writes k' g) (h : k ≠ k')
    (o : Op) : f (g o) = g (f o) := by
  cases hf <;> cases hg <;> first | rfl | exact absurd rfl h

theorem OpField.writes (f : OpField) : Writes f.name fun o ↦ f.store o := by
  cases f with
  | code k c => exact writes_setStr k c.1
  | url k u => exact writes_setStr k u
  | num k n => exact writes_setNum k (itoa n)
  | expiry k e => exact writes_setNum k (expiryText e)

theorem nodup_names (op : LogOp) : (op.fields.map OpField.name).Nodup := by
  cases op with
  | row | hit | del =>
    simp only [LogOp.fields, List.map_cons, List.map_nil, OpField.name]
    decide

theorem name_ne_dquote (op : LogOp) : ∀ f ∈ op.fields, f.name ≠ dquote := by
  have hnames : ∀ k ∈ op.fields.map OpField.name, k ≠ dquote := by
    cases op with
    | row | hit | del =>
      simp only [LogOp.fields, List.map_cons, List.map_nil, OpField.name]
      decide +kernel
  exact fun f hf ↦ hnames _ (List.mem_map_of_mem hf)

/-- The fields of an operation back to front, with some blanks. -/
def backToFront (op : LogOp) (before after : Blanks) : List Spaced :=
  (op.fields.map fun f ↦ ⟨f, before, after⟩).reverse

theorem perm_backToFront (op : LogOp) (before after : Blanks) :
    ((backToFront op before after).map Spaced.field).Perm op.fields := by
  rw [backToFront, List.map_reverse, List.map_map]
  exact (List.reverse_perm _).trans (List.Perm.of_eq (List.map_id _))

/-- A row whose url needs escapes. -/
def escapedRow : LogOp := .row ⟨lit "a1", by decide⟩ (lit "u\"\n") 7 0 (-1) 3

/-- The row back to front, with two spaces behind each colon and a tab behind each value. -/
def escapedRowText : Bytes :=
  objectText (backToFront escapedRow ⟨[32, 32], by decide +kernel⟩ ⟨[9], by decide +kernel⟩)

end Shrt
