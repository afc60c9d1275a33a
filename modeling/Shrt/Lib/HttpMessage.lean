import Mathlib.Data.List.Basic

/-!
# Messages of a start line, header fields and a body

The framing of HTTP/1.1, as a receiver sees it: lines up to an empty one, then as many bytes of body
as the fields say. The receiver is a lenient one, which takes a bare line feed for the end of a
line, so that neither byte of a line end may be smuggled into a line.

`read_render`: a message whose lines hold neither byte is read back exactly, and what follows it on
the connection is left for the next message.
-/

namespace HttpMessage

/-- A text without carriage returns and line feeds. -/
def Clean (s : List UInt8) : Prop := 13 ∉ s ∧ 10 ∉ s

instance (s : List UInt8) : Decidable (Clean s) := inferInstanceAs (Decidable (_ ∧ _))

theorem Clean.append {s t : List UInt8} (hs : Clean s) (ht : Clean t) : Clean (s ++ t) :=
  ⟨fun h ↦ (List.mem_append.mp h).elim hs.1 ht.1, fun h ↦ (List.mem_append.mp h).elim hs.2 ht.2⟩

/-- A message. -/
structure Message where
  /-- The request line or the status line. -/
  start : List UInt8
  /-- Names and values. -/
  fields : List (List UInt8 × List UInt8)
  /-- The body. -/
  body : List UInt8
  deriving DecidableEq

/-! ## Writing -/

/-- One field on a line of its own. -/
def renderField (f : List UInt8 × List UInt8) : List UInt8 := f.1 ++ [58, 32] ++ f.2 ++ [13, 10]

/-- The bytes of a message. -/
def render (m : Message) : List UInt8 :=
  m.start ++ [13, 10] ++ m.fields.flatMap renderField ++ [13, 10] ++ m.body

/-! ## Reading -/

/-- A line without the carriage return at its end. -/
def dropCr (l : List UInt8) : List UInt8 := if l.getLast? = some 13 then l.dropLast else l

/-- A line and what follows it. -/
def readLine (s : List UInt8) : Option (List UInt8 × List UInt8) := match s.dropWhile (· ≠ 10) with
  | [] => none
  | _ :: r => some (dropCr (s.takeWhile (· ≠ 10)), r)

/-- The name and the value on a line. -/
def splitField (l : List UInt8) : List UInt8 × List UInt8 :=
  (l.takeWhile (· ≠ 58), match (l.dropWhile (· ≠ 58)).drop 1 with
    | 32 :: v => v
    | v => v)

/-- The fields up to the empty line, of which there are fewer than `fuel`. -/
def readFields : ℕ → List UInt8 → Option (List (List UInt8 × List UInt8) × List UInt8)
  | 0, _ => none
  | fuel + 1, s => match readLine s with
    | none => none
    | some ([], r) => some ([], r)
    | some (l, r) => (readFields fuel r).map fun p ↦ (splitField l :: p.1, p.2)

/-- A message and what follows it. `size` says how long the body is. -/
def read (size : List (List UInt8 × List UInt8) → Option ℕ) (s : List UInt8) :
    Option (Message × List UInt8) := do
  let (start, r) ← readLine s
  let (fields, r) ← readFields s.length r
  let n ← size fields
  if n ≤ r.length then some ({ start, fields, body := r.take n }, r.drop n) else none

/-! ## Reading what was written -/

/-- A byte ends the longest run without it. -/
theorem takeWhile_ne_append {b : UInt8} {l : List UInt8} (hl : b ∉ l) (r : List UInt8) :
    (l ++ b :: r).takeWhile (· ≠ b) = l := by
  have hall : ∀ x ∈ l, decide (x ≠ b) = true := fun x hx ↦ decide_eq_true (ne_of_mem_of_not_mem hx hl)
  rw [List.takeWhile_append_of_pos hall]
  simp

theorem dropWhile_ne_append {b : UInt8} {l : List UInt8} (hl : b ∉ l) (r : List UInt8) :
    (l ++ b :: r).dropWhile (· ≠ b) = b :: r := by
  have hall : ∀ x ∈ l, decide (x ≠ b) = true := fun x hx ↦ decide_eq_true (ne_of_mem_of_not_mem hx hl)
  rw [List.dropWhile_append_of_pos hall]
  simp

theorem readLine_append {l : List UInt8} (hl : Clean l) (r : List UInt8) :
    readLine (l ++ [13, 10] ++ r) = some (l, r) := by
  have hsplit : l ++ [13, 10] ++ r = (l ++ [13]) ++ 10 :: r := by simp
  have hmem : (10 : UInt8) ∉ l ++ [13] := by
    rw [List.mem_append, not_or]
    exact ⟨hl.2, by decide⟩
  rw [readLine, hsplit, dropWhile_ne_append hmem, takeWhile_ne_append hmem]
  simp [dropCr]

theorem splitField_eq {k v : List UInt8} (hk : 58 ∉ k) : splitField (k ++ [58, 32] ++ v) = (k, v) := by
  have hsplit : k ++ [58, 32] ++ v = k ++ 58 :: 32 :: v := by simp
  rw [splitField, hsplit, dropWhile_ne_append hk, takeWhile_ne_append hk]
  rfl

/-- Fields whose names and values stay on their line and keep apart. -/
def FieldsOk (fs : List (List UInt8 × List UInt8)) : Prop :=
  ∀ f ∈ fs, (Clean f.1 ∧ 58 ∉ f.1) ∧ Clean f.2

theorem readFields_render (r : List UInt8) : ∀ {fs : List (List UInt8 × List UInt8)} {fuel : ℕ},
    FieldsOk fs → fs.length < fuel →
      readFields fuel (fs.flatMap renderField ++ [13, 10] ++ r) = some (fs, r) := by
  intro fs
  induction fs with
  | nil =>
    intro fuel _ hfuel
    obtain ⟨fuel, rfl⟩ := Nat.exists_eq_add_one_of_ne_zero (Nat.ne_of_gt hfuel)
    have hline : readLine ([] ++ [13, 10] ++ r) = some ([], r) := readLine_append (by decide) r
    rw [List.flatMap_nil, readFields, hline]
  | cons f fs ih =>
    intro fuel hok hfuel
    obtain ⟨fuel, rfl⟩ := Nat.exists_eq_add_one_of_ne_zero (Nat.ne_zero_of_lt hfuel)
    obtain ⟨⟨hname, hcolon⟩, hvalue⟩ := hok f List.mem_cons_self
    have hclean : Clean (f.1 ++ [58, 32] ++ f.2) := (hname.append (by decide)).append hvalue
    have hsplit : (f :: fs).flatMap renderField ++ [13, 10] ++ r
        = f.1 ++ [58, 32] ++ f.2 ++ [13, 10] ++ (fs.flatMap renderField ++ [13, 10] ++ r) := by
      rw [List.flatMap_cons, renderField]
      simp only [List.append_assoc]
    have hne : f.1 ++ [58, 32] ++ f.2 ≠ [] := by simp
    rw [hsplit, readFields, readLine_append hclean]
    split
    · rename_i heq
      exact nomatch heq
    · rename_i heq
      exact absurd (Prod.mk.inj (Option.some.inj heq)).1 hne
    · rename_i l r' _ heq
      obtain ⟨rfl, rfl⟩ := Prod.mk.inj (Option.some.inj heq)
      rw [ih (fun g hg ↦ hok g (List.mem_cons_of_mem _ hg)) (Nat.lt_of_succ_lt_succ hfuel),
        Option.map_some, splitField_eq hcolon]

theorem length_le_length_flatMap (fs : List (List UInt8 × List UInt8)) :
    fs.length ≤ (fs.flatMap renderField).length := by
  induction fs with
  | nil => exact Nat.le_refl _
  | cons f fs ih =>
    rw [List.flatMap_cons, List.length_append, List.length_cons, renderField]
    simp only [List.length_append, List.length_cons, List.length_nil]
    omega

/-- **A message is read back exactly**, whatever follows it. -/
theorem read_render {size : List (List UInt8 × List UInt8) → Option ℕ} {m : Message}
    (hstart : Clean m.start) (hfields : FieldsOk m.fields)
    (hsize : size m.fields = some m.body.length) (next : List UInt8) :
    read size (render m ++ next) = some (m, next) := by
  have hsplit : render m ++ next
      = m.start ++ [13, 10] ++ (m.fields.flatMap renderField ++ [13, 10] ++ (m.body ++ next)) := by
    rw [render]
    simp only [List.append_assoc]
  have hfuel : m.fields.length < (render m ++ next).length := by
    have hle := length_le_length_flatMap m.fields
    rw [hsplit]
    simp only [List.length_append, List.length_cons, List.length_nil]
    omega
  rw [read, hsplit, readLine_append hstart, Option.bind_eq_bind, Option.bind_some, ← hsplit]
  simp only [readFields_render (m.body ++ next) hfields hfuel, Option.bind_eq_bind,
    Option.bind_some, hsize]
  rw [if_pos (by simp)]
  simp

end HttpMessage
