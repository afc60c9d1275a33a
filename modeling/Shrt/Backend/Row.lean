import Shrt.Common

/-!
# Stored values

Both external backends store a link as the text `v1|{e}|{c}|{u}`: its expiry, its creation time and
its url. The reader also takes the two older forms, which lack the tag, or the tag and the creation
time.
-/

namespace Shrt.Backend

/-- What a stored value says. -/
structure Row where
  /-- Expiry in milliseconds, `0` for never. -/
  e : Int64
  /-- Creation time in milliseconds. -/
  c : Int64
  /-- The target url. -/
  u : Bytes
  deriving DecidableEq

/-- The expiry check of the backends: `e != 0 && e <= now`. -/
def expired (e now : Int64) : Bool := e ≠ 0 && e ≤ now

/-- `enc`. -/
def enc (e c : Int64) (u : Bytes) : Bytes :=
  lit "v1|" ++ itoa e ++ lit "|" ++ itoa c ++ lit "|" ++ u

/-- The fields of a value behind its tag. -/
def decFields (sv : Bytes) : Option Row :=
  match cutAt (lit "|") sv with
  | none => none
  | some (p, rest) =>
    match stoll p with
    | none => none
    | some e => match cutAt (lit "|") rest with
      | some (q, u) => (stoll q).map fun c ↦ { e, c, u }
      | none => some { e, c := 0, u := rest }

/-- `dec`. -/
def dec (v : Bytes) : Option Row :=
  decFields (if lit "v1|" <+: v then v.drop 3 else v)

/-- A value that holds a row which has expired. -/
def expiredValue (now : Int64) (v : Bytes) : Bool := (dec v).any fun row ↦ expired row.e now

theorem expired_of_le {e now now' : Int64} (h : now ≤ now') (he : expired e now = true) :
    expired e now' = true := by
  simp only [expired, Bool.and_eq_true, decide_eq_true_eq] at he ⊢
  exact ⟨he.1, Int64.le_trans he.2 h⟩

theorem expiredValue_of_le {now now' : Int64} (h : now ≤ now') {v : Bytes}
    (hv : expiredValue now v = true) : expiredValue now' v = true := by
  obtain ⟨row, hrow, he⟩ := (Option.any_eq_true _ _).mp hv
  exact (Option.any_eq_true _ _).mpr ⟨row, hrow, expired_of_le h he⟩

/-! ## Reading back -/

theorem bar_not_mem_itoa (n : Int64) : (124 : UInt8) ∉ itoa n := by
  obtain ⟨ds, hds, -, hdig, -⟩ := itoa_eq n
  rw [hds, List.mem_append, not_or]
  constructor
  · split_ifs <;> decide
  · exact fun hmem ↦ absurd (hdig _ hmem) (by decide)

theorem decFields_itoa (e c : Int64) (u : Bytes) :
    decFields (itoa e ++ lit "|" ++ (itoa c ++ lit "|" ++ u)) = some ⟨e, c, u⟩ := by
  have hbar : lit "|" = [124] := rfl
  rw [decFields, hbar, cutAt_singleton (bar_not_mem_itoa e)]
  simp only [stoll_itoa, cutAt_singleton (bar_not_mem_itoa c), Option.map_some]

/-- **Stored values are read back.** -/
@[simp] theorem dec_enc (e c : Int64) (u : Bytes) : dec (enc e c u) = some ⟨e, c, u⟩ := by
  have htag : enc e c u = lit "v1|" ++ (itoa e ++ lit "|" ++ (itoa c ++ lit "|" ++ u)) := by
    simp only [enc, List.append_assoc]
  rw [dec, htag, if_pos (List.prefix_append _ _), ← decFields_itoa]
  rfl

end Shrt.Backend
