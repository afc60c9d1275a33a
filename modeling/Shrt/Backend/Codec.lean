import Shrt.App.Handle
import Shrt.Backend.Row

/-!
# The two copies of the value codec

Each external backend has its own `enc` and `dec`. The model of the backends uses one of them,
`Backend.dec`. The RocksDB copy is translated here a second time, by positions in the text as the
source writes it, and the two are the same function (`dec_eq`).

The rest of the module is about the older forms of a value, which carry no tag. A row of three
fields is always read back. A row of two fields is told from one of three by whether another
separator follows, so that a url with a separator in it is taken for a creation time and the row is
lost (`dec_pair_iff`).
-/

namespace Shrt

/-! ## The RocksDB copy -/

namespace Rocks.Codec

/-- `find` of one byte. -/
def find (s : Bytes) (b : UInt8) : Option ℕ := s.findIdx? (· == b)

/-- The RocksDB copy of `enc`. -/
def enc (e c : Int64) (u : Bytes) : Bytes :=
  lit "v1|" ++ (itoa e ++ (lit "|" ++ (itoa c ++ (lit "|" ++ u))))

/-- The RocksDB copy of `dec`. -/
def dec (v : Bytes) : Option Backend.Row := do
  let sv := if (lit "v1|").isPrefixOf v then v.drop 3 else v
  let p ← find sv 124
  let e ← stoll (sv.take p)
  let rest := sv.drop (p + 1)
  match find rest 124 with
  | some q => return { e, c := ← stoll (rest.take q), u := rest.drop (q + 1) }
  | none => return { e, c := 0, u := rest }

theorem find_eq_none {s : Bytes} {b : UInt8} : find s b = none ↔ b ∉ s := by
  rw [find, List.findIdx?_eq_none_iff]
  constructor
  · intro hall hmem
    exact absurd (hall b hmem) (by simp)
  · intro hno a ha
    exact beq_eq_false_iff_ne.mpr fun heq ↦ hno (heq ▸ ha)

/-- Cutting a text at a byte is finding the byte. -/
theorem cutAt_eq_find (b : UInt8) (s : Bytes) :
    cutAt [b] s = (find s b).map fun p ↦ (s.take p, s.drop (p + 1)) := by
  induction s with
  | nil => rfl
  | cons a s ih =>
    rw [cutAt, find, List.findIdx?_cons]
    by_cases h : a = b
    · subst h
      have hpre : [a] <+: a :: s := ⟨s, rfl⟩
      rw [if_pos hpre, if_pos (beq_self_eq_true a)]
      rfl
    · have hno : ¬ [b] <+: a :: s := fun hpre ↦ h (List.cons_prefix_cons.mp hpre).1.symm
      rw [if_neg hno, if_neg (by simpa using h), ih, find]
      cases s.findIdx? (· == b) with
      | none => rfl
      | some p => rfl

/-- **The copies agree.** -/
theorem dec_eq (v : Bytes) : dec v = Backend.dec v := by
  have hstart : (if (lit "v1|").isPrefixOf v then v.drop 3 else v)
      = if lit "v1|" <+: v then v.drop 3 else v := by
    simp only [List.isPrefixOf_iff_prefix]
  rw [dec, Backend.dec, hstart, Backend.decFields, show lit "|" = [124] from rfl]
  simp only [cutAt_eq_find, Option.bind_eq_bind]
  generalize (if lit "v1|" <+: v then v.drop 3 else v) = sv
  cases find sv 124 with
  | none => rfl
  | some p =>
    simp only [Option.map_some, Option.bind_some]
    cases stoll (sv.take p) with
    | none => rfl
    | some e =>
      rw [Option.bind_some]
      cases find (sv.drop (p + 1)) 124 with
      | none => rfl
      | some q =>
        simp only [Option.map_some]
        cases stoll ((sv.drop (p + 1)).take q) with
        | none => rfl
        | some c => rfl

end Rocks.Codec

namespace Backend

/-! ## Older rows -/

/-- A printed number is not the tag. -/
theorem not_tag_itoa (e : Int64) (t : Bytes) : ¬ lit "v1|" <+: itoa e ++ t := by
  intro h
  obtain ⟨ds, hds, hne, hdig, -⟩ := itoa_eq e
  obtain ⟨d, es, rfl⟩ := List.exists_cons_of_ne_nil hne
  rw [hds, show lit "v1|" = [118, 49, 124] from rfl] at h
  split_ifs at h with hneg
  · exact absurd (List.cons_prefix_cons.mp h).1 (by decide)
  · have hd : (118 : UInt8) = d := (List.cons_prefix_cons.mp h).1
    exact absurd (hdig d List.mem_cons_self) (hd ▸ by decide)

/-- **Stored values and rows of three fields are read back**, by either copy. -/
theorem dec_reads_back (e c : Int64) (u : Bytes) :
    dec (enc e c u) = some ⟨e, c, u⟩ ∧
      dec (itoa e ++ lit "|" ++ itoa c ++ lit "|" ++ u) = some ⟨e, c, u⟩ ∧
      Rocks.Codec.enc e c u = enc e c u ∧ ∀ v, Rocks.Codec.dec v = dec v := by
  refine ⟨dec_enc e c u, ?_, ?_, Rocks.Codec.dec_eq⟩
  · have hassoc : itoa e ++ lit "|" ++ itoa c ++ lit "|" ++ u
        = itoa e ++ lit "|" ++ (itoa c ++ lit "|" ++ u) := by
      simp only [List.append_assoc]
    rw [dec, hassoc, List.append_assoc (itoa e), if_neg (not_tag_itoa e _), ← List.append_assoc,
      decFields_itoa]
  · simp only [Rocks.Codec.enc, enc, List.append_assoc]

/-- What the reader makes of a row of two fields. -/
theorem dec_pair (e : Int64) (u : Bytes) : dec (itoa e ++ lit "|" ++ u) =
    match cutAt (lit "|") u with
    | some (q, t) => (stoll q).map fun c ↦ ⟨e, c, t⟩
    | none => some ⟨e, 0, u⟩ := by
  rw [dec, List.append_assoc, if_neg (not_tag_itoa e _), ← List.append_assoc, decFields,
    show lit "|" = [124] from rfl, cutAt_singleton (bar_not_mem_itoa e)]
  rcases hcut : cutAt [124] u with _ | ⟨q, t⟩
  · simp only [stoll_itoa, hcut]
  · simp only [stoll_itoa, hcut]

/-- A text that begins with a letter is no number. -/
theorem stoll_of_letter {b : UInt8} (h : 97 ≤ b) (t : Bytes) : stoll (b :: t) = none := by
  have hspace : isSpace b = false := by
    simp only [isSpace, Bool.or_eq_false_iff, Bool.and_eq_false_iff, decide_eq_false_iff_not,
      UInt8.le_iff_toNat_le, UInt8.reduceToNat, ← UInt8.toNat_inj] at h ⊢
    omega
  have hdigit : isDigit b = false := by
    simp only [isDigit, Bool.and_eq_false_iff, decide_eq_false_iff_not, UInt8.le_iff_toNat_le,
      UInt8.reduceToNat] at h ⊢
    omega
  have hsign : sign (b :: t) = (false, b :: t) := by
    rw [sign]
    · rintro r heq
      obtain ⟨rfl, -⟩ := List.cons.inj heq
      exact absurd h (by decide)
    · rintro r heq
      obtain ⟨rfl, -⟩ := List.cons.inj heq
      exact absurd h (by decide)
  rw [stoll, List.dropWhile_cons, hspace]
  simp [hsign, hdigit]

/-- A valid url begins with the letter of its scheme. -/
theorem exists_cons_of_isValidUrl {u : Bytes} (h : isValidUrl u = true) : ∃ t, u = 104 :: t := by
  rw [isValidUrl] at h
  split_ifs at h with hsize
  cases hscheme : afterScheme u with
  | none => simp [hscheme] at h
  | some r =>
    rw [afterScheme] at hscheme
    split_ifs at hscheme with hhttp hhttps
    · obtain ⟨t, rfl⟩ := hhttp
      exact ⟨_, rfl⟩
    · obtain ⟨t, rfl⟩ := hhttps
      exact ⟨_, rfl⟩

/-- **Rows of two fields.** For a valid url, the row is read back exactly when the url holds no
separator. -/
theorem dec_pair_iff (e : Int64) {u : Bytes} (h : isValidUrl u = true) :
    dec (itoa e ++ lit "|" ++ u) = some ⟨e, 0, u⟩ ↔ 124 ∉ u := by
  obtain ⟨t, rfl⟩ := exists_cons_of_isValidUrl h
  rw [dec_pair, show lit "|" = [124] from rfl, Rocks.Codec.cutAt_eq_find, ← Rocks.Codec.find_eq_none]
  cases Rocks.Codec.find (104 :: t) 124 with
  | none => exact iff_of_true rfl rfl
  | some q =>
    -- What stands before the separator is the beginning of the url.
    have hlost : stoll ((104 :: t).take q) = none := by
      cases q with
      | zero => rfl
      | succ q => exact stoll_of_letter (by decide) _
    simp only [Option.map_some, hlost, Option.map_none]
    exact iff_of_false nofun nofun

/-- The row of a link without a deadline whose url holds no separator. -/
theorem dec_pair_iff_plain : isValidUrl (lit "http://a.b/c") = true ∧
    dec (lit "0|http://a.b/c") = some ⟨0, 0, lit "http://a.b/c"⟩ := by
  have hvalid : isValidUrl (lit "http://a.b/c") = true := by decide
  exact ⟨hvalid, (dec_pair_iff 0 hvalid).mpr (by decide)⟩

/-- A valid url with a separator in its path is lost. -/
theorem dec_pair_lost : isValidUrl (lit "http://a.b/c|d") = true ∧
    dec (lit "0|http://a.b/c|d") = none := by
  decide

end Backend

end Shrt
