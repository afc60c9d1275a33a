import Shrt.App.Numeral

/-!
# Texts of values

What a client writes for a value, and that `jparse` reads it. `Written` lists the texts of a value:
tokens with white space between them, in arrays and objects of any depth. How strings are written is
a parameter, a relation of which only one thing is asked: that `str` reads such a string and stops
behind it. The texts of values, of the items of an array and of the members of an object are one
inductive relation, so that reading them back is one induction (`readsPart`).

The other half is about texts that are accepted, whoever wrote them: a byte appended to a text is
never taken for a part of it, unless the text is a number (`jparse_append`). The readers look at
what follows only behind a number, and behind a `u` escape near the end of the text, where a byte
more makes the string run out (`Closed`).
-/

namespace Shrt

namespace Jp

/-! ## Texts -/

/-- White space. -/
def Blank (w : Bytes) : Prop := ∀ b ∈ w, isWs b = true

/-- What a piece of text stands for: a value, or the rest of an array or an object with at least one
item or member. -/
inductive Part where
  | val (j : J)
  | items (xs : List J)
  | members (kvs : List (Bytes × J))

/-- The texts of values, given those of strings. A text of items or members ends with the bracket.
-/
inductive Written (Token : Bytes → Bytes → Prop) : Part → Bytes → Prop
  | nul : Written Token (.val .nul) (Shrt.lit "null")
  | yes : Written Token (.val (.bool true)) (Shrt.lit "true")
  | no : Written Token (.val (.bool false)) (Shrt.lit "false")
  | num (n : Numeral) : Written Token (.val (.num (.fin n.value))) n.text
  | str {s t : Bytes} (h : Token s t) : Written Token (.val (.str s)) t
  | arrNil {w : Bytes} (hw : Blank w) : Written Token (.val (.arr [])) (91 :: (w ++ [93]))
  | arr {xs : List J} {t : Bytes} (h : Written Token (.items xs) t) :
    Written Token (.val (.arr xs)) (91 :: t)
  | objNil {w : Bytes} (hw : Blank w) : Written Token (.val (.obj [])) (123 :: (w ++ [125]))
  | obj {kvs : List (Bytes × J)} {t : Bytes} (h : Written Token (.members kvs) t) :
    Written Token (.val (.obj kvs)) (123 :: t)
  | lastItem {x : J} {w t w' : Bytes} (hw : Blank w) (h : Written Token (.val x) t) (hw' : Blank w') :
    Written Token (.items [x]) (w ++ (t ++ (w' ++ [93])))
  | nextItem {x : J} {xs : List J} {w t w' t' : Bytes} (hw : Blank w) (h : Written Token (.val x) t)
    (hw' : Blank w') (h' : Written Token (.items xs) t') :
    Written Token (.items (x :: xs)) (w ++ (t ++ (w' ++ 44 :: t')))
  | lastMember {k : Bytes} {x : J} {w₁ u w₂ w₃ t w₄ : Bytes} (hw₁ : Blank w₁) (hk : Token k u)
    (hw₂ : Blank w₂) (hw₃ : Blank w₃) (h : Written Token (.val x) t) (hw₄ : Blank w₄) :
    Written Token (.members [(k, x)]) (w₁ ++ (u ++ (w₂ ++ 58 :: (w₃ ++ (t ++ (w₄ ++ [125]))))))
  | nextMember {k : Bytes} {x : J} {kvs : List (Bytes × J)} {w₁ u w₂ w₃ t w₄ t' : Bytes}
    (hw₁ : Blank w₁) (hk : Token k u) (hw₂ : Blank w₂) (hw₃ : Blank w₃) (h : Written Token (.val x) t)
    (hw₄ : Blank w₄) (h' : Written Token (.members kvs) t') :
    Written Token (.members ((k, x) :: kvs))
      (w₁ ++ (u ++ (w₂ ++ 58 :: (w₃ ++ (t ++ (w₄ ++ 44 :: t'))))))

/-! ## White space -/

theorem ws_append {w : Bytes} (hw : Blank w) (s : Bytes) : ws (w ++ s) = ws s :=
  List.dropWhile_append_of_pos hw

theorem ws_cons {b : UInt8} (hb : isWs b = false) (s : Bytes) : ws (b :: s) = b :: s := by
  rw [ws, List.dropWhile_cons, hb]
  rfl

theorem ws_ws (s : Bytes) : ws (ws s) = ws s := List.dropWhile_idempotent ..

theorem ws_append_cons {w : Bytes} (hw : Blank w) {b : UInt8} (hb : isWs b = false) (s : Bytes) :
    ws (w ++ b :: s) = b :: s := by
  rw [ws_append hw, ws_cons hb]

/-- The readers skip white space themselves. -/
theorem val_ws (fuel : ℕ) (s : Bytes) : val fuel (ws s) = val fuel s := by
  cases fuel with
  | zero => rw [val, val]
  | succ fuel => rw [val, val, ws_ws]

theorem items_ws (fuel : ℕ) (xs : List J) (s : Bytes) : items fuel xs (ws s) = items fuel xs s := by
  cases fuel with
  | zero => rw [items, items]
  | succ fuel => rw [items, items, val_ws]

theorem members_ws (fuel : ℕ) (kvs : List (Bytes × J)) (s : Bytes) :
    members fuel kvs (ws s) = members fuel kvs s := by
  cases fuel with
  | zero => rw [members, members]
  | succ fuel => rw [members, members, ws_ws]

/-- White space or a delimiter ends a number. -/
theorem stops_append {w : Bytes} (hw : Blank w) {r : Bytes} (hr : Stops r) : Stops (w ++ r) := by
  cases w with
  | nil => exact hr
  | cons b w =>
    intro c hc
    obtain rfl : b = c := Option.some.inj hc
    rw [isDelimiter, hw b List.mem_cons_self]
    rfl

/-! ## The readers, one step each -/

section Steps

variable {fuel : ℕ} {s r : Bytes} {b : UInt8} {x : J} {xs : List J} {k : Bytes}
  {kvs : List (Bytes × J)}

theorem val_succ (h : ws s = b :: r) : val (fuel + 1) s =
    if b = 123 then obj fuel r
    else if b = 91 then arr fuel r
    else if b = 34 then (str (b :: r)).map fun p ↦ (.str p.1, p.2)
    else if b = 116 then (lit (Shrt.lit "true") (b :: r)).map fun r ↦ (.bool true, r)
    else if b = 102 then (lit (Shrt.lit "false") (b :: r)).map fun r ↦ (.bool false, r)
    else if b = 110 then (lit (Shrt.lit "null") (b :: r)).map fun r ↦ (.nul, r)
    else num (b :: r) := by
  rw [val, h]

theorem arr_succ (h : ws s = b :: r) (hb : b ≠ 93) : arr (fuel + 1) s = items fuel [] s := by
  rw [arr, ← items_ws, h]
  split
  · rename_i heq
    exact absurd (List.cons.inj heq).1 hb
  · rfl

theorem obj_succ (h : ws s = b :: r) (hb : b ≠ 125) : obj (fuel + 1) s = members fuel [] s := by
  rw [obj, ← members_ws, h]
  split
  · rename_i heq
    exact absurd (List.cons.inj heq).1 hb
  · rfl

theorem items_last {r' : Bytes} (h : val fuel s = some (x, r)) (hr : ws r = 93 :: r') :
    items (fuel + 1) xs s = some (.arr (xs ++ [x]), r') := by
  simp only [items, h, hr]

theorem items_next {r' : Bytes} (h : val fuel s = some (x, r)) (hr : ws r = 44 :: r') :
    items (fuel + 1) xs s = items fuel (xs ++ [x]) r' := by
  simp only [items, h, hr]

theorem members_last {r₁ r₂ r₃ : Bytes} (hk : str (ws s) = some (k, r)) (hcolon : ws r = 58 :: r₁)
    (h : val fuel r₁ = some (x, r₂)) (hr : ws r₂ = 125 :: r₃) :
    members (fuel + 1) kvs s = some (.obj (kvs ++ [(k, x)]), r₃) := by
  simp only [members, hk, hcolon, h, hr]

theorem members_next {r₁ r₂ r₃ : Bytes} (hk : str (ws s) = some (k, r)) (hcolon : ws r = 58 :: r₁)
    (h : val fuel r₁ = some (x, r₂)) (hr : ws r₂ = 44 :: r₃) :
    members (fuel + 1) kvs s = members fuel (kvs ++ [(k, x)]) r₃ := by
  simp only [members, hk, hcolon, h, hr]

theorem lit_append (w r : Bytes) : lit w (w ++ r) = some r := by
  rw [lit, if_pos (List.prefix_append w r), List.drop_left]

end Steps

/-! ## Texts are read back -/

/-- The value is read with any white space before it, up to its end; of items and members, whatever
was read before them. The bounds are those of `Enough`. -/
def ReadsPart : Part → Bytes → Prop
  | .val j, t => ∀ w r fuel, Blank w → Stops r → 3 * (w ++ (t ++ r)).length + 1 ≤ fuel →
    val fuel (w ++ (t ++ r)) = some (j, r)
  | .items xs, t => ∀ ys r fuel, 3 * (t ++ r).length + 2 ≤ fuel →
    items fuel ys (t ++ r) = some (.arr (ys ++ xs), r)
  | .members kvs, t => ∀ ls r fuel, 3 * (t ++ r).length + 2 ≤ fuel →
    members fuel ls (t ++ r) = some (.obj (ls ++ kvs), r)

section Reads

variable {Token : Bytes → Bytes → Prop} {p : Part} {t : Bytes}

/-- Strings are read to their closing quote. -/
def ReadsTokens (Token : Bytes → Bytes → Prop) : Prop :=
  ∀ s t, Token s t → ∀ r, str (t ++ r) = some (s, r)

theorem ReadsTokens.exists_cons (htok : ReadsTokens Token) {s : Bytes} (h : Token s t) :
    ∃ t', t = 34 :: t' := by
  have hread := htok s t h []
  rw [List.append_nil] at hread
  fun_cases str t with
  | case1 t' => exact ⟨t', rfl⟩
  | case2 =>
    rw [str] at hread
    · contradiction
    · assumption

/-- The first byte of a part, behind white space: none that closes a bracket. -/
def Opens (t : Bytes) : Prop := ∀ r, ∃ b s, ws (t ++ r) = b :: s ∧ b ≠ 93 ∧ b ≠ 125

theorem opens_cons {b : UInt8} {s : Bytes} (hws : isWs b = false) (h93 : b ≠ 93) (h125 : b ≠ 125) :
    Opens (b :: s) := fun r ↦ ⟨b, s ++ r, ws_cons hws _, h93, h125⟩

theorem opens_append {w : Bytes} (hw : Blank w) (h : Opens t) (s : Bytes) : Opens (w ++ (t ++ s)) := by
  intro r
  rw [List.append_assoc, List.append_assoc, ws_append hw]
  exact h (s ++ r)

theorem not_isWs_of_numeral {b : UInt8} (hb : isDigit b = true ∨ b = 45) : isWs b = false := by
  by_contra hws
  have hdelim : isDelimiter b = true := by
    rw [isDelimiter, (Bool.not_eq_false _).mp hws]
    rfl
  rcases hb with hb | rfl
  · exact Bool.false_ne_true ((inert_of_isDelimiter hdelim).not_digit.symm.trans hb)
  · exact absurd hdelim (by decide)

/-- A number begins with a digit or a minus sign. -/
theorem exists_cons_numeral (n : Numeral) : ∃ b s, n.text = b :: s ∧ (isDigit b = true ∨ b = 45) := by
  obtain ⟨d, ds, hds⟩ := List.exists_cons_of_ne_nil n.whole.2.1
  have hd : isDigit d = true := n.whole.2.2 d (hds ▸ List.mem_cons_self)
  rw [Numeral.text, Numeral.absText, hds]
  cases n.neg with
  | true => exact ⟨45, _, rfl, .inr rfl⟩
  | false => exact ⟨d, _, rfl, .inl hd⟩

theorem opens_numeral (n : Numeral) : Opens n.text := by
  obtain ⟨b, s, hbs, hb⟩ := exists_cons_numeral n
  rw [hbs]
  refine opens_cons (not_isWs_of_numeral hb) ?_ ?_
  · rintro rfl
    exact absurd hb (by decide)
  · rintro rfl
    exact absurd hb (by decide)

theorem opens_of_written (htok : ReadsTokens Token) (h : Written Token p t) : Opens t := by
  have hkey : ∀ {k u : Bytes}, Token k u → Opens u := by
    intro k u hk
    obtain ⟨u', rfl⟩ := htok.exists_cons hk
    exact opens_cons (by decide) (by decide) (by decide)
  induction h with
  | nul => exact opens_cons (by decide) (by decide) (by decide)
  | yes => exact opens_cons (by decide) (by decide) (by decide)
  | no => exact opens_cons (by decide) (by decide) (by decide)
  | num n => exact opens_numeral n
  | str h => exact hkey h
  | arrNil _ | arr _ _ | objNil _ | obj _ _ => exact opens_cons (by decide) (by decide) (by decide)
  | lastItem hw _ _ ih => exact opens_append hw ih _
  | nextItem hw _ _ _ ih _ => exact opens_append hw ih _
  | lastMember hw hk _ _ _ _ _ => exact opens_append hw (hkey hk) _
  | nextMember hw hk _ _ _ _ _ _ => exact opens_append hw (hkey hk) _

variable {w r : Bytes} {fuel : ℕ}

/-- A word is read as its value once its first byte has led to the reader of that word. -/
theorem val_word {b : UInt8} {t : Bytes} {x : J} (hw : Blank w) (hb : isWs b = false)
    (hval : ∀ s, ws s = b :: (t ++ r) →
      val (fuel + 1) s = (lit (b :: t) (b :: (t ++ r))).map fun r ↦ (x, r)) :
    val (fuel + 1) (w ++ b :: (t ++ r)) = some (x, r) := by
  rw [hval _ (ws_append_cons hw hb _)]
  exact congrArg (Option.map fun r ↦ (x, r)) (lit_append (b :: t) r)

theorem val_null (hw : Blank w) :
    val (fuel + 1) (w ++ (Shrt.lit "null" ++ r)) = some (.nul, r) := by
  refine val_word (b := 110) (t := Shrt.lit "ull") hw (by decide) fun s hws ↦ ?_
  rw [val_succ hws, if_neg (by decide), if_neg (by decide), if_neg (by decide), if_neg (by decide),
    if_neg (by decide), if_pos rfl]
  rfl

theorem val_true (hw : Blank w) :
    val (fuel + 1) (w ++ (Shrt.lit "true" ++ r)) = some (.bool true, r) := by
  refine val_word (b := 116) (t := Shrt.lit "rue") hw (by decide) fun s hws ↦ ?_
  rw [val_succ hws, if_neg (by decide), if_neg (by decide), if_neg (by decide), if_pos rfl]
  rfl

theorem val_false (hw : Blank w) :
    val (fuel + 1) (w ++ (Shrt.lit "false" ++ r)) = some (.bool false, r) := by
  refine val_word (b := 102) (t := Shrt.lit "alse") hw (by decide) fun s hws ↦ ?_
  rw [val_succ hws, if_neg (by decide), if_neg (by decide), if_neg (by decide), if_neg (by decide),
    if_pos rfl]
  rfl

theorem val_numeral (hw : Blank w) (n : Numeral) (hr : Stops r) :
    val (fuel + 1) (w ++ (n.text ++ r)) = some (.num (.fin n.value), r) := by
  obtain ⟨b, s, hbs, hb⟩ := exists_cons_numeral n
  have hcons : n.text ++ r = b :: (s ++ r) := by
    rw [hbs, List.cons_append]
  have hws : ws (w ++ (n.text ++ r)) = b :: (s ++ r) := by
    rw [hcons, ws_append_cons hw (not_isWs_of_numeral hb)]
  have hne : ∀ {c : UInt8}, isDigit c = false → c ≠ 45 → b ≠ c := by
    rintro c hdigit hminus rfl
    rcases hb with hb | hb
    · exact nomatch hdigit.symm.trans hb
    · exact hminus hb
  rw [val_succ hws, if_neg (hne (by decide) (by decide)), if_neg (hne (by decide) (by decide)),
    if_neg (hne (by decide) (by decide)), if_neg (hne (by decide) (by decide)),
    if_neg (hne (by decide) (by decide)), if_neg (hne (by decide) (by decide)), ← hcons, num,
    strtod_numeral n hr]
  rfl

theorem val_token (htok : ReadsTokens Token) (hw : Blank w) {s : Bytes} (h : Token s t) :
    val (fuel + 1) (w ++ (t ++ r)) = some (.str s, r) := by
  have hread := htok s t h r
  obtain ⟨t', rfl⟩ := htok.exists_cons h
  have hws : ws (w ++ (34 :: t' ++ r)) = 34 :: (t' ++ r) := ws_append_cons hw (by decide) _
  rw [val_succ hws, if_neg (by decide), if_neg (by decide), if_pos rfl]
  exact congrArg (Option.map fun p : Bytes × Bytes ↦ (J.str p.1, p.2)) hread

theorem val_bracket (hw : Blank w) : val (fuel + 1) (w ++ 91 :: r) = arr fuel r := by
  rw [val_succ (ws_append_cons hw (by decide) r), if_neg (by decide), if_pos rfl]

theorem val_brace (hw : Blank w) : val (fuel + 1) (w ++ 123 :: r) = obj fuel r := by
  rw [val_succ (ws_append_cons hw (by decide) r), if_pos rfl]

theorem str_key (htok : ReadsTokens Token) (hw : Blank w) {k u : Bytes} (hk : Token k u) (r : Bytes) :
    str (ws (w ++ (u ++ r))) = some (k, r) := by
  have hread := htok k u hk r
  obtain ⟨u', rfl⟩ := htok.exists_cons hk
  rwa [List.cons_append, ws_append_cons hw (by decide), ← List.cons_append]

/-- **Texts are read back**, one constructor at a time. -/
theorem readsPart (htok : ReadsTokens Token) (h : Written Token p t) : ReadsPart p t := by
  induction h with
  | nul =>
    intro w r fuel hw _ hfuel
    obtain ⟨fuel, rfl⟩ : ∃ f, fuel = f + 1 := ⟨fuel - 1, by omega⟩
    exact val_null hw
  | yes =>
    intro w r fuel hw _ hfuel
    obtain ⟨fuel, rfl⟩ : ∃ f, fuel = f + 1 := ⟨fuel - 1, by omega⟩
    exact val_true hw
  | no =>
    intro w r fuel hw _ hfuel
    obtain ⟨fuel, rfl⟩ : ∃ f, fuel = f + 1 := ⟨fuel - 1, by omega⟩
    exact val_false hw
  | num n =>
    intro w r fuel hw hr hfuel
    obtain ⟨fuel, rfl⟩ : ∃ f, fuel = f + 1 := ⟨fuel - 1, by omega⟩
    exact val_numeral hw n hr
  | str h =>
    intro w r fuel hw _ hfuel
    obtain ⟨fuel, rfl⟩ : ∃ f, fuel = f + 1 := ⟨fuel - 1, by omega⟩
    exact val_token htok hw h
  | arrNil hw' =>
    intro w r fuel hw _ hfuel
    simp only [List.length_append, List.length_cons, List.length_nil] at hfuel
    obtain ⟨fuel, rfl⟩ : ∃ f, fuel = f + 2 := ⟨fuel - 2, by omega⟩
    rw [List.cons_append, val_bracket hw, List.append_assoc, List.singleton_append, arr,
      ws_append_cons hw' (by decide)]
    rfl
  | arr h ih =>
    intro w r fuel hw _ hfuel
    simp only [List.length_append, List.length_cons] at hfuel
    obtain ⟨fuel, rfl⟩ : ∃ f, fuel = f + 2 := ⟨fuel - 2, by omega⟩
    obtain ⟨b, s, hws, hb, -⟩ := opens_of_written htok h r
    rw [List.cons_append, val_bracket hw, arr_succ hws hb, ih [] r fuel, List.nil_append]
    rw [List.length_append]
    omega
  | objNil hw' =>
    intro w r fuel hw _ hfuel
    simp only [List.length_append, List.length_cons, List.length_nil] at hfuel
    obtain ⟨fuel, rfl⟩ : ∃ f, fuel = f + 2 := ⟨fuel - 2, by omega⟩
    rw [List.cons_append, val_brace hw, List.append_assoc, List.singleton_append, obj,
      ws_append_cons hw' (by decide)]
    rfl
  | obj h ih =>
    intro w r fuel hw _ hfuel
    simp only [List.length_append, List.length_cons] at hfuel
    obtain ⟨fuel, rfl⟩ : ∃ f, fuel = f + 2 := ⟨fuel - 2, by omega⟩
    obtain ⟨b, s, hws, -, hb⟩ := opens_of_written htok h r
    rw [List.cons_append, val_brace hw, obj_succ hws hb, ih [] r fuel, List.nil_append]
    rw [List.length_append]
    omega
  | lastItem hw h hw' ih =>
    intro ys r fuel hfuel
    rename_i x w t w'
    have hassoc : w ++ (t ++ (w' ++ [93])) ++ r = w ++ (t ++ (w' ++ 93 :: r)) := by simp
    rw [hassoc] at hfuel ⊢
    obtain ⟨fuel, rfl⟩ : ∃ f, fuel = f + 1 := ⟨fuel - 1, by omega⟩
    have hstops : Stops (w' ++ 93 :: r) := stops_append hw' (by rintro b ⟨⟩; decide)
    exact items_last (ih w _ fuel hw hstops (by omega)) (ws_append_cons hw' (by decide) r)
  | nextItem hw h hw' h' ih ih' =>
    intro ys r fuel hfuel
    rename_i x xs w t w' t'
    have hassoc : w ++ (t ++ (w' ++ 44 :: t')) ++ r = w ++ (t ++ (w' ++ 44 :: (t' ++ r))) := by simp
    rw [hassoc] at hfuel ⊢
    obtain ⟨fuel, rfl⟩ : ∃ f, fuel = f + 1 := ⟨fuel - 1, by omega⟩
    have hstops : Stops (w' ++ 44 :: (t' ++ r)) := stops_append hw' (by rintro b ⟨⟩; decide)
    rw [items_next (ih w _ fuel hw hstops (by omega)) (ws_append_cons hw' (by decide) _),
      ih' (ys ++ [x]) r fuel, List.append_assoc, List.singleton_append]
    simp only [List.length_append, List.length_cons] at hfuel ⊢
    omega
  | lastMember hw₁ hk hw₂ hw₃ h hw₄ ih =>
    intro ls r fuel hfuel
    rename_i k x w₁ u w₂ w₃ t w₄
    have hassoc : w₁ ++ (u ++ (w₂ ++ 58 :: (w₃ ++ (t ++ (w₄ ++ [125]))))) ++ r
        = w₁ ++ (u ++ (w₂ ++ 58 :: (w₃ ++ (t ++ (w₄ ++ 125 :: r))))) := by
      simp
    rw [hassoc] at hfuel ⊢
    obtain ⟨fuel, rfl⟩ : ∃ f, fuel = f + 1 := ⟨fuel - 1, by omega⟩
    have hstops : Stops (w₄ ++ 125 :: r) := stops_append hw₄ (by rintro b ⟨⟩; decide)
    refine members_last (str_key htok hw₁ hk _) (ws_append_cons hw₂ (by decide) _)
      (ih w₃ _ fuel hw₃ hstops ?_) (ws_append_cons hw₄ (by decide) r)
    simp only [List.length_append, List.length_cons] at hfuel ⊢
    omega
  | nextMember hw₁ hk hw₂ hw₃ h hw₄ h' ih ih' =>
    intro ls r fuel hfuel
    rename_i k x kvs w₁ u w₂ w₃ t w₄ t'
    have hassoc : w₁ ++ (u ++ (w₂ ++ 58 :: (w₃ ++ (t ++ (w₄ ++ 44 :: t'))))) ++ r
        = w₁ ++ (u ++ (w₂ ++ 58 :: (w₃ ++ (t ++ (w₄ ++ 44 :: (t' ++ r)))))) := by
      simp
    rw [hassoc] at hfuel ⊢
    obtain ⟨fuel, rfl⟩ : ∃ f, fuel = f + 1 := ⟨fuel - 1, by omega⟩
    have hstops : Stops (w₄ ++ 44 :: (t' ++ r)) := stops_append hw₄ (by rintro b ⟨⟩; decide)
    simp only [List.length_append, List.length_cons] at hfuel
    rw [members_next (str_key htok hw₁ hk _) (ws_append_cons hw₂ (by decide) _)
      (ih w₃ _ fuel hw₃ hstops ?_) (ws_append_cons hw₄ (by decide) _), ih' (ls ++ [(k, x)]) r fuel,
      List.append_assoc, List.singleton_append]
    · rw [List.length_append]
      omega
    · simp only [List.length_append, List.length_cons]
      omega

/-- **A value that was written is read**, with any white space around it. -/
theorem jparse_written (htok : ReadsTokens Token) {j : J} {w' : Bytes} (hw : Blank w) (hw' : Blank w')
    (h : Written Token (.val j) t) : jparse (w ++ (t ++ w')) = some j := by
  have hstops : Stops w' := List.append_nil w' ▸ stops_append hw' (by rintro b ⟨⟩)
  have hend : ws w' = [] := by
    rw [← List.append_nil w', ws_append hw']
    rfl
  rw [jparse, readsPart htok h w w' _ hw hstops (Nat.le_refl _), Option.bind_some, if_pos hend]

end Reads

/-! ## A byte more -/

/-- What is read when a byte more stands at the end of the text: the same, with the byte left, or
nothing. -/
def Extends {α : Type*} (b : UInt8) (o o' : Option (α × Bytes)) : Prop :=
  ∀ x r, o = some (x, r) → o' = some (x, r ++ [b]) ∨ o' = none

/-- A reader never takes a byte that is appended. -/
def Closed {α : Type*} (b : UInt8) (f : Bytes → Option (α × Bytes)) : Prop :=
  ∀ s, Extends b (f s) (f (s ++ [b]))

section Closed

variable {α β : Type*} {o o' : Option (α × Bytes)} {s r : Bytes} {b c : UInt8}

theorem extends_none : Extends b none o' := fun _ _ h ↦ absurd h.symm (Option.some_ne_none _)

theorem Extends.map (h : Extends b o o') (g : α → β) :
    Extends b (o.map fun p ↦ (g p.1, p.2)) (o'.map fun p ↦ (g p.1, p.2)) := by
  intro y r hy
  obtain ⟨⟨x, r'⟩, hx, heq⟩ := Option.map_eq_some_iff.mp hy
  obtain ⟨rfl, rfl⟩ := Prod.mk.inj heq
  rcases h x r' hx with hsome | hnone
  · rw [hsome]
    exact .inl rfl
  · rw [hnone]
    exact .inr rfl

theorem ws_append_of_cons (h : ws s = c :: r) (e : Bytes) : ws (s ++ e) = c :: (r ++ e) :=
  (takeWhile_dropWhile_append h e).2

/-- What comes first behind a value that is followed by a delimiter is white space or the delimiter.
-/
theorem exists_delimiter (h : ws s = c :: r) (hc : isDelimiter c = true) :
    ∃ d t, s = d :: t ∧ isDelimiter d = true := by
  cases s with
  | nil => exact nomatch h
  | cons d t =>
    refine ⟨d, t, rfl, ?_⟩
    by_cases hd : isWs d = true
    · rw [isDelimiter, hd]
      rfl
    · rw [ws_cons ((Bool.not_eq_true _).mp hd)] at h
      obtain ⟨rfl, -⟩ := List.cons.inj h
      exact hc

/-- A backslash stands for the byte behind it, unless that is one of four letters. -/
theorem strTail_escape (hu : c ≠ 117) (hn : c ≠ 110) (hr : c ≠ 114) (ht : c ≠ 116) (s : Bytes) :
    strTail (92 :: c :: s) = (strTail s).map fun p ↦ (c :: p.1, p.2) := by
  rw [strTail]
  · exact fun _ _ _ _ _ heq _ ↦ hu heq
  · exact hu
  · exact hn
  · exact hr
  · exact ht

/-- Any other byte stands for itself. -/
theorem strTail_plain (hquote : c ≠ 34) (hescape : c ≠ 92) (s : Bytes) :
    strTail (c :: s) = (strTail s).map fun p ↦ (c :: p.1, p.2) := by
  rw [strTail]
  · exact hquote
  · exact fun _ _ _ _ _ heq _ ↦ hescape heq
  · exact fun _ heq _ ↦ hescape heq
  · exact fun _ heq _ ↦ hescape heq
  · exact fun _ heq _ ↦ hescape heq
  · exact fun _ heq _ ↦ hescape heq
  · exact fun _ _ heq _ ↦ hescape heq

theorem closed_strTail : Closed b strTail := by
  intro s
  fun_induction strTail s with
  | case1 r =>
    rintro x r' ⟨⟩
    exact .inl rfl
  | case2 _ _ _ _ r ih => exact ih.map (63 :: ·)
  | case3 r hshort ih =>
    -- With the byte, the escape has its four bytes or still has not. If it has, nothing is left.
    rcases r with _ | ⟨a₁, _ | ⟨a₂, _ | ⟨a₃, _ | ⟨a₄, r'⟩⟩⟩⟩
    · exact extends_none
    · exact ih
    · exact ih
    · exact fun _ _ _ ↦ .inr rfl
    · exact absurd rfl (hshort a₁ a₂ a₃ a₄ r')
  | case4 r ih => exact ih.map (10 :: ·)
  | case5 r ih => exact ih.map (13 :: ·)
  | case6 r ih => exact ih.map (9 :: ·)
  | case7 c r _ hu hn hr ht ih =>
    rw [List.cons_append, List.cons_append, strTail_escape hu hn hr ht]
    exact ih.map (c :: ·)
  | case8 c r hquote _ _ _ _ _ hescape ih =>
    by_cases hc : c = 92
    · -- A backslash at the very end: the string has run out already.
      cases r with
      | nil => exact extends_none
      | cons a r => exact absurd rfl (hescape a r hc)
    · rw [List.cons_append, strTail_plain hquote hc]
      exact ih.map (c :: ·)
  | case9 => exact extends_none

theorem closed_str : Closed b str := by
  intro s
  fun_cases str s with
  | case1 r => exact closed_strTail r
  | case2 => exact extends_none

theorem closed_lit (w : Bytes) (x : J) : Closed b fun s ↦ (lit w s).map fun r ↦ (x, r) := by
  intro s y r h
  obtain ⟨r', hlit, heq⟩ := Option.map_eq_some_iff.mp h
  obtain ⟨rfl, rfl⟩ := Prod.mk.inj heq
  rw [lit] at hlit
  split_ifs at hlit with hpre
  obtain rfl := Option.some.inj hlit
  refine .inl ?_
  dsimp only
  rw [lit, if_pos (hpre.trans (List.prefix_append s [b])), List.drop_append_of_le_length hpre.length_le]
  rfl

end Closed

section Readers

variable {s r : Bytes} {b : UInt8} {fuel : ℕ} {x : J} {xs : List J} {kvs : List (Bytes × J)}

/-- What an array reads: a value and what follows it. -/
theorem items_eq_some (h : items (fuel + 1) xs s = some (x, r)) : ∃ y r₁, val fuel s = some (y, r₁) ∧
    ((∃ r₂, ws r₁ = 44 :: r₂ ∧ items fuel (xs ++ [y]) r₂ = some (x, r)) ∨
      ws r₁ = 93 :: r ∧ x = .arr (xs ++ [y])) := by
  rw [items] at h
  split at h
  · contradiction
  · rename_i y r₁ hval
    refine ⟨y, r₁, hval, ?_⟩
    split at h
    · rename_i r₂ hws
      exact .inl ⟨r₂, hws, h⟩
    · rename_i r₂ hws
      obtain ⟨rfl, rfl⟩ := Prod.mk.inj (Option.some.inj h)
      exact .inr ⟨hws, rfl⟩
    · contradiction

/-- What an object reads: a key, a value and what follows it. -/
theorem members_eq_some (h : members (fuel + 1) kvs s = some (x, r)) : ∃ k r₀ r₁ y r₂,
    str (ws s) = some (k, r₀) ∧ ws r₀ = 58 :: r₁ ∧ val fuel r₁ = some (y, r₂) ∧
    ((∃ r₃, ws r₂ = 44 :: r₃ ∧ members fuel (kvs ++ [(k, y)]) r₃ = some (x, r)) ∨
      ws r₂ = 125 :: r ∧ x = .obj (kvs ++ [(k, y)])) := by
  rw [members] at h
  split at h
  · contradiction
  · rename_i k r₀ hstr
    split at h
    · rename_i r₁ hcolon
      split at h
      · contradiction
      · rename_i y r₂ hval
        refine ⟨k, r₀, r₁, y, r₂, hstr, hcolon, hval, ?_⟩
        split at h
        · rename_i r₃ hws
          exact .inl ⟨r₃, hws, h⟩
        · rename_i r₃ hws
          obtain ⟨rfl, rfl⟩ := Prod.mk.inj (Option.some.inj h)
          exact .inr ⟨hws, rfl⟩
        · contradiction
    · contradiction

/-- A number is followed by a delimiter. -/
def Delimited (x : J) (r : Bytes) : Prop :=
  ∀ d, x = .num d → ∃ c t, r = c :: t ∧ isDelimiter c = true

/-- All readers, for one bound on their recursion. A number is only safe when a delimiter follows.
-/
structure AllClosed (b : UInt8) (fuel : ℕ) : Prop where
  val : ∀ s x r, val fuel s = some (x, r) → Delimited x r →
    val fuel (s ++ [b]) = some (x, r ++ [b]) ∨ val fuel (s ++ [b]) = none
  arr : Closed b (arr fuel)
  items : ∀ xs, Closed b (items fuel xs)
  obj : Closed b (obj fuel)
  members : ∀ kvs, Closed b (members fuel kvs)

theorem AllClosed.val_succ (ih : AllClosed b fuel) (h : Jp.val (fuel + 1) s = some (x, r))
    (hx : Delimited x r) :
    Jp.val (fuel + 1) (s ++ [b]) = some (x, r ++ [b]) ∨ Jp.val (fuel + 1) (s ++ [b]) = none := by
  cases hws : ws s with
  | nil =>
    rw [Jp.val, hws] at h
    contradiction
  | cons c t =>
    rw [Jp.val_succ hws] at h
    rw [Jp.val_succ (ws_append_of_cons hws [b])]
    split_ifs at h ⊢
    · exact ih.obj t x r h
    · exact ih.arr t x r h
    · exact (closed_str (c :: t)).map J.str x r h
    · exact closed_lit _ _ (c :: t) x r h
    · exact closed_lit _ _ (c :: t) x r h
    · exact closed_lit _ _ (c :: t) x r h
    · obtain ⟨⟨d, r'⟩, hd, heq⟩ := Option.map_eq_some_iff.mp h
      obtain ⟨rfl, rfl⟩ := Prod.mk.inj heq
      obtain ⟨c', t', rfl, hc'⟩ := hx d rfl
      refine .inl ?_
      rw [num, ← List.cons_append, strtod_append hc' hd]
      rfl

theorem AllClosed.arr_succ (ih : AllClosed b fuel) : Closed b (Jp.arr (fuel + 1)) := by
  intro s x r h
  cases hws : ws s with
  | nil =>
    rw [Jp.arr, hws] at h
    exact absurd ((allShrink fuel).items [] h) (Nat.not_lt_zero _)
  | cons c t =>
    by_cases hc : c = 93
    · subst hc
      rw [Jp.arr, hws] at h
      obtain ⟨rfl, rfl⟩ := Prod.mk.inj (Option.some.inj h)
      rw [Jp.arr, ws_append_of_cons hws [b]]
      exact .inl rfl
    · rw [Jp.arr_succ hws hc] at h
      rw [Jp.arr_succ (ws_append_of_cons hws [b]) hc]
      exact ih.items [] s x r h

theorem AllClosed.obj_succ (ih : AllClosed b fuel) : Closed b (Jp.obj (fuel + 1)) := by
  intro s x r h
  cases hws : ws s with
  | nil =>
    rw [Jp.obj, hws] at h
    exact absurd ((allShrink fuel).members [] h) (Nat.not_lt_zero _)
  | cons c t =>
    by_cases hc : c = 125
    · subst hc
      rw [Jp.obj, hws] at h
      obtain ⟨rfl, rfl⟩ := Prod.mk.inj (Option.some.inj h)
      rw [Jp.obj, ws_append_of_cons hws [b]]
      exact .inl rfl
    · rw [Jp.obj_succ hws hc] at h
      rw [Jp.obj_succ (ws_append_of_cons hws [b]) hc]
      exact ih.members [] s x r h

/-- A value that a delimiter follows. -/
theorem AllClosed.val_before (ih : AllClosed b fuel) {c : UInt8} {t : Bytes}
    (h : Jp.val fuel s = some (x, r)) (hws : ws r = c :: t) (hc : isDelimiter c = true) :
    Jp.val fuel (s ++ [b]) = some (x, r ++ [b]) ∨ Jp.val fuel (s ++ [b]) = none :=
  ih.val s x r h fun _ _ ↦ exists_delimiter hws hc

theorem AllClosed.items_succ (ih : AllClosed b fuel) (xs : List J) :
    Closed b (Jp.items (fuel + 1) xs) := by
  intro s x r h
  obtain ⟨y, r₁, hval, ⟨r₂, hws, hrest⟩ | ⟨hws, rfl⟩⟩ := items_eq_some h
  · rcases ih.val_before hval hws (by decide) with hsome | hnone
    · rw [items_next hsome (ws_append_of_cons hws [b])]
      exact ih.items _ r₂ x r hrest
    · exact .inr (by rw [Jp.items, hnone])
  · rcases ih.val_before hval hws (by decide) with hsome | hnone
    · exact .inl (items_last hsome (ws_append_of_cons hws [b]))
    · exact .inr (by rw [Jp.items, hnone])

theorem AllClosed.members_succ (ih : AllClosed b fuel) (kvs : List (Bytes × J)) :
    Closed b (Jp.members (fuel + 1) kvs) := by
  intro s x r h
  obtain ⟨k, r₀, r₁, y, r₂, hkey, hcolon, hval, hend⟩ := members_eq_some h
  have hwsb : ws (s ++ [b]) = ws s ++ [b] := by
    cases hws : ws s with
    | nil =>
      rw [hws] at hkey
      exact nomatch hkey
    | cons c t => exact ws_append_of_cons hws [b]
  rcases closed_str (b := b) (ws s) k r₀ hkey with hkey' | hkey'
  · rw [← hwsb] at hkey'
    have hcolon' := ws_append_of_cons hcolon [b]
    rcases hend with ⟨r₃, hws, hrest⟩ | ⟨hws, rfl⟩
    · rcases ih.val_before hval hws (by decide) with hsome | hnone
      · rw [members_next hkey' hcolon' hsome (ws_append_of_cons hws [b])]
        exact ih.members _ r₃ x r hrest
      · exact .inr (by simp only [Jp.members, hkey', hcolon', hnone])
    · rcases ih.val_before hval hws (by decide) with hsome | hnone
      · exact .inl (members_last hkey' hcolon' hsome (ws_append_of_cons hws [b]))
      · exact .inr (by simp only [Jp.members, hkey', hcolon', hnone])
  · exact .inr (by rw [Jp.members, hwsb, hkey'])

theorem allClosed (b : UInt8) (fuel : ℕ) : AllClosed b fuel := by
  induction fuel with
  | zero =>
    exact ⟨fun _ x r h _ ↦ absurd h.symm (Option.some_ne_none (x, r)), fun _ ↦ extends_none,
      fun _ _ ↦ extends_none, fun _ ↦ extends_none, fun _ _ ↦ extends_none⟩
  | succ fuel ih =>
    exact ⟨fun s x r h hx ↦ ih.val_succ h hx, ih.arr_succ, ih.items_succ, ih.obj_succ,
      ih.members_succ⟩

/-- **A byte that is appended is not taken**: a text that was accepted is refused with it, unless it
is a number or the byte is white space. -/
theorem jparse_append {j : J} (h : jparse s = some j) (hj : ∀ d, j ≠ .num d) (hb : isWs b = false) :
    jparse (s ++ [b]) = none := by
  rw [jparse] at h
  obtain ⟨⟨x, r⟩, hval, hend⟩ := Option.bind_eq_some_iff.mp h
  split_ifs at hend with hws
  obtain rfl := Option.some.inj hend
  have hfuel : 3 * s.length + 1 ≤ 3 * (s ++ [b]).length + 1 := by
    rw [List.length_append]
    omega
  rw [← val_eq_of_le hfuel] at hval
  rw [jparse]
  rcases (allClosed b _).val s x r hval fun d hd ↦ absurd hd (hj d) with hsome | hnone
  · have hleft : ws (r ++ [b]) = [b] := by
      have hblank : Blank r := List.dropWhile_eq_nil_iff.mp hws
      rw [ws_append hblank, ws_cons hb]
    rw [hsome, Option.bind_some, if_neg]
    dsimp only
    rw [hleft]
    exact List.cons_ne_nil b []
  · rw [hnone]
    rfl

end Readers

end Jp

end Shrt
