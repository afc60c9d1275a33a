import Shrt.App.Handle
import Shrt.App.JsonText

/-!
# Strings in request bodies

How a client may write a string, and what `str` makes of it. Between the quotes stand pieces, and
`str` reads them one by one: `Decodes` says what becomes of a piece, whatever follows it.

When strings are escaped with `\"`, `\\`, `\n`, `\r` and `\t` only, every text of a value is read as
that value (`jparse_faithful`). The standard has more escapes. A character may be written as `\u`
and the hexadecimal digits of its UTF-16 code units, for each of which `str` puts a question mark,
and the short escapes of backspace and form feed are taken for their letters. `str_literal_iff` says
which literals come out as the bytes of what they denote: those without such escapes, the question
mark itself apart.
-/

namespace Shrt

open Jp (Blank Written ReadsTokens isWs str strTail strTail_plain strTail_escape)

/-! ## Pieces of a literal -/

/-- A piece of a literal is read as these bytes. -/
def Decodes (t out : Bytes) : Prop :=
  ∀ r, strTail (t ++ r) = (strTail r).map fun p ↦ (out ++ p.1, p.2)

theorem decodes_nil : Decodes [] [] := fun r ↦ by simp

theorem Decodes.append {t out t' out' : Bytes} (h : Decodes t out) (h' : Decodes t' out') :
    Decodes (t ++ t') (out ++ out') := by
  intro r
  rw [List.append_assoc, h, h', Option.map_map]
  simp only [Function.comp_def, List.append_assoc]

/-- A literal with its quotes. -/
def quoted (t : Bytes) : Bytes := 34 :: (t ++ [34])

theorem Decodes.str_quoted {t out : Bytes} (h : Decodes t out) (r : Bytes) :
    str (quoted t ++ r) = some (out, r) := by
  change strTail ((t ++ [34]) ++ r) = _
  rw [List.append_assoc, h]
  change some (out ++ [], r) = _
  rw [List.append_nil]

theorem decodes_plain {b : UInt8} (hquote : b ≠ 34) (hescape : b ≠ 92) : Decodes [b] [b] :=
  strTail_plain hquote hescape

theorem decodes_escape {b : UInt8} (hu : b ≠ 117) (hn : b ≠ 110) (hr : b ≠ 114) (ht : b ≠ 116) :
    Decodes [92, b] [b] :=
  strTail_escape hu hn hr ht

/-- Bytes that stand for themselves. -/
theorem decodes_of_forall {t : Bytes} (h : ∀ b ∈ t, b ≠ 34 ∧ b ≠ 92) : Decodes t t := by
  induction t with
  | nil => exact decodes_nil
  | cons b t ih =>
    obtain ⟨hb, ht⟩ := List.forall_mem_cons.mp h
    exact (decodes_plain hb.1 hb.2).append (ih ht)

/-! ## Values with simple escapes -/

/-- The ways to write a byte with simple escapes. -/
inductive Escaped : UInt8 → Bytes → Prop
  | plain {b : UInt8} (hquote : b ≠ 34) (hescape : b ≠ 92) : Escaped b [b]
  | quote : Escaped 34 (lit "\\\"")
  | backslash : Escaped 92 (lit "\\\\")
  | newline : Escaped 10 (lit "\\n")
  | carriage : Escaped 13 (lit "\\r")
  | tab : Escaped 9 (lit "\\t")

/-- The ways to write a string with simple escapes. -/
inductive EscapedText : Bytes → Bytes → Prop
  | nil : EscapedText [] []
  | cons {b : UInt8} {s p t : Bytes} (h : Escaped b p) (hs : EscapedText s t) :
    EscapedText (b :: s) (p ++ t)

/-- A string between quotes. -/
def SimpleString (s t : Bytes) : Prop := ∃ u, EscapedText s u ∧ t = quoted u

theorem Escaped.decodes {b : UInt8} {p : Bytes} (h : Escaped b p) : Decodes p [b] := by
  cases h with
  | plain hquote hescape => exact decodes_plain hquote hescape
  | quote | backslash => exact decodes_escape (by decide) (by decide) (by decide) (by decide)
  | newline | carriage | tab => exact fun r ↦ rfl

theorem EscapedText.decodes {s t : Bytes} (h : EscapedText s t) : Decodes t s := by
  induction h with
  | nil => exact decodes_nil
  | cons h _ ih => exact h.decodes.append ih

theorem readsTokens_simpleString : ReadsTokens SimpleString := by
  rintro s t ⟨u, hu, rfl⟩ r
  exact hu.decodes.str_quoted r

/-- **The structure of values is read faithfully.** Every text of a value, with any white space and
with strings that are escaped simply, is accepted as that value. And every text that is accepted,
whatever it is, is refused with a byte more that is not white space, unless it is a number. -/
theorem jparse_faithful :
    (∀ j t w w', Blank w → Blank w' → Written SimpleString (.val j) t →
      jparse (w ++ (t ++ w')) = some j) ∧
    ∀ s j b, jparse s = some j → isWs b = false → (∀ d, j ≠ .num d) → jparse (s ++ [b]) = none :=
  ⟨fun _ _ _ _ hw hw' h ↦ Jp.jparse_written readsTokens_simpleString hw hw' h,
    fun _ _ _ h hb hj ↦ Jp.jparse_append h hj hb⟩

/-! ## Literals of the standard -/

/-- The bytes of a string. -/
def utf8 (s : List Char) : Bytes := s.flatMap String.utf8EncodeChar

/-- Four hexadecimal digits, of either case, for a number. -/
def Hex4 (v : ℕ) (ds : Bytes) : Prop :=
  ∃ a b c d, ds = [a, b, c, d] ∧ hexVal a = some (v / 4096) ∧ hexVal b = some (v / 256 % 16) ∧
    hexVal c = some (v / 16 % 16) ∧ hexVal d = some (v % 16)

/-- The ways to write a character: unescaped, with a short escape, with the digits of its code, or,
from `10000` on, with those of a surrogate pair. -/
inductive Spelled : Char → Bytes → Prop
  | plain {c : Char} (h : 32 ≤ c.toNat) (hquote : c ≠ '"') (hescape : c ≠ '\\') :
    Spelled c (String.utf8EncodeChar c)
  | quote : Spelled '"' (lit "\\\"")
  | backslash : Spelled '\\' (lit "\\\\")
  | slash : Spelled '/' (lit "\\/")
  | backspace : Spelled '\x08' (lit "\\b")
  | formFeed : Spelled '\x0c' (lit "\\f")
  | newline : Spelled '\n' (lit "\\n")
  | carriage : Spelled '\r' (lit "\\r")
  | tab : Spelled '\t' (lit "\\t")
  | code {c : Char} {ds : Bytes} (h : Hex4 c.toNat ds) : Spelled c (lit "\\u" ++ ds)
  | pair {c : Char} {hi lo : Bytes} (h : 65536 ≤ c.toNat)
    (hhi : Hex4 (55296 + (c.toNat - 65536) / 1024) hi)
    (hlo : Hex4 (56320 + (c.toNat - 65536) % 1024) lo) :
    Spelled c (lit "\\u" ++ hi ++ (lit "\\u" ++ lo))

/-- A piece that comes out as the bytes of the character: it is neither the escape of a backspace
nor of a form feed, and only a question mark is written by its code. -/
def Kept (p : Char × Bytes) : Prop :=
  p.2 ≠ lit "\\b" ∧ p.2 ≠ lit "\\f" ∧ (lit "\\u" <+: p.2 → p.1 = '?')

instance (p : Char × Bytes) : Decidable (Kept p) :=
  inferInstanceAs (Decidable (_ ∧ _ ∧ (_ → _)))

/-! ### The bytes of a character -/

theorem utf8EncodeChar_of_le {c : Char} (h : c.toNat ≤ 127) :
    String.utf8EncodeChar c = [UInt8.ofNat c.toNat] := if_pos h

/-- The bytes of a character that is not ASCII are not ASCII either. -/
theorem le_toNat_of_mem_utf8EncodeChar {c : Char} (h : 127 < c.toNat) {b : UInt8}
    (hb : b ∈ String.utf8EncodeChar c) : 128 ≤ b.toNat := by
  have hbyte : ∀ {n : ℕ}, 128 ≤ n → n < 256 → b = UInt8.ofNat n → 128 ≤ b.toNat := by
    rintro n hlo hhi rfl
    rw [UInt8.toNat_ofNat', Nat.mod_eq_of_lt hhi]
    exact hlo
  have h' : ¬ c.val.toNat ≤ 127 := Nat.not_le.mpr h
  simp only [String.utf8EncodeChar, h', if_false] at hb
  split_ifs at hb <;> simp only [List.mem_cons, List.not_mem_nil, or_false] at hb
  · rcases hb with hb | hb
    · exact hbyte (by omega) (by omega) hb
    · exact hbyte (by omega) (by omega) hb
  · rcases hb with hb | hb | hb
    · exact hbyte (by omega) (by omega) hb
    · exact hbyte (by omega) (by omega) hb
    · exact hbyte (by omega) (by omega) hb
  · rcases hb with hb | hb | hb | hb
    · exact hbyte (by omega) (by omega) hb
    · exact hbyte (by omega) (by omega) hb
    · exact hbyte (by omega) (by omega) hb
    · exact hbyte (by omega) (by omega) hb

/-- An ASCII byte occurs in no character but its own. -/
theorem eq_of_mem_utf8EncodeChar {c d : Char} (hd : d.toNat ≤ 127)
    (h : UInt8.ofNat d.toNat ∈ String.utf8EncodeChar c) : c = d := by
  have hbyte : (UInt8.ofNat d.toNat).toNat = d.toNat := by
    rw [UInt8.toNat_ofNat']
    omega
  rcases Nat.lt_or_ge 127 c.toNat with hlt | hle
  · have hbad := le_toNat_of_mem_utf8EncodeChar hlt h
    omega
  · rw [utf8EncodeChar_of_le hle, List.mem_singleton] at h
    have hnat := congrArg UInt8.toNat h
    rw [hbyte, UInt8.toNat_ofNat'] at hnat
    exact Char.toNat_inj.mp (by omega)

/-! ### What becomes of a piece -/

theorem decodes_code {v : ℕ} {ds : Bytes} (h : Hex4 v ds) : Decodes (lit "\\u" ++ ds) [63] := by
  obtain ⟨a, b, c, d, rfl, -⟩ := h
  exact fun r ↦ rfl

/-- A piece that begins with `\u` is kept when it is a question mark. -/
theorem kept_iff_of_code {c : Char} {t : Bytes} : Kept (c, lit "\\u" ++ t) ↔ c = '?' := by
  constructor
  · exact fun h ↦ h.2.2 (List.prefix_append _ t)
  · rintro rfl
    refine ⟨?_, ?_, fun _ ↦ rfl⟩
    · exact fun heq ↦ absurd (List.cons.inj (List.cons.inj heq).2).1 (by decide)
    · exact fun heq ↦ absurd (List.cons.inj (List.cons.inj heq).2).1 (by decide)

/-- A piece is read as no more bytes than its character has, and as those bytes exactly when it is
kept. -/
theorem Spelled.decodes {c : Char} {t : Bytes} (h : Spelled c t) : ∃ out, Decodes t out ∧
    out.length ≤ (String.utf8EncodeChar c).length ∧
    (out = String.utf8EncodeChar c ↔ Kept (c, t)) := by
  have hquestion : 63 ∈ String.utf8EncodeChar c → c = '?' :=
    eq_of_mem_utf8EncodeChar (d := '?') (by decide)
  cases h with
  | plain hc hquote hescape =>
    have hno : 92 ∉ String.utf8EncodeChar c := fun hmem ↦
      hescape (eq_of_mem_utf8EncodeChar (d := '\\') (by decide) hmem)
    have hplain : ∀ b ∈ String.utf8EncodeChar c, b ≠ 34 ∧ b ≠ 92 := by
      refine fun b hb ↦ ⟨?_, ?_⟩
      · rintro rfl
        exact hquote (eq_of_mem_utf8EncodeChar (d := '"') (by decide) hb)
      · rintro rfl
        exact hno hb
    refine ⟨_, decodes_of_forall hplain, Nat.le_refl _, iff_of_true rfl ⟨?_, ?_, ?_⟩⟩
    · exact fun heq : String.utf8EncodeChar c = lit "\\b" ↦ hno (heq ▸ List.mem_cons_self)
    · exact fun heq : String.utf8EncodeChar c = lit "\\f" ↦ hno (heq ▸ List.mem_cons_self)
    · exact fun hpre ↦ absurd (hpre.subset List.mem_cons_self) hno
  | quote =>
    exact ⟨[34], decodes_escape (by decide) (by decide) (by decide) (by decide), by decide, by decide⟩
  | backslash =>
    exact ⟨[92], decodes_escape (by decide) (by decide) (by decide) (by decide), by decide, by decide⟩
  | slash =>
    exact ⟨[47], decodes_escape (by decide) (by decide) (by decide) (by decide), by decide, by decide⟩
  | backspace =>
    exact ⟨[98], decodes_escape (by decide) (by decide) (by decide) (by decide), by decide, by decide⟩
  | formFeed =>
    exact ⟨[102], decodes_escape (by decide) (by decide) (by decide) (by decide), by decide, by decide⟩
  | newline => exact ⟨[10], fun r ↦ rfl, by decide, by decide⟩
  | carriage => exact ⟨[13], fun r ↦ rfl, by decide, by decide⟩
  | tab => exact ⟨[9], fun r ↦ rfl, by decide, by decide⟩
  | code hds =>
    refine ⟨[63], decodes_code hds, List.length_pos_of_ne_nil String.utf8EncodeChar_ne_nil, ?_⟩
    rw [kept_iff_of_code]
    constructor
    · exact fun heq ↦ hquestion (heq ▸ List.mem_cons_self)
    · rintro rfl
      decide
  | pair hc hhi hlo =>
    -- A character that takes a pair has four bytes, and two question marks are read.
    have hne : c ≠ '?' := by
      rintro rfl
      exact absurd hc (by decide)
    have hlen : [63, 63].length ≤ (String.utf8EncodeChar c).length := by
      have hsize : ¬ c.toNat ≤ 127 ∧ ¬ c.toNat ≤ 2047 ∧ ¬ c.toNat ≤ 65535 := by omega
      simp [String.utf8EncodeChar, hsize]
    refine ⟨[63, 63], (decodes_code hhi).append (decodes_code hlo), hlen, ?_⟩
    rw [List.append_assoc, kept_iff_of_code]
    exact iff_of_false (fun heq ↦ hne (hquestion (heq ▸ List.mem_cons_self))) hne

/-! ### Whole literals -/

/-- The text between the quotes. -/
def spelling (ps : List (Char × Bytes)) : Bytes := ps.flatMap Prod.snd

/-- What it denotes. -/
def denoted (ps : List (Char × Bytes)) : Bytes := utf8 (ps.map Prod.fst)

/-- Shorter lists that make up the same are the same. -/
theorem append_eq_append_iff_of_le {a b c d : Bytes} (hac : a.length ≤ c.length)
    (hbd : b.length ≤ d.length) : a ++ b = c ++ d ↔ a = c ∧ b = d := by
  constructor
  · intro h
    have hlen := congrArg List.length h
    rw [List.length_append, List.length_append] at hlen
    exact List.append_inj h (by omega)
  · rintro ⟨rfl, rfl⟩
    rfl

/-- Pieces are read one after another. As none comes out longer than it should, the whole is right
exactly when every piece is. -/
theorem decodes_spelling {ps : List (Char × Bytes)} (h : ∀ p ∈ ps, Spelled p.1 p.2) :
    ∃ out, Decodes (spelling ps) out ∧ out.length ≤ (denoted ps).length ∧
      (out = denoted ps ↔ ∀ p ∈ ps, Kept p) := by
  induction ps with
  | nil => exact ⟨[], decodes_nil, Nat.le_refl _, iff_of_true rfl nofun⟩
  | cons p ps ih =>
    obtain ⟨hp, hps⟩ := List.forall_mem_cons.mp h
    obtain ⟨out, hout, hlen, hiff⟩ := hp.decodes
    obtain ⟨out', hout', hlen', hiff'⟩ := ih hps
    have hdenoted : denoted (p :: ps) = String.utf8EncodeChar p.1 ++ denoted ps := by
      rw [denoted, utf8, List.map_cons, List.flatMap_cons]
      rfl
    refine ⟨out ++ out', hout.append hout', ?_, ?_⟩
    · rw [hdenoted, List.length_append, List.length_append]
      exact Nat.add_le_add hlen hlen'
    · rw [hdenoted, append_eq_append_iff_of_le hlen hlen', hiff, hiff', List.forall_mem_cons]

/-- The body of a request to shorten a url. -/
def urlBody (t : Bytes) : Bytes := lit "\x7b\"url\":" ++ (quoted t ++ lit "\x7d")

/-- A string between quotes, however it is written. -/
inductive DecodedString : Bytes → Bytes → Prop
  | mk {t out : Bytes} (h : Decodes t out) : DecodedString out (quoted t)

theorem readsTokens_decodedString : ReadsTokens DecodedString := by
  rintro s u ⟨h⟩ r
  exact h.str_quoted r

theorem jparse_urlBody {t out : Bytes} (h : Decodes t out) :
    jparse (urlBody t) = some (.obj [(lit "url", .str out)]) := by
  have hkey : Decodes (lit "url") (lit "url") := decodes_of_forall (by decide +kernel)
  have hnil : Blank [] := nofun
  have hwritten := Written.obj (.lastMember hnil (DecodedString.mk hkey) hnil hnil
    (.str (DecodedString.mk h)) hnil)
  have htext : urlBody t = [] ++ (123 :: ([] ++ (quoted (lit "url") ++ ([] ++ 58 :: ([] ++ (quoted t ++
      ([] ++ [125])))))) ++ []) := by
    simp [urlBody, quoted, show lit "\x7b\"url\":" = 123 :: 34 :: (lit "url" ++ [34, 58]) by decide,
      show lit "\x7d" = [125] by decide]
  rw [htext]
  exact Jp.jparse_written readsTokens_decodedString hnil hnil hwritten

/-- **Which literals are decoded faithfully.** A literal, cut into the pieces that write its
characters, is read as the bytes of its characters, up to its closing quote, exactly when every
piece is kept. The same goes for the url that `POST /api/shorten` takes from the literal. -/
theorem str_literal_iff {ps : List (Char × Bytes)} (h : ∀ p ∈ ps, Spelled p.1 p.2) :
    (∀ r, str (quoted (spelling ps) ++ r) = some (denoted ps, r) ↔ ∀ p ∈ ps, Kept p) ∧
      ((jparse (urlBody (spelling ps))).bind (·.find (lit "url")) = some (.str (denoted ps)) ↔
        ∀ p ∈ ps, Kept p) := by
  obtain ⟨out, hout, -, hiff⟩ := decodes_spelling h
  constructor
  · intro r
    rw [hout.str_quoted, ← hiff, Option.some.injEq, Prod.mk.injEq, and_iff_left rfl]
  · have hfind : (J.obj [(lit "url", .str out)]).find (lit "url") = some (.str out) := by
      simp [J.find]
    rw [jparse_urlBody hout, Option.bind_some, hfind, ← hiff, Option.some.injEq, J.str.injEq]

/-- A slash with an escape and a question mark by its code. -/
def slashQuestion : List (Char × Bytes) :=
  [('h', lit "h"), ('/', lit "\\/"), ('?', lit "\\u003f")]

theorem str_literal_iff_slashQuestion :
    str (lit "\"h\\/\\u003f\"x") = some (lit "h/?", lit "x") := by
  have hspelled : ∀ p ∈ slashQuestion, Spelled p.1 p.2 := by
    refine List.forall_mem_cons.mpr ⟨.plain (by decide) (by decide) (by decide), ?_⟩
    refine List.forall_mem_cons.mpr ⟨.slash, List.forall_mem_singleton.mpr (.code ?_)⟩
    exact ⟨48, 48, 51, 102, by decide⟩
  exact ((str_literal_iff hspelled).1 (lit "x")).mpr (by decide)

/-- An ampersand by its code is read as a question mark. -/
theorem str_ampersand_lost : Spelled '&' (lit "\\u0026") ∧ utf8 ['&'] = lit "&" ∧
    str (lit "\"\\u0026\"") = some (lit "?", []) :=
  ⟨.code ⟨48, 48, 50, 54, by decide⟩, by decide, by decide⟩

end Shrt
