import Shrt.App.Server

/-!
# Spellings of header names

The names of header fields are to be read without regard to the case of their letters. `parse_req`
compares them with two spellings each. `Respelled` says what it means to change the case of names in
a head and of nothing else, for a given relation of spellings, and `respelled_same_iff` says for
which relations the change makes no difference: those that never lead from one of the two spellings
of a name to a third one.

A head is a `RequestHead`, whose parts hold no separator that would make them something else. Its
bytes are read as they were put together (`parseHead_text`, `cutAt_bytes`).
-/

namespace Shrt

/-! ## The names that matter -/

/-- The fields that `parse_req` looks at. -/
inductive Field where
  | contentLength
  | connection
  | adminToken
  | forwardedFor
  deriving DecidableEq

/-- Which field a name is for, in the spellings that are compared. -/
def field (k : Bytes) : Option Field :=
  if k = lit "content-length" ∨ k = lit "Content-Length" then some .contentLength
  else if k = lit "connection" ∨ k = lit "Connection" then some .connection
  else if k = lit "x-admin-token" ∨ k = lit "X-Admin-Token" then some .adminToken
  else if k = lit "x-forwarded-for" ∨ k = lit "X-Forwarded-For" then some .forwardedFor
  else none

/-- What a field with its value changes. -/
def Field.set (p : ReqInfo × UInt64) (v : Bytes) : Field → ReqInfo × UInt64
  | contentLength => (p.1, (strtoll v).toUInt64)
  | connection => ({ p.1 with alive := !(v = lit "close" || v = lit "Close") }, p.2)
  | adminToken => ({ p.1 with admin := v }, p.2)
  | forwardedFor => ({ p.1 with xff := v }, p.2)

/-- A header line does what its field does. -/
theorem header_eq (p : ReqInfo × UInt64) {k : Bytes} (hk : colon ∉ k) (v : Bytes) :
    header p (k ++ colon :: v) = ((field k).map (Field.set p (trim v))).getD p := by
  have hcut : cutAt [colon] (k ++ colon :: v) = some (k, v) := by
    rw [← cutAt_singleton hk v, List.append_assoc]
    rfl
  rw [header, hcut, field]
  dsimp only
  split_ifs
  · rfl
  · rfl
  · rfl
  · rfl
  · rfl

/-- A letter in lower case. -/
def lower (b : UInt8) : UInt8 := if 65 ≤ b ∧ b ≤ 90 then b + 32 else b

/-- Texts that differ in the case of letters only. -/
def SameLetters (k k' : Bytes) : Prop := k.map lower = k'.map lower

instance (k k' : Bytes) : Decidable (SameLetters k k') := inferInstanceAs (Decidable (_ = _))

/-- The name of a field in lower case. -/
def Field.name : Field → Bytes
  | contentLength => lit "content-length"
  | connection => lit "connection"
  | adminToken => lit "x-admin-token"
  | forwardedFor => lit "x-forwarded-for"

theorem map_lower_of_field {k : Bytes} {f : Field} (h : field k = some f) : k.map lower = f.name := by
  rw [field] at h
  split_ifs at h with hlen hconn hadmin hxff
  · obtain rfl := Option.some.inj h
    rcases hlen with rfl | rfl <;> decide
  · obtain rfl := Option.some.inj h
    rcases hconn with rfl | rfl <;> decide
  · obtain rfl := Option.some.inj h
    rcases hadmin with rfl | rfl <;> decide
  · obtain rfl := Option.some.inj h
    rcases hxff with rfl | rfl <;> decide

/-- Two spellings of a name are for the same field, unless one of them is not compared with. -/
theorem field_eq_of_sameLetters {k k' : Bytes} {f f' : Field} (h : SameLetters k k')
    (hk : field k = some f) (hk' : field k' = some f') : f = f' := by
  have hname : f.name = f'.name := by
    rw [← map_lower_of_field hk, ← map_lower_of_field hk']
    exact h
  revert hname
  cases f <;> cases f' <;> decide

/-! ## Heads -/

/-- A text without a line end. -/
def OneLine (s : Bytes) : Prop := ¬ CRLF <:+: s

instance (s : Bytes) : Decidable (OneLine s) := inferInstanceAs (Decidable (¬ CRLF <:+: s))

/-- The head of a request: a method, a path and a version, and header lines. -/
structure RequestHead where
  method : Bytes
  path : Bytes
  version : Bytes
  lines : List Bytes
  method_ok : OneLine method ∧ 32 ∉ method
  path_ok : OneLine path ∧ 32 ∉ path
  version_ok : OneLine version
  lines_ok : ∀ l ∈ lines, l ≠ [] ∧ OneLine l

namespace RequestHead

/-- The request line. -/
def first (h : RequestHead) : Bytes := h.method ++ [32] ++ (h.path ++ [32] ++ h.version)

/-- The head as it is sent, up to the empty line. -/
def text (h : RequestHead) : Bytes := h.first ++ h.lines.flatMap (CRLF ++ ·)

/-- The head as it is sent. -/
def bytes (h : RequestHead) : Bytes := h.text ++ CRLF ++ CRLF

end RequestHead

/-- A text across a byte that it does not hold lies on one side of it. -/
theorem infix_append_cons {pat a c : Bytes} {b : UInt8} (hb : b ∉ pat)
    (h : pat <:+: a ++ b :: c) : pat <:+: a ∨ pat <:+: c := by
  obtain ⟨s, t, heq⟩ := h
  rw [List.append_assoc] at heq
  rcases List.append_eq_append_iff.mp heq with ⟨a', rfl, htail⟩ | ⟨c', rfl, htail⟩
  · -- The text begins before the byte.
    rcases List.append_eq_append_iff.mp htail with ⟨d, rfl, -⟩ | ⟨d, rfl, hcons⟩
    · exact .inl ⟨s, d, by rw [List.append_assoc]⟩
    · cases d with
      | nil => exact .inl ⟨s, [], by simp⟩
      | cons x d =>
        obtain ⟨rfl, -⟩ := List.cons.inj hcons
        exact absurd (List.mem_append_right a' List.mem_cons_self) hb
  · cases c' with
    | nil =>
      cases pat with
      | nil => exact .inl (List.nil_infix)
      | cons x pat =>
        obtain ⟨rfl, -⟩ := List.cons.inj htail
        exact absurd List.mem_cons_self hb
    | cons x c' =>
      obtain ⟨-, hc⟩ := List.cons.inj htail
      exact .inr ⟨c', t, by rw [List.append_assoc, hc]; rfl⟩

theorem oneLine_append_cons {a c : Bytes} {b : UInt8} (hb : b ∉ CRLF) (ha : OneLine a)
    (hc : OneLine c) : OneLine (a ++ b :: c) := fun h ↦ (infix_append_cons hb h).elim ha hc

theorem RequestHead.oneLine_first (h : RequestHead) : OneLine h.first := by
  rw [first, List.append_assoc, List.append_assoc]
  exact oneLine_append_cons (by decide) h.method_ok.1
    (oneLine_append_cons (by decide) h.path_ok.1 h.version_ok)

/-! ### The end of the head -/

/-- The search for an empty line passes a line that another one follows. -/
theorem cutAt_blank_line {s t : Bytes} (hs : OneLine s) : cutAt (CRLF ++ CRLF) (s ++ CRLF ++ t) =
    if CRLF <+: t then some (s, t.drop 2)
    else (cutAt (CRLF ++ CRLF) t).map fun p ↦ (s ++ CRLF ++ p.1, p.2) := by
  induction s with
  | nil =>
    have hiff : CRLF ++ CRLF <+: 13 :: 10 :: t ↔ CRLF <+: t :=
      List.prefix_append_right_inj CRLF
    have hno : ¬ CRLF ++ CRLF <+: 10 :: t := fun h ↦ absurd (List.cons_prefix_cons.mp h).1 (by decide)
    change cutAt _ (13 :: 10 :: t) = _
    rw [cutAt, cutAt, if_neg hno, Option.map_map]
    simp only [hiff]
    rfl
  | cons b s ih =>
    have hs' : OneLine s := fun hin ↦ hs (hin.trans (List.suffix_cons b s).isInfix)
    have hno : ¬ CRLF ++ CRLF <+: b :: (s ++ CRLF ++ t) :=
      fun h ↦ not_crlf_begins hs t ((List.prefix_append CRLF CRLF).trans h)
    rw [List.cons_append, List.cons_append, cutAt, if_neg hno, ih hs']
    split_ifs
    · rfl
    · rw [Option.map_map]
      rfl

/-- A line that is not empty does not begin with a line end, whatever lines follow. -/
theorem not_crlf_begins_lines {b : UInt8} {s : Bytes} (h : OneLine (b :: s)) (ls : List Bytes) :
    ¬ CRLF <+: b :: (s ++ ls.flatMap (CRLF ++ ·)) := by
  cases ls with
  | nil =>
    rw [List.flatMap_nil, List.append_nil]
    exact fun hpre ↦ h hpre.isInfix
  | cons l ls =>
    rw [List.flatMap_cons, ← List.append_assoc, ← List.append_assoc, List.append_assoc _ l]
    exact not_crlf_begins h _

/-- The empty line that ends the head is the first one. -/
theorem cutAt_lines {s : Bytes} (hs : OneLine s) {ls : List Bytes}
    (hls : ∀ l ∈ ls, l ≠ [] ∧ OneLine l) (tail : Bytes) :
    cutAt (CRLF ++ CRLF) (s ++ ls.flatMap (CRLF ++ ·) ++ CRLF ++ CRLF ++ tail)
      = some (s ++ ls.flatMap (CRLF ++ ·), tail) := by
  induction ls generalizing s with
  | nil =>
    have hassoc : s ++ ([] : List Bytes).flatMap (CRLF ++ ·) ++ CRLF ++ CRLF ++ tail
        = s ++ CRLF ++ (CRLF ++ tail) := by
      simp
    rw [hassoc, cutAt_blank_line hs, if_pos (List.prefix_append CRLF tail)]
    simp [CRLF]
  | cons l ls ih =>
    obtain ⟨⟨hne, hl⟩, hls⟩ := List.forall_mem_cons.mp hls
    have hassoc : s ++ (l :: ls).flatMap (CRLF ++ ·) ++ CRLF ++ CRLF ++ tail
        = s ++ CRLF ++ (l ++ ls.flatMap (CRLF ++ ·) ++ CRLF ++ CRLF ++ tail) := by
      simp
    have hno : ¬ CRLF <+: l ++ ls.flatMap (CRLF ++ ·) ++ CRLF ++ CRLF ++ tail := by
      obtain ⟨b, l', rfl⟩ := List.exists_cons_of_ne_nil hne
      have h := not_crlf_begins_lines hl (ls ++ [[], tail])
      simpa using h
    rw [hassoc, cutAt_blank_line hs, if_neg hno, ih hl hls]
    simp

theorem RequestHead.cutAt_bytes (h : RequestHead) (tail : Bytes) :
    cutAt (CRLF ++ CRLF) (h.bytes ++ tail) = some (h.text, tail) :=
  cutAt_lines h.oneLine_first h.lines_ok tail

/-! ### The lines of the head -/

theorem headLines_cons {b : UInt8} {s l : Bytes} {ls : List Bytes} (h : ¬ CRLF <+: b :: s)
    (hs : headLines s = l :: ls) : headLines (b :: s) = (b :: l) :: ls := by
  rw [headLines, hs]
  rintro s' rfl rfl
  exact h ⟨s', rfl⟩

/-- The lines are those that were put together. -/
theorem headLines_append {ls : List Bytes} (hls : ∀ l ∈ ls, OneLine l) {l : Bytes} (hl : OneLine l) :
    headLines (l ++ ls.flatMap (CRLF ++ ·)) = l :: ls := by
  -- The lines are read from the left, each byte by byte.
  induction ls generalizing l with
  | nil =>
    induction l with
    | nil => rfl
    | cons b l ih =>
      have hl' : OneLine l := fun hin ↦ hl (hin.trans (List.suffix_cons b l).isInfix)
      exact headLines_cons (not_crlf_begins_lines hl []) (ih hl')
  | cons l₂ ls ihls =>
    obtain ⟨hl₂, hls⟩ := List.forall_mem_cons.mp hls
    induction l with
    | nil =>
      change [] :: headLines (l₂ ++ ls.flatMap (CRLF ++ ·)) = _
      rw [ihls hls hl₂]
    | cons b l ih =>
      have hl' : OneLine l := fun hin ↦ hl (hin.trans (List.suffix_cons b l).isInfix)
      exact headLines_cons (not_crlf_begins_lines hl (l₂ :: ls)) (ih hl')

namespace RequestHead

/-- What is known of a request from its request line. Without a header line there is no line end
behind the version, and it is not found. -/
def start (h : RequestHead) : ReqInfo where
  method := h.method
  path := h.path
  alive := h.lines ≠ [] && h.version = lit "HTTP/1.1"

theorem parseHead_text (h : RequestHead) :
    parseHead h.text = some (h.lines.foldl header (h.start, 0)) := by
  have hassoc : h.text = h.method ++ [32] ++ (h.path ++ [32] ++
      (h.version ++ h.lines.flatMap (CRLF ++ ·))) := by
    simp only [text, first, List.append_assoc]
  rw [parseHead, hassoc, cutAt_singleton h.method_ok.2]
  simp only [Option.bind_eq_bind, Option.bind_some, cutAt_singleton h.path_ok.2]
  obtain ⟨method, path, version, lines, _, _, hversion, hlines⟩ := h
  cases lines with
  | nil =>
    have hnone : cutAt CRLF version = none := by
      by_contra hsome
      obtain ⟨p, hp⟩ := Option.ne_none_iff_exists'.mp hsome
      exact hversion ⟨p.1, p.2, (cutAt_eq_some hp).symm⟩
    simp only [List.flatMap_nil, List.append_nil, hnone]
    rfl
  | cons l ls =>
    obtain ⟨hl, hls⟩ := List.forall_mem_cons.mp fun l hl ↦ (hlines l hl).2
    rw [List.flatMap_cons, ← List.append_assoc, ← List.append_assoc, List.append_assoc _ l,
      cutAt_crlf hversion]
    simp only [headLines_append hls hl]
    rfl

/-- What is known of a request from its head and the bytes that are there. -/
def info (h : RequestHead) (pos size : ℕ) : ReqInfo :=
  let (ri, cl) := h.lines.foldl header (h.start, 0)
  let bodyLen := if needsBody ri.method then cl else 0
  let total := UInt64.ofNat (h.text.length + 4) + bodyLen
  { ri with
    bodyOff := pos + h.text.length + 4
    bodyLen
    total := if UInt64.ofNat size < total then 0 else total }

theorem parseReq_bytes (h : RequestHead) (before tail : Bytes) :
    parseReq (before ++ (h.bytes ++ tail)) before.length
      = h.info before.length (h.bytes ++ tail).length := by
  rw [parseReq, List.drop_left, h.cutAt_bytes]
  simp only [h.parseHead_text, List.length_append, Nat.add_sub_cancel_left]
  rfl

end RequestHead

/-! ## Other spellings -/

/-- A name can stand before the colon of a header line. -/
def FieldName (k : Bytes) : Prop := colon ∉ k ∧ OneLine k

/-- Lines that are the same, or the same but for the spelling of the name. -/
def RespelledLine (S : Bytes → Bytes → Prop) (l l' : Bytes) : Prop :=
  l = l' ∨ ∃ k k' v, S k k' ∧ l = k ++ colon :: v ∧ l' = k' ++ colon :: v

/-- Heads that are the same but for the spellings of names. -/
structure Respelled (S : Bytes → Bytes → Prop) (h h' : RequestHead) : Prop where
  method_eq : h.method = h'.method
  path_eq : h.path = h'.path
  version_eq : h.version = h'.version
  lines : List.Forall₂ (RespelledLine S) h.lines h'.lines

/-- The relation relates spellings of names. -/
def Spellings (S : Bytes → Bytes → Prop) : Prop :=
  ∀ k k', S k k' → SameLetters k k' ∧ FieldName k ∧ FieldName k'

section

variable {S : Bytes → Bytes → Prop} {h h' : RequestHead}

theorem SameLetters.length_eq {k k' : Bytes} (hk : SameLetters k k') : k.length = k'.length := by
  simpa using congrArg List.length hk

theorem RespelledLine.length_eq (hS : Spellings S) {l l' : Bytes} (hl : RespelledLine S l l') :
    l.length = l'.length := by
  rcases hl with rfl | ⟨k, k', v, hk, rfl, rfl⟩
  · rfl
  · rw [List.length_append, List.length_append, (hS k k' hk).1.length_eq]

theorem length_lines_respelled (hS : Spellings S) {ls ls' : List Bytes}
    (hls : List.Forall₂ (RespelledLine S) ls ls') :
    (ls.flatMap (CRLF ++ ·)).length = (ls'.flatMap (CRLF ++ ·)).length := by
  induction hls with
  | nil => rfl
  | cons hl _ ih =>
    rw [List.flatMap_cons, List.flatMap_cons, List.length_append, List.length_append,
      List.length_append, List.length_append, hl.length_eq hS, ih]

theorem Respelled.length_text (hS : Spellings S) (hh : Respelled S h h') :
    h.text.length = h'.text.length := by
  rw [RequestHead.text, RequestHead.text, List.length_append, List.length_append,
    length_lines_respelled hS hh.lines, RequestHead.first, RequestHead.first, hh.method_eq, hh.path_eq,
    hh.version_eq]

/-- If the relation keeps to the spellings that are compared with, the lines do the same. -/
theorem foldl_header_respelled (hS : Spellings S) (hfield : ∀ k k', S k k' → field k = field k')
    {ls ls' : List Bytes} (hls : List.Forall₂ (RespelledLine S) ls ls') (p : ReqInfo × UInt64) :
    ls.foldl header p = ls'.foldl header p := by
  have hline : ∀ p {l l' : Bytes}, RespelledLine S l l' → header p l = header p l' := by
    rintro p l l' (rfl | ⟨k, k', v, hk, rfl, rfl⟩)
    · rfl
    · obtain ⟨-, hname, hname'⟩ := hS k k' hk
      rw [header_eq p hname.1, header_eq p hname'.1, hfield k k' hk]
  induction hls generalizing p with
  | nil => rfl
  | cons hl _ ih => rw [List.foldl_cons, List.foldl_cons, hline p hl, ih]

theorem Respelled.info_eq (hS : Spellings S) (hfield : ∀ k k', S k k' → field k = field k')
    (hh : Respelled S h h') (pos size : ℕ) : h.info pos size = h'.info pos size := by
  have hnil : h.lines = [] ↔ h'.lines = [] := by
    rw [← List.length_eq_zero_iff, hh.lines.length_eq, List.length_eq_zero_iff]
  have hstart : h.start = h'.start := by
    rw [RequestHead.start, RequestHead.start, hh.method_eq, hh.path_eq, hh.version_eq]
    simp only [ne_eq, hnil]
  rw [RequestHead.info, RequestHead.info, foldl_header_respelled hS hfield hh.lines,
    hh.length_text hS, hstart]

end

/-! ## A head that tells two spellings apart -/

/-- A value of a field that shows. -/
def Field.telling : Field → Bytes
  | contentLength => lit "1"
  | connection => lit "close"
  | adminToken => lit "t"
  | forwardedFor => lit "t"

/-- A head with one line. -/
def posting (l : Bytes) (h : l ≠ [] ∧ OneLine l) : RequestHead where
  method := lit "POST"
  path := lit "/"
  version := lit "HTTP/1.1"
  lines := [l]
  method_ok := ⟨by decide, by decide⟩
  path_ok := ⟨by decide, by decide⟩
  version_ok := by decide
  lines_ok := List.forall_mem_singleton.mpr h

theorem respelled_posting {S : Bytes → Bytes → Prop} {l l' : Bytes} (hl : l ≠ [] ∧ OneLine l)
    (hl' : l' ≠ [] ∧ OneLine l') (h : RespelledLine S l l') :
    Respelled S (posting l hl) (posting l' hl') :=
  ⟨rfl, rfl, rfl, .cons h .nil⟩

/-- A head that shows which field a name is read as. -/
def probe {k : Bytes} (hk : FieldName k) (f : Field) : RequestHead :=
  posting (k ++ colon :: f.telling) <| by
    have htelling : OneLine f.telling := by cases f <;> decide
    exact ⟨by simp, oneLine_append_cons (by decide) hk.2 htelling⟩

/-- What a field can change. -/
def ReqInfo.changed (ri : ReqInfo) : UInt64 × Bool × Bytes × Bytes :=
  (ri.bodyLen, ri.alive, ri.admin, ri.xff)

/-- What the line of the head changes, given which field it is read as. -/
def probed (f : Field) : Option Field → UInt64 × Bool × Bytes × Bytes
  | none => (0, true, [], [])
  | some .contentLength => ((strtoll f.telling).toUInt64, true, [], [])
  | some .connection => (0, !(f.telling = lit "close" || f.telling = lit "Close"), [], [])
  | some .adminToken => (0, true, f.telling, [])
  | some .forwardedFor => (0, true, [], f.telling)

theorem changed_probe {k : Bytes} (hk : FieldName k) (f : Field) (pos size : ℕ) :
    ((probe hk f).info pos size).changed = probed f (field k) := by
  have htrim : trim f.telling = f.telling := by cases f <;> decide
  have hfold : (probe hk f).lines.foldl header ((probe hk f).start, 0) =
      ((field k).map (Field.set ((probe hk f).start, 0) f.telling)).getD ((probe hk f).start, 0) := by
    rw [← htrim]
    exact header_eq _ hk.1 f.telling
  rw [RequestHead.info, hfold]
  cases field k with
  | none => rfl
  | some g => cases g <;> rfl

theorem probed_ne_none (f : Field) : probed f (some f) ≠ probed f none := by
  cases f <;> decide

/-- **When the spelling of names does not matter.** Take any relation between spellings of names.
Changing names by it, in any head and wherever the head stands in the buffer, never changes what
`parse_req` returns exactly when the relation leads from a spelling that is compared with to another
such one, and from others to others. -/
theorem respelled_same_iff {S : Bytes → Bytes → Prop} (hS : Spellings S) :
    (∀ (h h' : RequestHead) (before tail : Bytes), Respelled S h h' →
      parseReq (before ++ (h.bytes ++ tail)) before.length
        = parseReq (before ++ (h'.bytes ++ tail)) before.length) ↔
      ∀ k k', S k k' → field k = field k' := by
  constructor
  · intro hsame k k' hk
    obtain ⟨hletters, hname, hname'⟩ := hS k k' hk
    -- Either spelling is used for the line of a head that shows which field it is read as.
    have hprobe : ∀ f, probed f (field k) = probed f (field k') := by
      intro f
      have hrespelled : Respelled S (probe hname f) (probe hname' f) :=
        respelled_posting _ _ (.inr ⟨k, k', f.telling, hk, rfl, rfl⟩)
      have heq := hsame _ _ [] [] hrespelled
      rw [RequestHead.parseReq_bytes, RequestHead.parseReq_bytes] at heq
      rw [← changed_probe hname f, ← changed_probe hname' f, heq]
    cases hf : field k with
    | some f =>
      cases hf' : field k' with
      | some f' => rw [field_eq_of_sameLetters hletters hf hf']
      | none => exact absurd (hf ▸ hf' ▸ hprobe f) (probed_ne_none f)
    | none =>
      cases hf' : field k' with
      | some f' => exact absurd (hf ▸ hf' ▸ hprobe f').symm (probed_ne_none f')
      | none => rfl
  · intro hfield h h' before tail hh
    have hlen : (h.bytes ++ tail).length = (h'.bytes ++ tail).length := by
      rw [List.length_append, List.length_append, RequestHead.bytes, RequestHead.bytes,
        List.length_append, List.length_append, List.length_append, List.length_append,
        hh.length_text hS]
    rw [RequestHead.parseReq_bytes, RequestHead.parseReq_bytes, hlen, hh.info_eq hS hfield]

/-- The two spellings of the content length. -/
theorem respelled_same_iff_contentLength :
    parseReq (lit "POST / HTTP/1.1\r\ncontent-length: 1\r\n\r\nx") 0
      = parseReq (lit "POST / HTTP/1.1\r\nContent-Length: 1\r\n\r\nx") 0 := by
  have hS : Spellings fun k k' ↦ k = lit "content-length" ∧ k' = lit "Content-Length" := by
    rintro k k' ⟨rfl, rfl⟩
    exact ⟨by decide, ⟨by decide, by decide⟩, by decide, by decide⟩
  have hfield : ∀ k k', k = lit "content-length" ∧ k' = lit "Content-Length" →
      field k = field k' := by
    rintro k k' ⟨rfl, rfl⟩
    decide
  have hlower : lit "POST / HTTP/1.1\r\ncontent-length: 1\r\n\r\nx"
      = [] ++ ((posting (lit "content-length: 1") (by decide)).bytes ++ lit "x") := by
    decide
  have hupper : lit "POST / HTTP/1.1\r\nContent-Length: 1\r\n\r\nx"
      = [] ++ ((posting (lit "Content-Length: 1") (by decide)).bytes ++ lit "x") := by
    decide
  rw [hlower, hupper]
  refine (respelled_same_iff hS).mpr hfield _ _ [] (lit "x") (respelled_posting _ _ (.inr ?_))
  exact ⟨lit "content-length", lit "Content-Length", lit " 1", ⟨rfl, rfl⟩, by decide, by decide⟩

/-- A third spelling: the body is not read as one. -/
theorem respelled_body_lost : SameLetters (lit "Content-Length") (lit "CONTENT-LENGTH") ∧
    (parseReq (lit "POST / HTTP/1.1\r\nContent-Length: 1\r\n\r\nx") 0).bodyLen = 1 ∧
    (parseReq (lit "POST / HTTP/1.1\r\nCONTENT-LENGTH: 1\r\n\r\nx") 0).bodyLen = 0 := by
  decide +kernel

end Shrt
