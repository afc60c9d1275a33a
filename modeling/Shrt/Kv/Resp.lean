import Shrt.Common
import Shrt.Lib.Buffered

/-!
# The reply reader

`read_resp` and the `Reader` under it: replies are read from a buffer that grows as bytes arrive, by
line, by single bytes and by length. `Value` says what a server may send and `encode` how. Whatever
the values and however the bytes are cut, the reader returns the values and stops behind the last of
them (`readAll_encode`).
-/

namespace Shrt.Kv

open Buffered (Source Read Reads Finds)

/-! ## The reader -/

/-- `Resp`. -/
structure Resp where
  kind : UInt8 := 0
  str : Bytes := []
  num : Int64 := 0
  arr : List Resp := []

/-- `Resp::null`. -/
def Resp.null (r : Resp) : Bool := r.kind = 36 && r.num < 0 || r.kind = 42 && r.num < 0

/-- `Reader::byte`. -/
def byte : Read UInt8 UInt8 := Read.await fun s ↦ s.head?.map (·, 1)

/-- `Reader::line`. -/
def line : Read UInt8 Bytes := Read.await fun s ↦ (cutAt CRLF s).map fun p ↦ (p.1, p.1.length + 2)

/-- A line that holds a number; the reader gives up where `std::stoll` throws. -/
def number : Read UInt8 Int64 := do
  match stoll (← line) with
  | some n => return n
  | none => Read.fail

/-- The rest of a simple string or an error. -/
def readText (kind : UInt8) : Read UInt8 Resp := do
  return { kind, str := ← line }

/-- The rest of an integer. -/
def readInt (kind : UInt8) : Read UInt8 Resp := do
  return { kind, num := ← number }

/-- The rest of a bulk string, which is null when its length is negative. -/
def readBulk (kind : UInt8) : Read UInt8 Resp := do
  let num ← number
  if num < 0 then
    return { kind, num }
  else
    let str ← Read.exact (num.toInt.toNat + 2)
    return { kind, num, str := str.take num.toInt.toNat }

/-- The rest of an array, which is null when its length is negative. -/
def readArray (element : Read UInt8 Resp) (kind : UInt8) : Read UInt8 Resp := do
  let num ← number
  if num < 0 then
    return { kind, num }
  else
    return { kind, num, arr := ← Read.times element num.toInt.toNat }

/-- `read_resp`, for values nested no deeper than a bound. -/
def readResp : ℕ → Read UInt8 Resp
  | 0 => Read.fail
  | depth + 1 => do
    let kind ← byte
    if kind = 43 ∨ kind = 45 then readText kind
    else if kind = 58 then readInt kind
    else if kind = 36 then readBulk kind
    else if kind = 42 then readArray (readResp depth) kind
    else Read.fail

/-- `read_resp`. A value takes at least a byte on every level. -/
def readReply : Read UInt8 Resp := fun c ↦ readResp c.rest.length c

/-! ## What a server sends -/

/-- A value of the protocol. -/
inductive Value where
  | simple (s : Bytes)
  | error (s : Bytes)
  | int (n : Int64)
  | bulk (s : Bytes)
  | nullBulk
  | nullArray
  | array (vs : List Value)

mutual

/-- The encoding of a value. -/
def Value.encode : Value → Bytes
  | .simple s => [43] ++ (s ++ CRLF)
  | .error s => [45] ++ (s ++ CRLF)
  | .int n => [58] ++ (itoa n ++ CRLF)
  | .bulk s => [36] ++ ((itoa (Int64.ofNat s.length) ++ CRLF) ++ (s ++ CRLF))
  | .nullBulk => [36] ++ (itoa (-1) ++ CRLF)
  | .nullArray => [42] ++ (itoa (-1) ++ CRLF)
  | .array vs => [42] ++ ((itoa (Int64.ofNat vs.length) ++ CRLF) ++ Value.encodeAll vs)

/-- Values one after another. -/
def Value.encodeAll : List Value → Bytes
  | [] => []
  | v :: vs => v.encode ++ Value.encodeAll vs

end

mutual

/-- The reply that stands for a value. -/
def Value.resp : Value → Resp
  | .simple s => { kind := 43, str := s }
  | .error s => { kind := 45, str := s }
  | .int n => { kind := 58, num := n }
  | .bulk s => { kind := 36, num := Int64.ofNat s.length, str := s }
  | .nullBulk => { kind := 36, num := -1 }
  | .nullArray => { kind := 42, num := -1 }
  | .array vs => { kind := 42, num := Int64.ofNat vs.length, arr := Value.respAll vs }

/-- The replies that stand for values. -/
def Value.respAll : List Value → List Resp
  | [] => []
  | v :: vs => v.resp :: Value.respAll vs

end

mutual

/-- Simple strings and errors hold no line end, and lengths fit an `int64_t`. -/
def Value.Sendable : Value → Prop
  | .simple s => ¬ CRLF <:+: s
  | .error s => ¬ CRLF <:+: s
  | .bulk s => s.length < 2 ^ 63
  | .array vs => vs.length < 2 ^ 63 ∧ Value.AllSendable vs
  | _ => True

/-- The same, of all values. -/
def Value.AllSendable : List Value → Prop
  | [] => True
  | v :: vs => v.Sendable ∧ Value.AllSendable vs

end

theorem Value.encodeAll_eq (vs : List Value) : encodeAll vs = vs.flatMap encode := by
  induction vs with
  | nil => rfl
  | cons v vs ih => rw [encodeAll, ih, List.flatMap_cons]

theorem Value.respAll_eq (vs : List Value) : respAll vs = vs.map resp := by
  induction vs with
  | nil => rfl
  | cons v vs ih => rw [respAll, ih, List.map_cons]

theorem Value.allSendable_iff {vs : List Value} : AllSendable vs ↔ ∀ v ∈ vs, v.Sendable := by
  induction vs with
  | nil => exact iff_of_true trivial nofun
  | cons v vs ih => rw [AllSendable, ih, List.forall_mem_cons]

/-! ## The parts of a reply -/

theorem finds_byte : Finds fun s : Bytes ↦ s.head?.map (·, 1) where
  size := by
    intro s b n h
    obtain ⟨x, hx, heq⟩ := Option.map_eq_some_iff.mp h
    obtain ⟨-, rfl⟩ := Prod.mk.inj heq
    exact List.length_pos_of_ne_nil fun hnil ↦ nomatch (hnil ▸ hx : [].head? = some x)
  append := by
    intro s x t h
    obtain ⟨y, hy, heq⟩ := Option.map_eq_some_iff.mp h
    rw [List.head?_append, hy, ← heq]
    rfl

theorem finds_line : Finds fun s ↦ (cutAt CRLF s).map fun p ↦ (p.1, p.1.length + 2) where
  size := by
    intro s a n h
    obtain ⟨p, hp, heq⟩ := Option.map_eq_some_iff.mp h
    obtain ⟨-, rfl⟩ := Prod.mk.inj heq
    have hlen := congrArg List.length (cutAt_eq_some hp)
    rw [List.length_append, List.length_append, show CRLF.length = 2 from rfl] at hlen
    omega
  append := by
    intro s x t h
    obtain ⟨p, hp, rfl⟩ := Option.map_eq_some_iff.mp h
    rw [cutAt_append t hp]
    rfl

theorem reads_byte (b : UInt8) : Reads byte [b] b := Buffered.reads_await finds_byte fun _ ↦ rfl

theorem reads_line {s : Bytes} (h : ¬ CRLF <:+: s) : Reads line (s ++ CRLF) s := by
  refine Buffered.reads_await finds_line fun r ↦ ?_
  rw [cutAt_crlf h, List.length_append]
  rfl

/-- A printed number holds no line end. -/
theorem not_crlf_infix_itoa (n : Int64) : ¬ CRLF <:+: itoa n := by
  intro h
  have hmem : (13 : UInt8) ∈ itoa n := h.subset (by decide)
  obtain ⟨ds, hds, -, hdig, -⟩ := itoa_eq n
  rw [hds, List.mem_append] at hmem
  rcases hmem with hmem | hmem
  · split_ifs at hmem
    · exact absurd hmem (by decide)
    · exact nomatch hmem
  · exact absurd (hdig _ hmem) (by decide)

theorem reads_number (n : Int64) : Reads number (itoa n ++ CRLF) n := by
  have hline := reads_line (not_crlf_infix_itoa n)
  rw [number, ← List.append_nil (itoa n ++ CRLF)]
  refine hline.bind ?_
  rw [stoll_itoa]
  exact Reads.pure n

/-- A length is read as it is. -/
theorem toNat_ofNat_of_fits {n : ℕ} (h : n < 2 ^ 63) :
    (Int64.ofNat n).toInt.toNat = n ∧ ¬ Int64.ofNat n < 0 := by
  have hval : (Int64.ofNat n).toInt = n := by
    rw [Int64.toInt_ofNat_of_lt h]
  refine ⟨by rw [hval, Int.toNat_natCast], ?_⟩
  rw [Int64.lt_iff_toInt_lt, hval, show (0 : Int64).toInt = 0 from rfl]
  omega

theorem Value.length_encode_pos (v : Value) : 0 < v.encode.length := by
  cases v <;> rw [encode, List.length_append, List.length_singleton] <;> omega

/-- The encodings of the elements lie in that of the array. -/
theorem Value.length_encode_le {v : Value} {vs : List Value} (h : v ∈ vs) :
    v.encode.length ≤ (encodeAll vs).length := by
  rw [encodeAll_eq]
  exact (List.sublist_flatten_of_mem (List.mem_map_of_mem h)).length_le

theorem reads_readText {s : Bytes} (h : ¬ CRLF <:+: s) (kind : UInt8) :
    Reads (readText kind) (s ++ CRLF) { kind, str := s } :=
  (reads_line h).map fun str ↦ ({ kind, str } : Resp)

theorem reads_readInt (n : Int64) (kind : UInt8) :
    Reads (readInt kind) (itoa n ++ CRLF) { kind, num := n } :=
  (reads_number n).map fun num ↦ ({ kind, num } : Resp)

theorem reads_readBulk {s : Bytes} (h : s.length < 2 ^ 63) (kind : UInt8) :
    Reads (readBulk kind) ((itoa (Int64.ofNat s.length) ++ CRLF) ++ (s ++ CRLF))
      { kind, num := Int64.ofNat s.length, str := s } := by
  obtain ⟨hlen, hpos⟩ := toNat_ofNat_of_fits h
  refine (reads_number _).bind ?_
  rw [if_neg hpos, hlen]
  have hbody := Buffered.reads_exact (s ++ CRLF)
  rw [List.length_append, show CRLF.length = 2 from rfl] at hbody
  have hresp := hbody.map fun str : Bytes ↦
    ({ kind, num := Int64.ofNat s.length, str := str.take s.length } : Resp)
  rwa [List.take_left] at hresp

/-- A negative length is all there is to a null value. -/
theorem reads_null {p : Int64 → Read UInt8 Resp} (kind : UInt8) :
    Reads (do let num ← number; if num < 0 then return { kind, num } else p num)
      (itoa (-1) ++ CRLF) { kind, num := -1 } := by
  have hneg : (-1 : Int64) < 0 := by decide
  rw [← List.append_nil (itoa (-1) ++ CRLF)]
  refine (reads_number (-1)).bind ?_
  rw [if_pos hneg]
  exact Reads.pure _

theorem reads_readArray {element : Read UInt8 Resp} {vs : List Value} (h : vs.length < 2 ^ 63)
    (hall : ∀ v ∈ vs, Reads element v.encode v.resp) (kind : UInt8) :
    Reads (readArray element kind) ((itoa (Int64.ofNat vs.length) ++ CRLF) ++ Value.encodeAll vs)
      { kind, num := Int64.ofNat vs.length, arr := Value.respAll vs } := by
  obtain ⟨hlen, hpos⟩ := toNat_ofNat_of_fits h
  refine (reads_number _).bind ?_
  rw [if_neg hpos, hlen, Value.encodeAll_eq, Value.respAll_eq]
  exact (Buffered.reads_times hall).map fun arr ↦
    ({ kind, num := Int64.ofNat vs.length, arr } : Resp)

/-- **A value is read back**, one constructor at a time. -/
theorem reads_readResp : ∀ (depth : ℕ) (v : Value), v.encode.length ≤ depth → v.Sendable →
    Reads (readResp depth) v.encode v.resp := by
  intro depth
  induction depth with
  | zero => exact fun v hle ↦ absurd v.length_encode_pos (by omega)
  | succ depth ih =>
    intro v hle hv
    rw [readResp]
    cases v with
    | simple s =>
      rw [Value.encode, Value.resp]
      refine (reads_byte 43).bind ?_
      rw [if_pos (.inl rfl)]
      exact reads_readText hv 43
    | error s =>
      rw [Value.encode, Value.resp]
      refine (reads_byte 45).bind ?_
      rw [if_pos (.inr rfl)]
      exact reads_readText hv 45
    | int n =>
      rw [Value.encode, Value.resp]
      refine (reads_byte 58).bind ?_
      rw [if_neg (by decide), if_pos rfl]
      exact reads_readInt n 58
    | bulk s =>
      rw [Value.encode, Value.resp]
      refine (reads_byte 36).bind ?_
      rw [if_neg (by decide), if_neg (by decide), if_pos rfl]
      exact reads_readBulk hv 36
    | nullBulk =>
      rw [Value.encode, Value.resp]
      refine (reads_byte 36).bind ?_
      rw [if_neg (by decide), if_neg (by decide), if_pos rfl]
      exact reads_null 36
    | nullArray =>
      rw [Value.encode, Value.resp]
      refine (reads_byte 42).bind ?_
      rw [if_neg (by decide), if_neg (by decide), if_neg (by decide), if_pos rfl]
      exact reads_null 42
    | array vs =>
      obtain ⟨hfits, hall⟩ := hv
      have hshort : ∀ v ∈ vs, v.encode.length ≤ depth := by
        intro v hmem
        have hle' := Value.length_encode_le hmem
        rw [Value.encode, List.length_append, List.length_append, List.length_singleton] at hle
        omega
      rw [Value.encode, Value.resp]
      refine (reads_byte 42).bind ?_
      rw [if_neg (by decide), if_neg (by decide), if_neg (by decide), if_pos rfl]
      refine reads_readArray hfits (fun v hmem ↦ ?_) 42
      exact ih v (hshort v hmem) (Value.allSendable_iff.mp hall v hmem)

theorem reads_readReply {v : Value} (hv : v.Sendable) : Reads readReply v.encode v.resp := by
  intro c r hc hrest
  have hle : v.encode.length ≤ c.rest.length := by
    rw [hrest, List.length_append]
    omega
  exact reads_readResp _ v hle hv c r hc hrest

/-! ## Whole streams -/

/-- Successive replies. -/
def readAll (n : ℕ) : Read UInt8 (List Resp) := Read.times readReply n

theorem reads_readAll {vs : List Value} (hvs : ∀ v ∈ vs, v.Sendable) :
    Reads (readAll vs.length) (vs.flatMap Value.encode) (vs.map Value.resp) :=
  Buffered.reads_times fun v hv ↦ reads_readReply (hvs v hv)

/-- **Replies are decoded exactly.** Take any values that can be sent and any pieces, none of them
empty, into which their encodings are cut. Reading as many replies as there are values returns the
values in order, and all that was received has been consumed. -/
theorem readAll_encode {vs : List Value} (hvs : ∀ v ∈ vs, v.Sendable) {pieces : List Bytes}
    (hpieces : ∀ piece ∈ pieces, piece ≠ []) (hstream : pieces.flatten = vs.flatMap Value.encode) :
    ∃ c : Source UInt8, readAll vs.length { feed := pieces.map some } = (some (vs.map Value.resp), c) ∧
      c.rest = [] := by
  have hcoming : Source.coming (pieces.map some) = pieces.flatten := by
    rw [Source.coming, List.filterMap_map]
    simp
  have hvalid : ({ feed := pieces.map some } : Source UInt8).Valid := by
    refine ⟨Nat.zero_le _, fun piece hp ↦ ?_⟩
    obtain ⟨q, hq, heq⟩ := List.mem_map.mp hp
    exact hpieces piece (Option.some.inj heq ▸ hq)
  have hrest : ({ feed := pieces.map some } : Source UInt8).rest
      = vs.flatMap Value.encode ++ [] := by
    rw [List.append_nil, ← hstream, ← hcoming]
    rfl
  rcases reads_readAll hvs _ [] hvalid hrest with ⟨hsome, -, hnil, -⟩ | ⟨-, hfail⟩
  · exact ⟨_, Prod.ext hsome rfl, hnil⟩
  · simp at hfail

/-- An array that holds a bulk string with a line end, a null and an array, and an error. -/
def sampleValues : List Value :=
  [.array [.bulk (lit "\r\n$"), .nullBulk, .array [.int (-3), .nullArray]], .error (lit "ERR\r")]

/-- Their encodings, cut inside line ends and inside the bulk string. -/
def samplePieces : List Bytes :=
  [lit "*3\r", lit "\n$3\r\n\r", lit "\n$\r\n$-1\r\n*2\r\n:-", lit "3\r\n*-1\r\n-ERR\r\r", lit "\n"]

theorem readAll_encode_sampleValues : ∃ c : Source UInt8,
    readAll 2 { feed := samplePieces.map some } = (some (sampleValues.map Value.resp), c) ∧
      c.rest = [] := by
  have hvs : ∀ v ∈ sampleValues, v.Sendable := by
    refine List.forall_mem_cons.mpr ⟨⟨by decide, ?_, trivial, ?_, trivial⟩, ?_⟩
    · exact (by decide : 3 < 2 ^ 63)
    · exact ⟨by decide, trivial, trivial, trivial⟩
    · exact List.forall_mem_singleton.mpr (by decide : ¬ CRLF <:+: lit "ERR\r")
  have hpieces : ∀ piece ∈ samplePieces, piece ≠ [] := by decide
  exact readAll_encode hvs hpieces (by decide)

end Shrt.Kv
