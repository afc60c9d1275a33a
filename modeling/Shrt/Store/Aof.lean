import Shrt.Codec.RoundTrip

/-!
# Files and the append-only log

A directory maps file names to contents. An `Aof` is the writing end of one log file with its
buffer of pushed bytes; a `TailReader` is the reading end of a sibling's log with its offset and
the bytes of a line that was not complete yet. `replayFile`, the one-shot reader, is in the codec.

After `truncate` the source writes through a descriptor without `O_APPEND`. Only the owner of a log
writes to it, so its offset is always the end of the file and both modes append.
-/

namespace Shrt

/-- The number of instance ids. -/
def MAX_INSTANCES : ℕ := 62

instance : NeZero MAX_INSTANCES := ⟨by decide⟩

/-- An instance id. -/
abbrev InstanceId := Fin MAX_INSTANCES

/-- The directory all instances share. -/
abbrev Dir := AList fun _ : Bytes ↦ Bytes

/-- `data-<i>.log`. -/
def logName (i : InstanceId) : Bytes := lit "data-" ++ itoa (Int64.ofNat i) ++ lit ".log"

/-- `data-<i>.snap`. -/
def snapName (i : InstanceId) : Bytes := lit "data-" ++ itoa (Int64.ofNat i) ++ lit ".snap"

/-- The scratch file of a compaction. -/
def tmpName (i : InstanceId) : Bytes := snapName i ++ lit ".tmp"

namespace Dir

/-- The bytes of a file; a missing file reads as empty, as `file_size` and `replay_file` treat
it. -/
def content (d : Dir) (name : Bytes) : Bytes := (d.lookup name).getD []

/-- Open with `O_CREAT`. -/
def create (d : Dir) (name : Bytes) : Dir := d.insert name (d.content name)

/-- Append bytes. -/
def append (d : Dir) (name data : Bytes) : Dir := d.insert name (d.content name ++ data)

/-- Replace the contents. -/
def write (d : Dir) (name data : Bytes) : Dir := d.insert name data

/-- `rename`, which fails when the source is missing. -/
def rename (d : Dir) (old new : Bytes) : Dir := match d.lookup old with
  | some data => (d.erase old).insert new data
  | none => d

theorem content_insert (d : Dir) (name name' data : Bytes) :
    content (d.insert name data) name' = if name' = name then data else d.content name' := by
  rw [content, content]
  split_ifs with h
  · subst h
    rw [AList.lookup_insert, Option.getD_some]
  · rw [AList.lookup_insert_ne h]

@[simp] theorem content_empty (name : Bytes) : content (∅ : Dir) name = [] := rfl

@[simp] theorem content_create (d : Dir) (name name' : Bytes) :
    (d.create name).content name' = d.content name' := by
  rw [create, content_insert]
  split_ifs with h
  · rw [h]
  · rfl

theorem content_append (d : Dir) (name name' data : Bytes) :
    (d.append name data).content name'
      = if name' = name then d.content name ++ data else d.content name' := by
  rw [append, content_insert]

theorem content_write (d : Dir) (name name' data : Bytes) :
    (d.write name data).content name' = if name' = name then data else d.content name' := by
  rw [write, content_insert]

end Dir

/-! ## The writing end -/

/-- An open log. -/
structure Aof where
  /-- Bytes pushed but not written. -/
  buf : Bytes := []
  /-- The file. -/
  path : Bytes
  /-- Whether the descriptor is open. -/
  fd : Bool := true

namespace Aof

/-- Queue a line. -/
def push (a : Aof) (line : Bytes) : Aof := { a with buf := a.buf ++ line ++ [NL] }

/-- Queue bytes that are lines already. -/
def pushRaw (a : Aof) (bytes : Bytes) : Aof := { a with buf := a.buf ++ bytes }

/-- Write the queue out; every `write` takes all it is given. -/
def flush (a : Aof) (d : Dir) : Dir × Aof :=
  if a.buf = [] ∨ a.fd = false then (d, a) else (d.append a.path a.buf, { a with buf := [] })

/-- Discard the file's contents, after a flush. -/
def truncate (a : Aof) (d : Dir) : Dir × Aof :=
  let (d, a) := a.flush d
  (d.write a.path [], { a with fd := true })

/-- Flush and close. -/
def close (a : Aof) (d : Dir) : Dir × Aof :=
  if a.fd = false then (d, a)
  else
    let (d, a) := a.flush d
    (d, { a with fd := false })

end Aof

/-! ## The reading end -/

/-- A position in a sibling's log. -/
structure TailReader where
  /-- Bytes consumed. -/
  offset : ℕ := 0
  /-- The bytes of the last line, when it has no newline yet. -/
  leftover : Bytes := []

namespace TailReader

/-- `read_new`, when the file shows `content` and the reads return at most `got` bytes in all. A
file shorter than the offset is taken for a truncated one and read from the start. -/
def readUpTo (t : TailReader) (content : Bytes) (got : ℕ) : List Bytes × TailReader :=
  let t := if content.length < t.offset then { offset := 0, leftover := [] } else t
  if content.length ≤ t.offset then ([], t)
  else
    let buf := (content.drop t.offset).take got
    let r := Framing.cut NL [] (t.leftover ++ buf)
    (r.1, { offset := t.offset + buf.length, leftover := r.2 })

/-- `read_new`, when the reads return everything there is. -/
def readNew (t : TailReader) (content : Bytes) : List Bytes × TailReader :=
  t.readUpTo content content.length

end TailReader

/-! ## Sibling logs -/

/-- The names `shard_files` selects, its own log apart. -/
def isShardLog (n : Bytes) : Bool :=
  (lit "data-").isPrefixOf n && 4 < n.length && n.drop (n.length - 4) = lit ".log"

/-- Byte order of `std::string`. -/
def nameLe : Bytes → Bytes → Bool
  | [], _ => true
  | _ :: _, [] => false
  | a :: as, b :: bs => a < b || (a = b && nameLe as bs)

/-- `shard_files`: the logs present in the directory, sorted, without `own`. -/
def shardFiles (d : Dir) (own : Bytes) : List Bytes :=
  (d.keys.filter fun n ↦ isShardLog n && n ≠ own).insertionSort fun a b ↦ nameLe a b = true

/-- The snapshot that goes with a log. -/
def snapOf (log : Bytes) : Bytes := log.take (log.length - 4) ++ lit ".snap"

/-! ## The names of one instance's files

Names are told apart by their last four bytes and, within one kind, by the id they print. -/

/-- The last four bytes of a name. -/
def suffix4 (n : Bytes) : Bytes := n.drop (n.length - 4)

theorem suffix4_append (n s : Bytes) (hs : 4 ≤ s.length) : suffix4 (n ++ s) = suffix4 s := by
  rw [suffix4, suffix4, List.length_append, show n.length + s.length - 4 = n.length + (s.length - 4)
    from by omega, List.drop_append, Nat.add_sub_cancel_left, List.drop_eq_nil_of_le (by omega),
    List.nil_append]

theorem suffix4_logName (i : InstanceId) : suffix4 (logName i) = lit ".log" :=
  suffix4_append _ _ (by decide)

theorem suffix4_snapName (i : InstanceId) : suffix4 (snapName i) = lit "snap" :=
  suffix4_append _ _ (by decide)

theorem suffix4_tmpName (i : InstanceId) : suffix4 (tmpName i) = lit ".tmp" :=
  suffix4_append _ _ (by decide)

theorem snapName_ne_logName (i j : InstanceId) : snapName i ≠ logName j := by
  intro h
  have := suffix4_snapName i
  rw [h, suffix4_logName] at this
  exact absurd this (by decide)

theorem tmpName_ne_logName (i j : InstanceId) : tmpName i ≠ logName j := by
  intro h
  have := suffix4_tmpName i
  rw [h, suffix4_logName] at this
  exact absurd this (by decide)

theorem tmpName_ne_snapName (i j : InstanceId) : tmpName i ≠ snapName j := by
  intro h
  have := suffix4_tmpName i
  rw [h, suffix4_snapName] at this
  exact absurd this (by decide)

theorem itoa_injective : Function.Injective itoa := fun a b h ↦ by
  rw [← strtoll_itoa a, h, strtoll_itoa]

theorem ofNat_injective_of_instance {i j : InstanceId} (h : Int64.ofNat i = Int64.ofNat j) :
    i = j := by
  have hlt : ∀ k : InstanceId, (k : ℕ) < 2 ^ 63 := fun k ↦ lt_trans k.2 (by decide)
  have := congrArg Int64.toInt h
  rw [Int64.toInt_ofNat_of_lt (hlt i), Int64.toInt_ofNat_of_lt (hlt j)] at this
  exact Fin.ext (by exact_mod_cast this)

theorem logName_injective : Function.Injective logName := fun _ _ h ↦
  ofNat_injective_of_instance (itoa_injective (List.append_cancel_left
    (List.append_cancel_right h)))

theorem snapName_injective : Function.Injective snapName := fun _ _ h ↦
  ofNat_injective_of_instance (itoa_injective (List.append_cancel_left
    (List.append_cancel_right h)))

theorem isShardLog_iff (n : Bytes) :
    isShardLog n = true ↔ lit "data-" <+: n ∧ 4 < n.length ∧ suffix4 n = lit ".log" := by
  simp [isShardLog, suffix4, and_assoc]

theorem isShardLog_logName (i : InstanceId) : isShardLog (logName i) = true := by
  refine (isShardLog_iff _).mpr ⟨?_, ?_, suffix4_logName i⟩
  · rw [logName, List.append_assoc]
    exact List.prefix_append _ _
  · have h₅ : (lit "data-").length = 5 := rfl
    rw [logName, List.length_append, List.length_append]
    omega

theorem not_isShardLog_snapName (i : InstanceId) : isShardLog (snapName i) = false := by
  rw [Bool.eq_false_iff, ne_eq, isShardLog_iff, suffix4_snapName]
  rintro ⟨-, -, h⟩
  exact absurd h (by decide)

theorem not_isShardLog_tmpName (i : InstanceId) : isShardLog (tmpName i) = false := by
  rw [Bool.eq_false_iff, ne_eq, isShardLog_iff, suffix4_tmpName]
  rintro ⟨-, -, h⟩
  exact absurd h (by decide)

/-- The snapshot that goes with an instance's log is its snapshot. -/
theorem snapOf_logName (i : InstanceId) : snapOf (logName i) = snapName i := by
  have h₄ : (lit ".log").length = 4 := rfl
  rw [snapOf, logName, snapName, List.length_append, h₄, Nat.add_sub_cancel, List.take_left]

theorem mem_shardFiles {d : Dir} {own n : Bytes} :
    n ∈ shardFiles d own ↔ n ∈ d ∧ isShardLog n = true ∧ n ≠ own := by
  rw [shardFiles, List.mem_insertionSort, List.mem_filter, AList.mem_keys]
  simp

theorem nodup_shardFiles (d : Dir) (own : Bytes) : (shardFiles d own).Nodup :=
  (List.perm_insertionSort _ _).nodup_iff.mpr (d.keys_nodup.filter _)

end Shrt
