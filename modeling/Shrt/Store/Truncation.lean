import Shrt.Store.Follow

/-!
# A log that starts over

A compaction truncates the log that siblings are reading. A reader notices only that the file has
become shorter than its offset. If the new file has grown to the offset before the reader looks
again, the reader goes on in the middle of it, and what stands before the offset is never delivered.

So after a truncation the lines are delivered exactly if the reader, when it looks for the first
time, finds less than it had read before, or had not read anything (`tail_survives_iff`).
-/

namespace Shrt

open Framing (frame cut cut_append cut_frame Record)

/-! ## The log and its reader -/

/-- A complete line of a log. -/
abbrev LogLine := { l : Bytes // Record NL l }

/-- What happens to a log: its owner appends lines or truncates it, and the reader reads. -/
inductive TailEvent where
  | append (lines : List LogLine)
  | truncate
  | read

/-- A log and the reader of a sibling. -/
structure Tailed where
  file : Bytes := []
  reader : TailReader := {}

/-- The lines of an event. -/
def TailEvent.lines : TailEvent → List Bytes
  | .append ls => ls.map Subtype.val
  | _ => []

/-- Whether an event is a read. -/
def TailEvent.isRead : TailEvent → Bool
  | .read => true
  | _ => false

/-- The lines that are appended. -/
def appended (es : List TailEvent) : List Bytes := es.flatMap TailEvent.lines

/-- The lines that are appended before the first read. -/
def appendedUnread (es : List TailEvent) : List Bytes := appended (es.takeWhile fun e ↦ !e.isRead)

namespace Tailed

/-- One event, with the lines that it delivers. -/
def serve (s : Tailed) : TailEvent → List Bytes × Tailed
  | .append ls => ([], { s with file := s.file ++ frame NL (ls.map Subtype.val) })
  | .truncate => ([], { s with file := [] })
  | .read => ((s.reader.readNew s.file).1, { s with reader := (s.reader.readNew s.file).2 })

/-- What has become of the log and the reader. -/
def after (s : Tailed) (es : List TailEvent) : Tailed := es.foldl (fun s e ↦ (s.serve e).2) s

/-- The lines that are delivered. -/
def delivered : Tailed → List TailEvent → List Bytes
  | _, [] => []
  | s, e :: es => (s.serve e).1 ++ (s.serve e).2.delivered es

variable {s : Tailed} {pend : List Bytes} {es : List TailEvent}

/-! ## No line is left open -/

/-- Bytes that do not end within a line. -/
def Closed (b : Bytes) : Prop := b = [] ∨ ∃ y, b = y ++ [NL]

theorem closed_frame (ls : List Bytes) : Closed (frame NL ls) := by
  rcases List.eq_nil_or_concat ls with rfl | ⟨ls, l, rfl⟩
  · exact .inl rfl
  · refine .inr ⟨frame NL ls ++ l, ?_⟩
    rw [List.concat_eq_append, Framing.frame_append, Framing.frame_cons, Framing.frame_nil,
      List.append_assoc]

theorem Closed.append {b b' : Bytes} (h : Closed b) (h' : Closed b') : Closed (b ++ b') := by
  rcases h' with rfl | ⟨y, rfl⟩
  · rwa [List.append_nil]
  · exact .inr ⟨b ++ y, (List.append_assoc _ _ _).symm⟩

theorem Closed.drop {b : Bytes} (h : Closed b) (n : ℕ) : Closed (b.drop n) := by
  rcases h with rfl | ⟨y, rfl⟩
  · exact .inl List.drop_nil
  · rcases Nat.lt_or_ge n (y ++ [NL]).length with hlt | hge
    · refine .inr ⟨y.drop n, List.drop_append_of_le_length ?_⟩
      rw [List.length_append, List.length_singleton] at hlt
      omega
    · exact .inl (List.drop_eq_nil_of_le hge)

theorem Closed.cut_snd {b : Bytes} (h : Closed b) : (cut NL [] b).2 = [] := by
  rcases h with rfl | ⟨y, rfl⟩
  · rfl
  · rw [cut_append, Framing.cut_cons_self]
    rfl

/-- The file and the reader stand at the end of a line. -/
structure Whole (s : Tailed) : Prop where
  file : Closed s.file
  leftover : s.reader.leftover = []

/-- Where the reader goes on. -/
def position (s : Tailed) : ℕ := if s.file.length < s.reader.offset then 0 else s.reader.offset

/-- **One read** delivers the lines behind the position, and nothing is left open. -/
theorem Whole.serve_read (h : s.Whole) : s.serve .read =
    ((cut NL [] (s.file.drop s.position)).1, { s with reader := ⟨s.file.length, []⟩ }) := by
  have hsound : s.reader.Sound := by
    constructor
    · rw [h.leftover]
      exact List.not_mem_nil
    · rw [h.leftover]
      exact Nat.zero_le _
  have hread : s.reader.readNew s.file =
      ((cut NL [] (s.file.drop s.position)).1, ⟨s.file.length, []⟩) := by
    rw [position]
    split_ifs with hlt
    · rw [TailReader.readNew_of_lt hlt, TailReader.readNew_eq TailReader.sound_default (Nat.zero_le _)]
      simp only [List.nil_append, List.drop_zero, h.file.cut_snd]
    · rw [TailReader.readNew_eq hsound (not_lt.mp hlt), h.leftover, List.nil_append,
        (h.file.drop _).cut_snd]
  rw [serve, hread]

theorem Whole.serve (h : s.Whole) (e : TailEvent) : (s.serve e).2.Whole := by
  cases e with
  | append ls => exact ⟨h.file.append (closed_frame _), h.leftover⟩
  | truncate => exact ⟨.inl rfl, h.leftover⟩
  | read =>
    rw [h.serve_read]
    exact ⟨h.file, rfl⟩

theorem Whole.after (h : s.Whole) : (s.after es).Whole := by
  induction es generalizing s with
  | nil => exact h
  | cons e es ih => exact ih (h.serve e)

theorem whole_default : Whole {} := ⟨.inl rfl, rfl⟩

/-! ## A reader that keeps up -/

/-- The reader has the lines `pend` before it. -/
structure Facing (s : Tailed) (pend : List Bytes) : Prop extends Whole s where
  le : s.reader.offset ≤ s.file.length
  rest : s.file.drop s.reader.offset = frame NL pend
  records : ∀ l ∈ pend, Record NL l

theorem Facing.append (h : s.Facing pend) (ls : List LogLine) :
    (s.serve (.append ls)).2.Facing (pend ++ ls.map Subtype.val) where
  toWhole := h.toWhole.serve _
  le := by
    rw [Tailed.serve, List.length_append]
    exact h.le.trans (Nat.le_add_right _ _)
  rest := by
    rw [Tailed.serve, List.drop_append_of_le_length h.le, h.rest, Framing.frame_append]
  records := by
    intro l hl
    rcases List.mem_append.mp hl with hl | hl
    · exact h.records l hl
    · obtain ⟨l, -, rfl⟩ := List.mem_map.mp hl
      exact l.2

/-- After a read the reader has seen everything. -/
theorem Whole.facing_read (h : s.Whole) : (s.serve .read).2.Facing [] := by
  rw [h.serve_read]
  exact ⟨⟨h.file, rfl⟩, le_rfl, List.drop_length, fun l hl ↦ absurd hl List.not_mem_nil⟩

theorem Facing.serve_read (h : s.Facing pend) : (s.serve .read).1 = pend := by
  rw [h.toWhole.serve_read, position, if_neg (not_lt.mpr h.le), h.rest, cut_frame h.records]

/-- A reader that keeps up delivers what is before it and what comes. -/
theorem Facing.delivered (h : s.Facing pend) (hno : TailEvent.truncate ∉ es) :
    s.delivered (es ++ [.read]) = pend ++ appended es := by
  induction es generalizing s pend with
  | nil =>
    rw [List.nil_append, Tailed.delivered, h.serve_read]
    rfl
  | cons e es ih =>
    rw [List.mem_cons, not_or] at hno
    rw [List.cons_append, Tailed.delivered]
    cases e with
    | append ls =>
      rw [ih (h.append ls) hno.2, List.append_assoc]
      rfl
    | truncate => exact absurd rfl hno.1
    | read =>
      rw [h.serve_read, ih h.toWhole.facing_read hno.2]
      rfl

/-! ## A reader that has not noticed -/

/-- The file has started over and holds the lines `pend`, and the reader has not looked yet. -/
structure Stale (s : Tailed) (pend : List Bytes) : Prop extends Whole s where
  pos : 0 < s.reader.offset
  text : s.file = frame NL pend
  records : ∀ l ∈ pend, Record NL l

theorem Stale.append (h : s.Stale pend) (ls : List LogLine) :
    (s.serve (.append ls)).2.Stale (pend ++ ls.map Subtype.val) where
  toWhole := h.toWhole.serve _
  pos := h.pos
  text := by rw [Tailed.serve, h.text, Framing.frame_append]
  records := by
    intro l hl
    rcases List.mem_append.mp hl with hl | hl
    · exact h.records l hl
    · obtain ⟨l, -, rfl⟩ := List.mem_map.mp hl
      exact l.2

/-- The first look delivers the lines exactly if there is less than before. -/
theorem Stale.serve_read_iff (h : s.Stale pend) :
    (s.serve .read).1 = pend ↔ (frame NL pend).length < s.reader.offset := by
  rw [h.toWhole.serve_read, position, h.text]
  constructor
  · intro heq
    by_contra hge
    rw [if_neg hge] at heq
    -- What is behind the offset is too short to hold all lines.
    have hlen := @Framing.length_frame_cut_le _ NL _ ((frame NL pend).drop s.reader.offset) []
    rw [heq, List.length_drop, List.length_nil] at hlen
    have hpos := h.pos
    omega
  · intro hlt
    rw [if_pos hlt, List.drop_zero, cut_frame h.records]

theorem Stale.delivered_iff (h : s.Stale pend) (hno : TailEvent.truncate ∉ es) :
    s.delivered (es ++ [.read]) = pend ++ appended es ↔
      (frame NL (pend ++ appendedUnread es)).length < s.reader.offset := by
  induction es generalizing s pend with
  | nil =>
    rw [List.nil_append, delivered, delivered, appended, appendedUnread, List.takeWhile_nil, appended,
      List.flatMap_nil, List.append_nil, List.append_nil]
    exact h.serve_read_iff
  | cons e es ih =>
    rw [List.mem_cons, not_or] at hno
    cases e with
    | append ls =>
      have hrest := ih (h.append ls) hno.2
      rw [List.append_assoc, List.append_assoc] at hrest
      exact hrest
    | truncate => exact absurd rfl hno.1
    | read =>
      -- From here on the reader keeps up, so the first look decides.
      have hrest : (s.serve .read).2.delivered (es ++ [.read]) = appended es :=
        h.toWhole.facing_read.delivered hno.2
      have hunread : appendedUnread (.read :: es) = [] := rfl
      have happ : appended (.read :: es) = appended es := rfl
      rw [List.cons_append, delivered, hrest, hunread, happ, List.append_nil, ← h.serve_read_iff]
      exact List.append_left_inj _

end Tailed

/-- **A reader survives a truncation** exactly if it looks, for the first time afterwards, when the
log is shorter than what it had read, or had not read anything. A log that is never truncated is
delivered in any case. -/
theorem tail_survives_iff (before since : List TailEvent) (hno : TailEvent.truncate ∉ since) :
    ({} : Tailed).delivered (since ++ [.read]) = appended since ∧
    ((({} : Tailed).after (before ++ [.truncate])).delivered (since ++ [.read]) = appended since ↔
      (({} : Tailed).after before).reader.offset = 0 ∨
        (frame NL (appendedUnread since)).length < (({} : Tailed).after before).reader.offset) := by
  have hnew : Tailed.Facing {} [] :=
    ⟨Tailed.whole_default, le_rfl, rfl, fun l hl ↦ absurd hl List.not_mem_nil⟩
  refine ⟨hnew.delivered hno, ?_⟩
  have hafter : ({} : Tailed).after (before ++ [.truncate]) =
      { ({} : Tailed).after before with file := [] } := by
    rw [Tailed.after, List.foldl_append]
    rfl
  have hwhole : Tailed.Whole { ({} : Tailed).after before with file := [] } :=
    ⟨.inl rfl, Tailed.whole_default.after.leftover⟩
  rw [hafter]
  rcases Nat.eq_zero_or_pos (({} : Tailed).after before).reader.offset with hzero | hpos
  · have hfacing : Tailed.Facing { ({} : Tailed).after before with file := [] } [] :=
      ⟨hwhole, hzero.le, List.drop_nil, fun l hl ↦ absurd hl List.not_mem_nil⟩
    exact iff_of_true (hfacing.delivered hno) (.inl hzero)
  · have hstale : Tailed.Stale { ({} : Tailed).after before with file := [] } [] :=
      ⟨hwhole, hpos, rfl, fun l hl ↦ absurd hl List.not_mem_nil⟩
    rw [or_iff_right hpos.ne']
    exact hstale.delivered_iff hno

/-- A line of three bytes. -/
def threeBytes : LogLine := ⟨lit "abc", by decide, by decide⟩

theorem tail_survives_iff_oneLine :
    (({} : Tailed).after ([.append [threeBytes, threeBytes], .read] ++ [.truncate])).delivered
      ([.append [threeBytes]] ++ [.read]) = appended [.append [threeBytes]] :=
  (tail_survives_iff [.append [threeBytes, threeBytes], .read] [.append [threeBytes]]
    (by simp)).2.mpr (by decide +kernel)

/-- The new log is as long as what was read of the old one. -/
theorem regrown_log_missed :
    (({} : Tailed).after ([.append [threeBytes], .read] ++ [.truncate])).delivered
      ([.append [threeBytes]] ++ [.read]) ≠ appended [.append [threeBytes]] := by
  decide +kernel

end Shrt
