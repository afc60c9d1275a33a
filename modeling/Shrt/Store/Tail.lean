import Shrt.Store.Aof

/-!
# Reading a log that grows

`replay_file` and `read_new` cut their buffer into lines with the same loop over positions. What the
loop delivers and what it leaves is what cutting at newlines gives (`lineLoop_eq`), so a reader that
puts the begun line in front of what it reads next loses nothing at the seams, wherever they fall.

The lines of a file are stated apart from any reader: its complete lines are the pieces that a
newline ends, without the empty ones, and its open line is what stands behind the last newline.
-/

namespace Shrt

/-! ## The line loop -/

/-- One turn of the loop: at a newline, the bytes since `start` are a line, unless there are none.
-/
def lineTurn (buf : Bytes) (r : List Bytes × ℕ) (i : ℕ) : List Bytes × ℕ :=
  if buf[i]? = some NL then
    (if r.2 < i then r.1 ++ [(buf.drop r.2).take (i - r.2)] else r.1, i + 1)
  else r

/-- The loop over a buffer: the lines for the callback, and where the next line starts. -/
def lineLoop (buf : Bytes) : List Bytes × ℕ := (List.range buf.length).foldl (lineTurn buf) ([], 0)

/-- The loop has delivered the lines of a first part of the buffer, and stands at its open line. -/
structure CutUpTo (buf : Bytes) (n : ℕ) (r : List Bytes × ℕ) : Prop where
  lines : r.1 = (Framing.cut NL [] (buf.take n)).1
  start_le : r.2 ≤ n
  tail : (buf.take n).drop r.2 = (Framing.cut NL [] (buf.take n)).2

theorem CutUpTo.turn {buf : Bytes} {n : ℕ} {r : List Bytes × ℕ} (h : CutUpTo buf n r)
    (hn : n < buf.length) : CutUpTo buf (n + 1) (lineTurn buf r n) := by
  have hlen : (buf.take n).length = n := List.length_take_of_le hn.le
  have htake : buf.take (n + 1) = buf.take n ++ [buf[n]] := List.take_succ_eq_append_getElem hn
  have hcut := @Framing.cut_append _ NL _ (buf.take n) [] [buf[n]]
  rw [← htake, ← h.tail, ← h.lines] at hcut
  rw [lineTurn, List.getElem?_eq_getElem hn]
  by_cases hb : buf[n] = NL
  · -- A line ends here.
    rw [if_pos (congrArg some hb)]
    rw [hb, Framing.cut_cons_self, Framing.cut_nil] at hcut
    have hbegun : (buf.take n).drop r.2 = (buf.drop r.2).take (n - r.2) := List.drop_take ..
    have hempty : (buf.take n).drop r.2 = [] ↔ ¬ r.2 < n := by
      rw [List.drop_eq_nil_iff, hlen, not_lt]
    refine ⟨?_, le_rfl, ?_⟩
    · rw [hcut]
      by_cases hlt : r.2 < n
      · rw [if_pos hlt, if_neg (not_not.mpr hlt ∘ hempty.mp), hbegun]
      · rw [if_neg hlt, if_pos (hempty.mpr hlt), List.append_nil]
    · rw [hcut]
      exact List.drop_eq_nil_of_le (List.length_take_le _ _)
  · rw [if_neg fun heq ↦ hb (Option.some.inj heq)]
    rw [Framing.cut_cons_of_ne hb, Framing.cut_nil] at hcut
    refine ⟨?_, h.start_le.trans (Nat.le_succ n), ?_⟩
    · rw [hcut, List.append_nil]
    · rw [hcut, htake, List.drop_append_of_le_length (h.start_le.trans_eq hlen.symm)]

theorem cutUpTo_foldl {buf : Bytes} {n : ℕ} (hn : n ≤ buf.length) :
    CutUpTo buf n ((List.range n).foldl (lineTurn buf) ([], 0)) := by
  induction n with
  | zero => exact ⟨rfl, le_rfl, rfl⟩
  | succ n ih =>
    rw [List.range_succ, List.foldl_append]
    exact (ih (Nat.le_of_succ_le hn)).turn hn

/-- **The loop cuts at newlines.** -/
theorem lineLoop_eq (buf : Bytes) :
    ((lineLoop buf).1, buf.drop (lineLoop buf).2) = Framing.cut NL [] buf := by
  have h := cutUpTo_foldl (le_refl buf.length)
  rw [← lineLoop] at h
  have hlines := h.lines
  have htail := h.tail
  rw [List.take_length] at hlines htail
  exact Prod.ext hlines htail

/-- `replay_file`, with its loop over the positions of the buffer. -/
def replayLoop (content : Bytes) : List Bytes := (lineLoop content).1

theorem replayLoop_eq (content : Bytes) : replayLoop content = replayFile content := by
  rw [replayLoop, replayFile, ← lineLoop_eq]

/-- `read_new`, with its loop over the positions of the buffer. -/
def TailReader.readLoop (t : TailReader) (content : Bytes) (got : ℕ) : List Bytes × TailReader :=
  let t := if content.length < t.offset then { offset := 0, leftover := [] } else t
  if content.length ≤ t.offset then ([], t)
  else
    let buf := (content.drop t.offset).take got
    let leftover := t.leftover ++ buf
    let r := lineLoop leftover
    (r.1, { offset := t.offset + buf.length, leftover := leftover.drop r.2 })

theorem TailReader.readLoop_eq (t : TailReader) (content : Bytes) (got : ℕ) :
    t.readLoop content got = t.readUpTo content got := by
  rw [readLoop, readUpTo]
  simp only [← lineLoop_eq]

/-! ## The lines of a file -/

/-- The lines that a newline ends, without the empty ones. -/
def completeLines (content : Bytes) : List Bytes := (content.splitOn NL).dropLast.filter (· ≠ [])

/-- What stands behind the last newline. -/
def openLine (content : Bytes) : Bytes := (content.splitOn NL).getLastD []

theorem cut_eq_lines (content : Bytes) :
    Framing.cut NL [] content = (completeLines content, openLine content) := by
  have h := @Framing.cut_eq_splitOn _ NL _ content []
  have hid : ((content.splitOn NL).modifyHead fun x ↦ [] ++ x) = content.splitOn NL :=
    congrFun List.modifyHead_id _
  rwa [hid] at h

/-! ## Polls -/

namespace TailReader

/-- A call of `read_new`: the size of the file at that time, and how many bytes the reads return at
most (none when the file cannot be opened). -/
structure Poll where
  size : ℕ
  got : ℕ

/-- Calls in a row, on a file that is only appended to: all lines delivered, and the reader. -/
def polls (file : Bytes) : List Poll → TailReader → List Bytes × TailReader
  | [], t => ([], t)
  | p :: ps, t =>
    let r := t.readLoop (file.take p.size) p.got
    let rest := polls file ps r.2
    (r.1 ++ rest.1, rest.2)

/-- The reader has delivered the complete lines of what it has read, and holds the open one. -/
structure Abreast (file : Bytes) (lines : List Bytes) (t : TailReader) : Prop where
  offset_le : t.offset ≤ file.length
  lines : lines = completeLines (file.take t.offset)
  leftover : t.leftover = openLine (file.take t.offset)

theorem abreast_default (file : Bytes) : Abreast file [] {} := ⟨Nat.zero_le _, rfl, rfl⟩

/-- **One call**, when the file has not become shorter: the lines that are complete by now are
delivered, and the reader is no further than the size it has seen. -/
theorem Abreast.read {file : Bytes} {lines : List Bytes} {t : TailReader} (h : Abreast file lines t)
    {p : Poll} (hp : t.offset ≤ p.size) :
    Abreast file (lines ++ (t.readLoop (file.take p.size) p.got).1)
        (t.readLoop (file.take p.size) p.got).2 ∧
      (t.readLoop (file.take p.size) p.got).2.offset ≤ p.size := by
  have hlen : (file.take p.size).length = min p.size file.length := List.length_take
  have hshown : t.offset ≤ (file.take p.size).length := by
    rw [hlen]
    exact le_min hp h.offset_le
  rw [readLoop_eq, readUpTo, if_neg (not_lt.mpr hshown)]
  by_cases hnew : (file.take p.size).length ≤ t.offset
  · rw [if_pos hnew, List.append_nil]
    exact ⟨h, hp⟩
  · rw [if_neg hnew]
    simp only
    -- The bytes read stand right behind those read before.
    obtain ⟨buf, hbuf⟩ : ∃ buf, ((file.take p.size).drop t.offset).take p.got = buf := ⟨_, rfl⟩
    have hbound : t.offset + buf.length ≤ min p.size file.length := by
      have hle : buf.length ≤ (file.take p.size).length - t.offset := by
        rw [← hbuf, ← List.length_drop]
        exact List.length_take_le' _ _
      rw [← hlen]
      omega
    have hread : file.take (t.offset + buf.length) = file.take t.offset ++ buf := by
      have hprefix : buf <+: file.drop t.offset := by
        rw [← hbuf, List.drop_take]
        exact (List.take_prefix _ _).trans (List.take_prefix _ _)
      rw [List.take_add, ← List.prefix_iff_eq_take.mp hprefix]
    have hcut := @Framing.cut_append_tail _ NL _ (file.take t.offset) buf
    rw [← hread, cut_eq_lines, cut_eq_lines, ← h.lines, ← h.leftover] at hcut
    obtain ⟨hlines, hopen⟩ := Prod.mk.inj hcut
    rw [hbuf]
    refine ⟨⟨?_, ?_, ?_⟩, ?_⟩
    · exact hbound.trans (min_le_right _ _)
    · exact hlines.symm
    · exact hopen.symm
    · exact hbound.trans (min_le_left _ _)

/-- **Calls in a row.** -/
theorem abreast_polls {file : Bytes} {ps : List Poll} : ∀ {lines : List Bytes} {t : TailReader},
    Abreast file lines t → (∀ p ∈ ps, t.offset ≤ p.size) → (ps.map Poll.size).Pairwise (· ≤ ·) →
      Abreast file (lines ++ (polls file ps t).1) (polls file ps t).2 := by
  induction ps with
  | nil =>
    intro lines t h _ _
    rw [polls, List.append_nil]
    exact h
  | cons p ps ih =>
    intro lines t h hle hgrow
    obtain ⟨hfirst, hrest⟩ := List.pairwise_cons.mp hgrow
    obtain ⟨hread, hoffset⟩ := h.read (hle p List.mem_cons_self)
    rw [polls, ← List.append_assoc]
    refine ih hread (fun q hq ↦ ?_) hrest
    exact hoffset.trans (hfirst _ (List.mem_map_of_mem hq))

/-- **Each line is delivered exactly once.** However the file grows between the calls and however
few bytes their reads return, the lines that a new reader has delivered are the complete lines of
what it has read, in order, which are those `replay_file` delivers on that part of the file, and
what it holds is the open line behind them. -/
theorem polls_deliver {file : Bytes} {ps : List Poll} (hgrow : (ps.map Poll.size).Pairwise (· ≤ ·))
    {lines : List Bytes} {t : TailReader} (h : polls file ps {} = (lines, t)) :
    t.offset ≤ file.length ∧ lines = completeLines (file.take t.offset) ∧
      lines = replayLoop (file.take t.offset) ∧ t.leftover = openLine (file.take t.offset) := by
  have hall := abreast_polls (abreast_default file) (fun _ _ ↦ Nat.zero_le _) hgrow
  rw [h, List.nil_append] at hall
  refine ⟨hall.offset_le, hall.lines, ?_, hall.leftover⟩
  rw [replayLoop_eq, replayFile, cut_eq_lines]
  exact hall.lines

/-- A file that is read in five calls: two of them see a line in the making, one gets a single byte
of the three it asks for, and one finds nothing new. -/
def growing : Bytes := lit "ab\n\ncd\ne"

/-- The calls. -/
def growingPolls : List Poll := [⟨1, 1⟩, ⟨4, 1⟩, ⟨4, 9⟩, ⟨4, 9⟩, ⟨8, 9⟩]

theorem polls_deliver_growing : ∃ lines t, polls growing growingPolls {} = (lines, t) ∧
    lines = [lit "ab", lit "cd"] ∧ t.leftover = lit "e" ∧
    lines = replayLoop (growing.take t.offset) := by
  obtain ⟨lines, t, h, hlines, hleft⟩ : ∃ lines t, polls growing growingPolls {} = (lines, t) ∧
      lines = [lit "ab", lit "cd"] ∧ t.leftover = lit "e" := ⟨_, _, rfl, by decide, by decide⟩
  exact ⟨lines, t, h, hlines, hleft, (polls_deliver (by decide) h).2.2.1⟩

end TailReader

end Shrt
