import Shrt.Store.Tidy

/-!
# Following a log

A reader of a sibling's log keeps an offset and the bytes of a line that was not complete when it
looked. What it has yet to deliver of a file is `TailReader.unread`: the begun line and what follows
the offset, or the whole file once the file has become shorter than the offset, since the reader
then starts over.

Reading moves lines from there into the index, whole lines only, and it does not matter how much of
the file is there to be seen (`readNew_spec`). Everything an instance does without writing is a
sequence of such reads and of changes that no sibling sees (`Follow`). An instance that opens takes
in the snapshots of its siblings and follows their logs from the start (`Opens`).
-/

namespace Shrt

open LastWrite (Write replay)

namespace TailReader

/-- What a reader has yet to deliver of a file. -/
def unread (t : TailReader) (file : Bytes) : Bytes :=
  if file.length < t.offset then file else t.leftover ++ file.drop t.offset

/-- A reader holds at most one line, and only bytes it has read. -/
structure Sound (t : TailReader) : Prop where
  line : NL ∉ t.leftover
  length : t.leftover.length ≤ t.offset

theorem sound_default : Sound {} := ⟨List.not_mem_nil, le_rfl⟩

@[simp] theorem unread_default (file : Bytes) : unread {} file = file := rfl

/-- A reader of a file that grows has the new bytes to deliver as well, unless it had waited for the
file to be replaced and takes the new one for the old. -/
theorem unread_append {t : TailReader} {file b : Bytes}
    (h : file.length < t.offset → (file ++ b).length < t.offset) :
    t.unread (file ++ b) = t.unread file ++ b := by
  rw [unread, unread]
  by_cases hstale : file.length < t.offset
  · rw [if_pos hstale, if_pos (h hstale)]
  · have hle : t.offset ≤ file.length := not_lt.mp hstale
    have hle' : ¬ (file ++ b).length < t.offset := by
      rw [List.length_append]
      omega
    rw [if_neg hstale, if_neg hle', List.drop_append_of_le_length hle, List.append_assoc]

/-- A reader of a file that is emptied has nothing left to deliver. -/
theorem unread_nil {t : TailReader} (ht : t.Sound) : t.unread [] = [] := by
  rw [unread]
  split_ifs with h
  · rfl
  · have hlen := ht.length
    rw [List.length_nil] at h
    rw [List.drop_nil, List.append_nil]
    exact List.length_eq_zero_iff.mp (by omega)

/-- A reader that continues where it stopped. -/
theorem readNew_eq {t : TailReader} (ht : t.Sound) {shown : Bytes} (h : t.offset ≤ shown.length) :
    t.readNew shown = ((Framing.cut NL [] (t.leftover ++ shown.drop t.offset)).1,
      ⟨shown.length, (Framing.cut NL [] (t.leftover ++ shown.drop t.offset)).2⟩) := by
  rw [readNew, readUpTo, if_neg (not_lt.mpr h)]
  by_cases hle : shown.length ≤ t.offset
  · -- There is nothing new, and the begun line is still open.
    have heq : t.offset = shown.length := le_antisymm h hle
    rw [if_pos hle, List.drop_eq_nil_of_le hle, List.append_nil, Framing.cut_of_notMem ht.line,
      List.nil_append, ← heq]
  · have hlen : ((shown.drop t.offset).take shown.length) = shown.drop t.offset :=
      List.take_of_length_le (by rw [List.length_drop]; omega)
    have hoff : t.offset + (shown.drop t.offset).length = shown.length := by
      rw [List.length_drop]
      omega
    simp only [if_neg hle, hlen, hoff]

/-- A reader that starts over. -/
theorem readNew_of_lt {t : TailReader} {shown : Bytes} (h : shown.length < t.offset) :
    t.readNew shown = readNew {} shown := by
  rw [readNew, readUpTo, if_pos h]
  rfl

/-- **One read.** Of a file whose first part can be seen, a reader delivers the whole lines of what
it had yet to deliver there, and keeps the rest. -/
theorem readNew_spec {t : TailReader} (ht : t.Sound) {shown hidden : Bytes}
    (h : t.offset ≤ shown.length ∨ (shown ++ hidden).length < t.offset) :
    ∃ x, t.unread (shown ++ hidden) = x ++ hidden ∧ (t.readNew shown).1 = (Framing.cut NL [] x).1 ∧
      (t.readNew shown).2.unread (shown ++ hidden) = (Framing.cut NL [] x).2 ++ hidden ∧
      (t.readNew shown).2.offset = shown.length ∧ (t.readNew shown).2.Sound := by
  have hlen : shown.length ≤ (shown ++ hidden).length := by
    rw [List.length_append]
    omega
  have hend : ∀ rest : Bytes,
      TailReader.unread ⟨shown.length, rest⟩ (shown ++ hidden) = rest ++ hidden := fun rest ↦ by
    rw [unread, if_neg (not_lt.mpr hlen), List.drop_left]
  have hsound : ∀ x : Bytes, x.length ≤ shown.length →
      Sound ⟨shown.length, (Framing.cut NL [] x).2⟩ := fun x hx ↦
    ⟨Framing.notMem_cut_snd x [] List.not_mem_nil,
      (Framing.length_cut_snd_le x []).trans (by simpa using hx)⟩
  rcases h with h | h
  · refine ⟨t.leftover ++ shown.drop t.offset, ?_, ?_⟩
    · rw [unread, if_neg (not_lt.mpr (h.trans hlen)), List.drop_append_of_le_length h,
        List.append_assoc]
    · rw [readNew_eq ht h]
      refine ⟨rfl, hend _, rfl, hsound _ ?_⟩
      have := ht.length
      rw [List.length_append, List.length_drop]
      omega
  · refine ⟨shown, if_pos h, ?_⟩
    rw [readNew_of_lt (hlen.trans_lt h), readNew_eq sound_default (Nat.zero_le _)]
    exact ⟨rfl, hend _, rfl, hsound _ le_rfl⟩

end TailReader

/-! ## Whole lines -/

section Lines

variable {inst : InstanceId}

/-- What a read leaves of whole lines is whole lines. -/
theorem IsLog.cut_tail {x y : Bytes} (h : IsLog inst (x ++ y)) :
    IsLog inst ((Framing.cut NL [] x).2 ++ y) := by
  obtain ⟨ops, hops, htext⟩ := h
  have hx : x = (logText ops).take x.length := by
    rw [← htext, List.take_left]
  have hsplit : x = Framing.frame NL ((ops.take (closedOps ops x.length)).map LogOp.line)
      ++ (Framing.cut NL [] x).2 := by
    have := Framing.take_frame_eq (@record_of_mem_lines ops) x.length
    rw [← logText, ← hx] at this
    rw [List.map_take]
    exact this
  refine ⟨ops.drop (closedOps ops x.length), fun op hop ↦ hops op (List.mem_of_mem_drop hop), ?_⟩
  have hall : Framing.frame NL ((ops.take (closedOps ops x.length)).map LogOp.line)
      ++ ((Framing.cut NL [] x).2 ++ y)
      = logText (ops.take (closedOps ops x.length)) ++ logText (ops.drop (closedOps ops x.length)) := by
    rw [← List.append_assoc, ← hsplit, htext, ← logText_append, List.take_append_drop]
  exact List.append_cancel_left hall

/-- The lines a read delivers are those of what it had to deliver, up to where it stops. -/
theorem replayOps_cut (x y : Bytes) : replayOps (x ++ y)
    = (Framing.cut NL [] x).1.filterMap parseOp ++ replayOps ((Framing.cut NL [] x).2 ++ y) := by
  rw [replayOps, replayFile, Framing.cut_append_tail, List.filterMap_append]
  rfl

/-- Whole lines without a newline are no lines. -/
theorem IsLog.eq_nil {b : Bytes} (h : IsLog inst b) (hnl : NL ∉ b) : b = [] := by
  obtain ⟨ops, -, rfl⟩ := h
  cases ops with
  | nil => rfl
  | cons op ops =>
    rw [logText_cons] at hnl
    exact absurd (List.mem_append_right _ List.mem_cons_self) hnl

end Lines

/-! ## What an instance does without writing -/

/-- The reader of a sibling's log; one that starts at the beginning when there is none yet. -/
def Inner.reader (s : Inner) (j : InstanceId) : TailReader :=
  (s.tail.readers.lookup (logName j)).getD {}

/-- The memory with a new reader. -/
def Inner.setReader (s : Inner) (n : Bytes) (t : TailReader) : Inner :=
  { s with tail := { s.tail with readers := s.tail.readers.insert n t } }

/-- All readers are of sibling logs. -/
def Inner.FollowsSiblings (s : Inner) : Prop :=
  ∀ n ∈ s.tail.readers, ∃ j, j ≠ s.inst ∧ n = logName j

theorem Inner.reader_setReader (s : Inner) (j j' : InstanceId) (t : TailReader) :
    (s.setReader (logName j) t).reader j' = if j' = j then t else s.reader j' := by
  rw [Inner.reader, Inner.setReader]
  split_ifs with h
  · rw [h, AList.lookup_insert, Option.getD_some]
  · rw [AList.lookup_insert_ne fun hn ↦ h (logName_injective hn), Inner.reader]

theorem Inner.FollowsSiblings.setReader {s : Inner} (h : s.FollowsSiblings) {j : InstanceId}
    (hj : j ≠ s.inst) (t : TailReader) : (s.setReader (logName j) t).FollowsSiblings := by
  intro n hn
  rcases (AList.mem_insert _).mp hn with rfl | hn
  · exact ⟨j, hj, rfl⟩
  · exact h n hn

theorem readTail_eq (ord : Order) (d : Dir) (s : Inner) (j : InstanceId) :
    readTail ord d s (logName j) = ((s.reader j).readNew (d.content (logName j))).1.foldl
      (applyLine ord)
      (s.setReader (logName j) ((s.reader j).readNew (d.content (logName j))).2) := rfl

/-- A step of following siblings, with the log it reads. -/
inductive Follow (d : Dir) : Inner → Option InstanceId → Inner → Prop
  /-- Read on in a log. -/
  | read (ord : Order) {s : Inner} {j : InstanceId} (hj : j ≠ s.inst) :
      Follow d s (some j) (readTail ord d s (logName j))
  /-- Start to follow a log. -/
  | start {s : Inner} {j : InstanceId} (hj : j ≠ s.inst) (hnew : logName j ∉ s.tail.readers) :
      Follow d s none (s.setReader (logName j) {})
  /-- Note the time. -/
  | time (s : Inner) (now : Int64) :
      Follow d s none { s with tail := { s.tail with lastPoll := now } }

/-- Steps of following siblings, with the logs they read. -/
inductive Follows (d : Dir) : Inner → List InstanceId → Inner → Prop
  | refl (s : Inner) : Follows d s [] s
  | step {s s' s'' : Inner} {o : Option InstanceId} {js : List InstanceId} (h : Follow d s o s')
      (hs : Follows d s' js s'') : Follows d s (o.toList ++ js) s''

theorem Follow.inst {d : Dir} {s s' : Inner} {o : Option InstanceId} (h : Follow d s o s') :
    s'.inst = s.inst := by
  cases h with
  | read ord hj => exact foldl_applyLine_keeps (f := Inner.inst) (apply_inst ord) _ _
  | start hj hnew => rfl
  | time now => rfl

theorem Follow.followsSiblings {d : Dir} {s s' : Inner} {o : Option InstanceId} (h : Follow d s o s')
    (hs : s.FollowsSiblings) : s'.FollowsSiblings := by
  cases h with
  | @read ord _ j hj =>
    have hset := hs.setReader hj ((s.reader j).readNew (d.content (logName j))).2
    rw [readTail_eq]
    intro n hn
    rw [foldl_applyLine_keeps (f := fun s ↦ s.tail.readers) (apply_readers ord)] at hn
    rw [foldl_applyLine_keeps (f := Inner.inst) (apply_inst ord)]
    exact hset n hn
  | start hj hnew => exact hs.setReader hj {}
  | time now => exact hs

namespace Follows

variable {d : Dir} {s s' s'' : Inner} {js js' : List InstanceId}

theorem single {o : Option InstanceId} (h : Follow d s o s') : Follows d s o.toList s' := by
  have := Follows.step h (Follows.refl s')
  rwa [List.append_nil] at this

theorem trans (h : Follows d s js s') (h' : Follows d s' js' s'') : Follows d s (js ++ js') s'' := by
  induction h with
  | refl s => exact h'
  | step hf _ ih =>
    rw [List.append_assoc]
    exact Follows.step hf (ih h')

/-- What every step keeps is kept. -/
theorem invariant {P : Inner → Prop} (hP : ∀ {s s' o}, Follow d s o s' → P s → P s')
    (h : Follows d s js s') (hs : P s) : P s' := by
  induction h with
  | refl s => exact hs
  | step hf _ ih => exact ih (hP hf hs)

theorem inst (h : Follows d s js s') : s'.inst = s.inst :=
  h.invariant (P := fun t ↦ t.inst = s.inst) (fun hf ht ↦ hf.inst.trans ht) rfl

theorem followsSiblings (h : Follows d s js s') (hs : s.FollowsSiblings) : s'.FollowsSiblings :=
  h.invariant Follow.followsSiblings hs

end Follows

/-- Names of logs come from instances. -/
theorem exists_logs {names : List Bytes} (h : ∀ n ∈ names, ∃ j, n = logName j) :
    ∃ js : List InstanceId, js.map logName = names := by
  have hrange : names ∈ Set.range (List.map logName) := by
    rw [Set.range_list_map]
    intro n hn
    obtain ⟨j, rfl⟩ := h n hn
    exact ⟨j, rfl⟩
  exact hrange

section Poll

variable {d : Dir} {s : Inner}

theorem follows_addReaders {names : List Bytes} : ∀ {s : Inner},
    (∀ n ∈ names, ∃ j, j ≠ s.inst ∧ n = logName j) → Follows d s [] (addReaders s names) := by
  induction names with
  | nil => exact fun {s} _ ↦ Follows.refl s
  | cons n names ih =>
    intro s h
    obtain ⟨j, hj, rfl⟩ := h n List.mem_cons_self
    have hrest : ∀ n ∈ names, ∃ j, j ≠ s.inst ∧ n = logName j :=
      fun n hn ↦ h n (List.mem_cons_of_mem _ hn)
    rw [addReaders, List.foldl_cons]
    split_ifs with hmem
    · exact ih hrest
    · exact Follows.step (Follow.start hj hmem) (ih hrest)

theorem mem_readers_addReaders {names : List Bytes} : ∀ {s : Inner} {n : Bytes},
    n ∈ (addReaders s names).tail.readers ↔ n ∈ s.tail.readers ∨ n ∈ names := by
  induction names with
  | nil => simp [addReaders]
  | cons n' names ih =>
    intro s n
    have hcons : addReaders s (n' :: names) = addReaders (if n' ∈ s.tail.readers then s
        else { s with tail := { s.tail with readers := s.tail.readers.insert n' {} } }) names := rfl
    rw [hcons, ih, List.mem_cons]
    split_ifs with hmem
    · constructor
      · exact fun h ↦ h.imp_right .inr
      · rintro (h | rfl | h)
        · exact .inl h
        · exact .inl hmem
        · exact .inr h
    · rw [AList.mem_insert]
      tauto

theorem follows_foldl_readTail (ord : Order) {js : List InstanceId} : ∀ {s : Inner},
    (∀ j ∈ js, j ≠ s.inst) → Follows d s js ((js.map logName).foldl (readTail ord d) s) := by
  induction js with
  | nil => exact fun {s} _ ↦ Follows.refl s
  | cons j js ih =>
    intro s h
    have hread : Follow d s (some j) (readTail ord d s (logName j)) :=
      Follow.read ord (h j List.mem_cons_self)
    refine Follows.step hread (ih fun j' hj' ↦ ?_)
    rw [hread.inst]
    exact h j' (List.mem_cons_of_mem _ hj')

theorem names_create (hd : ∀ n ∈ d, isShardLog n = true → ∃ j, n = logName j) {k : InstanceId} :
    ∀ n ∈ d.create (logName k), isShardLog n = true → ∃ j, n = logName j := by
  intro n hn hshard
  rcases (AList.mem_insert _).mp hn with rfl | hn
  · exact ⟨k, rfl⟩
  · exact hd n hn hshard

/-- The sibling logs in a directory. -/
theorem of_mem_shardFiles (hd : ∀ n ∈ d, isShardLog n = true → ∃ j, n = logName j) {k : InstanceId} :
    ∀ n ∈ shardFiles d (logName k), ∃ j, j ≠ k ∧ n = logName j := by
  intro n hn
  obtain ⟨hmem, hlog, hne⟩ := mem_shardFiles.mp hn
  obtain ⟨j, rfl⟩ := hd n hmem hlog
  exact ⟨j, fun hj ↦ hne (congrArg logName hj), rfl⟩

/-- A poll reads each log once: those that were followed before, and those in the directory. -/
theorem pollLocked_eq (hs : s.FollowsSiblings)
    (hd : ∀ n ∈ d, isShardLog n = true → ∃ j, n = logName j) (ord : Order) (now : Int64) :
    ∃ js : List InstanceId, js.Nodup ∧ (∀ j ∈ js, j ≠ s.inst) ∧
      (∀ j, j ≠ s.inst → logName j ∈ d → j ∈ js) ∧
      pollLocked ord d s now =
        { (js.map logName).foldl (readTail ord d) (addReaders s (shardFiles d (logName s.inst))) with
          tail := { ((js.map logName).foldl (readTail ord d)
            (addReaders s (shardFiles d (logName s.inst)))).tail with lastPoll := now } } := by
  obtain ⟨s₁, hs₁⟩ : ∃ s₁, s₁ = addReaders s (shardFiles d (logName s.inst)) := ⟨_, rfl⟩
  have hsib : ∀ n ∈ s₁.tail.readers, ∃ j, j ≠ s.inst ∧ n = logName j := by
    intro n hn
    rw [hs₁] at hn
    rcases mem_readers_addReaders.mp hn with hn | hn
    · exact hs n hn
    · exact of_mem_shardFiles hd n hn
  have hkeys : ∀ n, n ∈ (UnorderedMap.iterate ord s₁.tail.readers).map Prod.fst
      ↔ n ∈ s₁.tail.readers := by
    intro n
    rw [List.mem_map, ← AList.lookup_isSome, Option.isSome_iff_exists]
    constructor
    · rintro ⟨⟨n', t⟩, hmem, rfl⟩
      exact ⟨t, (UnorderedMap.mem_iterate ..).mp hmem⟩
    · rintro ⟨t, ht⟩
      exact ⟨(n, t), (UnorderedMap.mem_iterate ..).mpr ht, rfl⟩
  -- Every name visited is that of a sibling's log.
  obtain ⟨js, hjs⟩ := exists_logs fun n hn ↦ (hsib n ((hkeys n).mp hn)).imp fun _ h ↦ h.2
  have hmem : ∀ j, j ∈ js ↔ logName j ∈ s₁.tail.readers := fun j ↦ by
    rw [← hkeys, ← hjs, List.mem_map_of_injective logName_injective]
  refine ⟨js, ?_, fun j hj ↦ ?_, fun j hj hfile ↦ ?_, ?_⟩
  · have hnodup := UnorderedMap.nodup_keys_iterate ord s₁.tail.readers
    rw [← hjs] at hnodup
    exact hnodup.of_map
  · obtain ⟨j', hj', hname⟩ := hsib _ ((hmem j).mp hj)
    rw [logName_injective hname]
    exact hj'
  · rw [hmem, hs₁]
    refine mem_readers_addReaders.mpr (.inr (mem_shardFiles.mpr ⟨hfile, isShardLog_logName j, ?_⟩))
    exact fun hname ↦ hj (logName_injective hname)
  · rw [pollLocked, ← hs₁, hjs]

/-- **A poll** follows siblings, and reads every sibling log in the directory. -/
theorem follows_pollLocked (hs : s.FollowsSiblings)
    (hd : ∀ n ∈ d, isShardLog n = true → ∃ j, n = logName j) (ord : Order) (now : Int64) :
    ∃ js, Follows d s js (pollLocked ord d s now) ∧ ∀ j, j ≠ s.inst → logName j ∈ d → j ∈ js := by
  have hadd : Follows d s [] (addReaders s (shardFiles d (logName s.inst))) :=
    follows_addReaders (of_mem_shardFiles hd)
  obtain ⟨js, -, hne, hall, heq⟩ := pollLocked_eq hs hd ord now
  have hread : Follows d (addReaders s (shardFiles d (logName s.inst))) js
      ((js.map logName).foldl (readTail ord d) (addReaders s (shardFiles d (logName s.inst)))) := by
    refine follows_foldl_readTail ord fun j hj ↦ ?_
    rw [hadd.inst]
    exact hne j hj
  refine ⟨js ++ [], ?_, fun j hj hfile ↦ ?_⟩
  · rw [heq]
    exact hadd.trans (hread.trans (Follows.single (Follow.time _ now)))
  · rw [List.append_nil]
    exact hall j hj hfile

/-- **A miss** follows siblings. -/
theorem follows_tailMissed (hs : s.FollowsSiblings)
    (hd : ∀ n ∈ d, isShardLog n = true → ∃ j, n = logName j) (ord : Order) (code : Bytes)
    (clk : Clock) : ∃ js, Follows d s js (tailMissed ord d s code clk) := by
  have hpoll : ∃ js, Follows d s js (if TAIL_MIN_INTERVAL ≤ clk 1 - s.tail.lastPoll then
      pollLocked ord d s (clk 2) else s) := by
    split_ifs
    · obtain ⟨js, hjs, -⟩ := follows_pollLocked hs hd ord (clk 2)
      exact ⟨js, hjs⟩
    · exact ⟨[], Follows.refl s⟩
  unfold tailMissed
  split
  · split
    · rename_i owner _
      by_cases h : owner ≠ s.inst.val ∧ owner < MAX_INSTANCES
      · -- The first byte names a sibling.
        rw [dif_pos h]
        have hne : (⟨owner, h.2⟩ : InstanceId) ≠ s.inst := fun heq ↦ h.1 (congrArg Fin.val heq)
        exact ⟨_, Follows.step (Follow.read ord hne) (Follows.single (Follow.time _ (clk 2)))⟩
      · rw [dif_neg h]
        exact hpoll
    · exact hpoll
  · exact ⟨[], Follows.refl s⟩

end Poll

/-- **A resolve** follows siblings, and then counts a hit on a link it has found. -/
theorem Store.resolve_follows {st : Store} (hs : st.inner.FollowsSiblings)
    (hd : ∀ n ∈ st.dir, isShardLog n = true → ∃ j, n = logName j) (code : Bytes) (clk : Clock)
    (track : Bool) (ord : Order) : ∃ s₁ js, Follows st.dir st.inner js s₁ ∧
      ((∃ e, s₁.find code = some e ∧ track = true ∧ st.resolve code clk track ord
        = (((⟨st.dir, s₁⟩ : Store).mapInner (·.put code (bumped e))).markDirty code, some e.u)) ∨
      ∃ r, st.resolve code clk track ord = (⟨st.dir, s₁⟩, r) ∧ (track = true → r = none)) := by
  rw [Store.resolve]
  rcases st.lookup_cases code (clk 0) track with ⟨e, hfind, rfl, hl⟩ | ⟨r, hl, hurl, -⟩
  · rw [hl]
    exact ⟨st.inner, [], Follows.refl _, .inl ⟨e, hfind, rfl, rfl⟩⟩
  · rw [hl]
    cases r with
    | url u =>
      have htrack : track = false := Bool.eq_false_iff.mpr fun h ↦ hurl h u rfl
      subst htrack
      exact ⟨st.inner, [], Follows.refl _, .inr ⟨some u, rfl, fun h ↦ nomatch h⟩⟩
    | expired => exact ⟨st.inner, [], Follows.refl _, .inr ⟨none, rfl, fun _ ↦ rfl⟩⟩
    | absent =>
      simp only
      by_cases haof : st.inner.aof.isNone = true
      · rw [if_pos haof]
        exact ⟨st.inner, [], Follows.refl _, .inr ⟨none, rfl, fun _ ↦ rfl⟩⟩
      · rw [if_neg haof]
        obtain ⟨js, hjs⟩ := follows_tailMissed hs hd ord code clk
        refine ⟨tailMissed ord st.dir st.inner code clk, js, hjs, ?_⟩
        have hread : st.readTails code clk ord = ⟨st.dir, tailMissed ord st.dir st.inner code clk⟩ := rfl
        rw [hread]
        rcases Store.lookup_cases ⟨st.dir, tailMissed ord st.dir st.inner code clk⟩ code (clk 3) track
          with ⟨e, hfind, rfl, hl'⟩ | ⟨r, hl', hurl', -⟩
        · rw [hl']
          exact .inl ⟨e, hfind, rfl, rfl⟩
        · rw [hl']
          cases r with
          | url u =>
            have htrack : track = false := Bool.eq_false_iff.mpr fun h ↦ hurl' h u rfl
            subst htrack
            exact .inr ⟨some u, rfl, fun h ↦ nomatch h⟩
          | expired => exact .inr ⟨none, rfl, fun _ ↦ rfl⟩
          | absent => exact .inr ⟨none, rfl, fun _ ↦ rfl⟩

/-! ## Opening among siblings -/

/-- Take in a sibling's snapshot and start to follow its log. -/
def openSibling (ord : Order) (d : Dir) (s : Inner) (f : Bytes) : Inner :=
  let s := replayInto ord s (d.content (snapOf f))
  { s with tail := { s.tail with
    readers := if f ∈ s.tail.readers then s.tail.readers else s.tail.readers.insert f {} } }

/-- The snapshots of some siblings have been taken in, and their logs are followed from the start.
-/
structure Opens (d : Dir) (s : Inner) (js : List InstanceId) (s' : Inner) : Prop where
  inst : s'.inst = s.inst
  aof : s'.aof = s.aof
  dirty : ∀ k, (s'.shards k).dirty = (s.shards k).dirty
  links : s'.links = replay s.links (js.flatMap fun j ↦ writesOf (d.content (snapName j)))
  reader : ∀ j, s'.reader j = s.reader j
  mem : ∀ n ∈ s'.tail.readers, n ∈ s.tail.readers ∨ ∃ j ∈ js, n = logName j

theorem opens_openSibling (ord : Order) (d : Dir) (s : Inner) (j : InstanceId) :
    Opens d s [j] (openSibling ord d s (logName j)) := by
  have hreaders := replayInto_readers ord s (d.content (snapOf (logName j)))
  refine ⟨replayInto_inst .., replayInto_aof .., fun k ↦ replayInto_dirty .., ?_, fun j' ↦ ?_,
    fun n hn ↦ ?_⟩
  · rw [List.flatMap_singleton, ← snapOf_logName]
    exact links_replayInto ..
  · rw [Inner.reader, openSibling, Inner.reader]
    simp only [hreaders]
    split_ifs with hmem
    · rfl
    · by_cases hj : logName j' = logName j
      · rw [hj, AList.lookup_insert, AList.lookup_eq_none.mpr hmem]
        rfl
      · rw [AList.lookup_insert_ne hj]
  · rw [openSibling] at hn
    simp only [hreaders] at hn
    split_ifs at hn with hmem
    · exact .inl hn
    · rcases (AList.mem_insert _).mp hn with rfl | hn
      · exact .inr ⟨j, List.mem_singleton_self j, rfl⟩
      · exact .inl hn

theorem opens_foldl_openSibling (ord : Order) (d : Dir) (js : List InstanceId) : ∀ s : Inner,
    Opens d s js ((js.map logName).foldl (openSibling ord d) s) := by
  induction js with
  | nil => exact fun s ↦ ⟨rfl, rfl, fun _ ↦ rfl, rfl, fun _ ↦ rfl, fun _ hn ↦ .inl hn⟩
  | cons j js ih =>
    intro s
    have h₁ := opens_openSibling ord d s j
    have h₂ := ih (openSibling ord d s (logName j))
    rw [List.map_cons, List.foldl_cons]
    refine ⟨h₂.inst.trans h₁.inst, h₂.aof.trans h₁.aof, fun k ↦ (h₂.dirty k).trans (h₁.dirty k), ?_,
      fun j' ↦ (h₂.reader j').trans (h₁.reader j'), fun n hn ↦ ?_⟩
    · rw [h₂.links, h₁.links, List.flatMap_singleton, List.flatMap_cons, LastWrite.replay_append]
    · rcases h₂.mem n hn with hn | ⟨j', hj', rfl⟩
      · rcases h₁.mem n hn with hn | ⟨j', hj', rfl⟩
        · exact .inl hn
        · exact .inr ⟨j', List.mem_cons.mpr (.inl (List.mem_singleton.mp hj')), rfl⟩
      · exact .inr ⟨j', List.mem_cons_of_mem _ hj', rfl⟩

/-- Opening with no files of its own replays each sibling's snapshot once. -/
theorem openStore_eq (ord : Order) {d : Dir} {k : InstanceId}
    (hd : ∀ n ∈ d, isShardLog n = true → ∃ j, n = logName j) (hlog : d.content (logName k) = [])
    (hsnap : d.content (snapName k) = []) :
    ∃ js : List InstanceId, js.Nodup ∧ (∀ j, j ∈ js ↔ j ≠ k ∧ logName j ∈ d) ∧
      (openStore ord d k).inner = (js.map logName).foldl (openSibling ord (d.create (logName k)))
        { aof := some { path := logName k }, inst := k } := by
  have hnames := names_create (k := k) hd
  obtain ⟨js, hjs⟩ := exists_logs fun n hn ↦
    (of_mem_shardFiles (k := k) hnames n hn).imp fun _ h ↦ h.2
  refine ⟨js, ?_, fun j ↦ ?_, ?_⟩
  · have hnodup := nodup_shardFiles (d.create (logName k)) (logName k)
    rw [← hjs] at hnodup
    exact hnodup.of_map
  · rw [← List.mem_map_of_injective logName_injective, hjs, mem_shardFiles, Dir.create,
      AList.mem_insert, logName_injective.ne_iff]
    constructor
    · rintro ⟨hj | hj, -, hne⟩
      · exact absurd (logName_injective hj) hne
      · exact ⟨hne, hj⟩
    · rintro ⟨hne, hj⟩
      exact ⟨.inr hj, isShardLog_logName j, hne⟩
  · have hopen : (openStore ord d k).inner = (shardFiles (d.create (logName k)) (logName k)).foldl
        (openSibling ord (d.create (logName k))) (replayInto ord (replayInto ord
          { aof := some { path := logName k }, inst := k }
          ((d.create (logName k)).content (snapName k)))
          ((d.create (logName k)).content (logName k))) := rfl
    -- The own files are empty, so nothing is replayed from them.
    have hnothing : ∀ s : Inner, replayInto ord s [] = s := fun s ↦ rfl
    rw [hopen, ← hjs, Dir.content_create, Dir.content_create, hlog, hsnap, hnothing, hnothing]

/-- **Opening** with no files of its own: the snapshots of the siblings in the directory are taken
in. -/
theorem opens_openStore (ord : Order) {d : Dir} {k : InstanceId}
    (hd : ∀ n ∈ d, isShardLog n = true → ∃ j, n = logName j) (hlog : d.content (logName k) = [])
    (hsnap : d.content (snapName k) = []) :
    ∃ js, (∀ j, j ∈ js ↔ j ≠ k ∧ logName j ∈ d) ∧ (openStore ord d k).dir = d.create (logName k) ∧
      Opens d { aof := some { path := logName k }, inst := k } js (openStore ord d k).inner := by
  obtain ⟨js, -, hmem, hopen⟩ := openStore_eq ord hd hlog hsnap
  refine ⟨js, hmem, rfl, ?_⟩
  have h := opens_foldl_openSibling ord (d.create (logName k)) js
    { aof := some { path := logName k }, inst := k }
  rw [hopen]
  refine ⟨h.inst, h.aof, h.dirty, ?_, h.reader, h.mem⟩
  simpa only [Dir.content_create] using h.links

end Shrt
