import Shrt.Lib.LastWrite
import Shrt.Store.Ops

/-!
# Links, and what log lines do to them

The part of the index that a restart has to rebuild is the map from codes to links: url, creation
time, expiry and owner. Hit counters are left out. On this map a log line is one entry of a
last-write-wins log (`Op.writes`) and folding lines into an index is replaying them
(`links_replayInto`), for whatever bytes the file holds.

Bytes are read back in pieces, so what a file is worth is a function of its bytes (`writesOf`), and
the function is additive where the pieces are whole lines (`IsLog`).
-/

namespace Shrt

open LastWrite (Write replay)

/-! ## Links -/

/-- What is kept of an entry across restarts, hit counters apart. -/
structure LinkRow where
  /-- The target url. -/
  u : Bytes
  /-- Creation time. -/
  a : Int64
  /-- Expiry, `0` for never. -/
  e : Int64
  /-- The owning instance. -/
  i : Int32
  deriving DecidableEq

/-- The link of an entry. -/
def Entry.link (e : Entry) : LinkRow := { u := e.u, a := e.a, e := e.e, i := e.i }

/-- The links of an index. -/
def Inner.links (s : Inner) : Bytes → Option LinkRow := fun c ↦ (s.find c).map Entry.link

/-- The link a row line carries. -/
def Op.link (o : Op) : LinkRow :=
  { u := o.u, a := o.a, e := if o.hasE then o.e else 0, i := o.i.toInt32 }

/-- What a parsed line does to the links, by the precedence of `apply`: a tombstone, then a hit,
then a row. -/
def Op.writes (o : Op) : List (Write Bytes LinkRow) :=
  if o.x ≠ [] then [.del o.x]
  else if o.h ≠ [] then []
  else if o.c = [] then []
  else [.put o.c o.link]

/-- What a file does to the links. -/
def writesOf (content : Bytes) : List (Write Bytes LinkRow) := (replayOps content).flatMap Op.writes

/-! ## Lookups after a change of the index -/

@[simp] theorem Inner.find_put (s : Inner) (c c' : Bytes) (e : Entry) :
    (s.put c e).find c' = if c' = c then some e else s.find c' := Shards.find_put ..

@[simp] theorem Inner.find_erase (s : Inner) (c c' : Bytes) :
    (s.erase c).find c' = if c' = c then none else s.find c' := Shards.find_erase ..

theorem Inner.links_put (s : Inner) (c : Bytes) (e : Entry) :
    (s.put c e).links = Function.update s.links c (some e.link) := by
  funext c'
  rw [links, Inner.find_put, Function.update_apply]
  split_ifs <;> rfl

theorem Inner.links_erase (s : Inner) (c : Bytes) :
    (s.erase c).links = Function.update s.links c none := by
  funext c'
  rw [links, Inner.find_erase, Function.update_apply]
  split_ifs <;> rfl

/-- A change of the entry that keeps the link is invisible here. -/
theorem Inner.links_put_of_link_eq {s : Inner} {c : Bytes} {e e' : Entry} (h : s.find c = some e)
    (hl : e'.link = e.link) : (s.put c e').links = s.links := by
  rw [links_put, hl]
  refine Function.update_eq_self_iff.mpr ?_
  rw [links, h, Option.map_some]

theorem Inner.links_eq_of_shards {s s' : Inner} (h : ∀ c, s'.find c = s.find c) :
    s'.links = s.links := funext fun c ↦ by rw [links, links, h c]

/-! ## The index sections of the calls

What each section can do, once: the callers below never unfold them. -/

namespace Store

variable {st st' : Store} {code url line : Bytes} {ttl now : Int64} {hasTtl track : Bool}

/-- An update that goes through finds an own entry and replaces its url and expiry. -/
theorem updateIndex_eq_ok (h : st.updateIndex code url ttl hasTtl now = .ok (st', line)) :
    ∃ e exp, st.inner.find code = some e ∧ e.i = instInt st.inner.inst ∧
      st' = st.mapInner (·.put code { e with u := url, e := exp }) ∧
      line = st.rowFor code url e.a exp := by
  rw [updateIndex] at h
  cases hf : st.inner.find code with
  | none =>
    rw [hf] at h
    exact absurd h (by simp)
  | some e =>
    rw [hf] at h
    simp only at h
    by_cases hi : e.i = instInt st.inner.inst
    · rw [if_neg (not_not.mpr hi)] at h
      obtain ⟨rfl, rfl⟩ := Prod.mk.inj (Except.ok.inj h)
      exact ⟨e, _, rfl, hi, rfl, rfl⟩
    · rw [if_pos hi] at h
      exact absurd h (by simp)

/-- A removal that goes through finds an own entry and erases it. -/
theorem removeIndex_eq_ok (h : st.removeIndex code = .ok (st', line)) :
    ∃ e, st.inner.find code = some e ∧ e.i = instInt st.inner.inst ∧
      st' = st.mapInner (·.erase code) ∧ line = delLine code := by
  rw [removeIndex] at h
  cases hf : st.inner.find code with
  | none =>
    rw [hf] at h
    exact absurd h (by simp)
  | some e =>
    rw [hf] at h
    simp only at h
    by_cases hi : e.i = instInt st.inner.inst
    · rw [if_neg (not_not.mpr hi)] at h
      obtain ⟨rfl, rfl⟩ := Prod.mk.inj (Except.ok.inj h)
      exact ⟨e, rfl, hi, rfl, rfl⟩
    · rw [if_pos hi] at h
      exact absurd h (by simp)

/-- A lookup changes the index only when it counts a hit. -/
theorem lookup_cases (st : Store) (code : Bytes) (now : Int64) (track : Bool) :
    (∃ e, st.inner.find code = some e ∧ track = true ∧
      st.lookup code now track = (st.mapInner (·.put code (bumped e)), .url e.u)) ∨
    ∃ r, st.lookup code now track = (st, r) ∧ (track = true → ∀ u, r ≠ .url u) ∧
      (r = .absent ↔ st.inner.find code = none) := by
  rw [lookup]
  cases hf : st.inner.find code with
  | none => exact .inr ⟨.absent, rfl, by simp, by simp⟩
  | some e =>
    simp only
    by_cases hl : live e now = true
    · rw [if_pos hl]
      cases track with
      | true => exact .inl ⟨e, rfl, rfl, rfl⟩
      | false => exact .inr ⟨_, rfl, by simp, by simp⟩
    · rw [if_neg hl]
      exact .inr ⟨.expired, rfl, by simp, by simp⟩

end Store

/-! ## What writing out leaves alone -/

namespace Store

variable (st : Store)

@[simp] theorem inst_flushAof : st.flushAof.inner.inst = st.inner.inst := by
  rw [flushAof]
  cases st.inner.aof <;> rfl

@[simp] theorem shards_flushAof : st.flushAof.inner.shards = st.inner.shards := by
  rw [flushAof]
  cases st.inner.aof <;> rfl

@[simp] theorem inst_flushIfFull : st.flushIfFull.inner.inst = st.inner.inst := by
  rw [flushIfFull]
  cases st.inner.aof with
  | none => rfl
  | some a =>
    simp only
    split_ifs
    · exact inst_flushAof st
    · rfl

@[simp] theorem shards_flushIfFull : st.flushIfFull.inner.shards = st.inner.shards := by
  rw [flushIfFull]
  cases st.inner.aof with
  | none => rfl
  | some a =>
    simp only
    split_ifs
    · exact shards_flushAof st
    · rfl

@[simp] theorem inst_truncateAof : st.truncateAof.inner.inst = st.inner.inst := by
  rw [truncateAof]
  cases st.inner.aof <;> rfl

@[simp] theorem shards_truncateAof : st.truncateAof.inner.shards = st.inner.shards := by
  rw [truncateAof]
  cases st.inner.aof <;> rfl

end Store

/-! ## Folding lines in -/

/-- **A line is a write.** -/
theorem links_apply (ord : Order) (s : Inner) (o : Op) :
    (apply ord s o).links = replay s.links o.writes := by
  rw [apply, Op.writes]
  split_ifs with hx hh hc
  · exact Inner.links_erase s o.x
  · rw [applyHit]
    cases hf : s.find o.h with
    | some e => exact Inner.links_put_of_link_eq hf rfl
    | none => rfl
  · rfl
  · exact Inner.links_put s o.c _

/-- A quantity that no single line changes is not changed by a list of lines. -/
theorem foldl_applyLine_keeps {β : Type*} {f : Inner → β} {ord : Order}
    (h : ∀ s o, f (apply ord s o) = f s) (lines : List Bytes) :
    ∀ s : Inner, f (lines.foldl (applyLine ord) s) = f s := by
  induction lines with
  | nil => intro s; rfl
  | cons l lines ih =>
    intro s
    rw [List.foldl_cons, ih, applyLine]
    cases parseOp l with
    | none => rfl
    | some o => exact h s o

/-- Folding lines in is folding in what they parse to. -/
theorem foldl_applyLine (ord : Order) (lines : List Bytes) : ∀ s : Inner,
    lines.foldl (applyLine ord) s = (lines.filterMap parseOp).foldl (apply ord) s := by
  induction lines with
  | nil => intro s; rfl
  | cons l lines ih =>
    intro s
    rw [List.foldl_cons, ih, applyLine, List.filterMap_cons]
    cases parseOp l <;> rfl

theorem replayInto_eq (ord : Order) (s : Inner) (content : Bytes) :
    replayInto ord s content = (replayOps content).foldl (apply ord) s :=
  foldl_applyLine ord _ s

theorem links_foldl_apply (ord : Order) (os : List Op) : ∀ s : Inner,
    (os.foldl (apply ord) s).links = replay s.links (os.flatMap Op.writes) := by
  induction os with
  | nil => intro s; rfl
  | cons o os ih =>
    intro s
    rw [List.foldl_cons, ih, links_apply, List.flatMap_cons, LastWrite.replay_append]

/-- **Replaying a file is replaying its writes.** -/
theorem links_replayInto (ord : Order) (s : Inner) (content : Bytes) :
    (replayInto ord s content).links = replay s.links (writesOf content) := by
  rw [replayInto_eq, links_foldl_apply, writesOf]

/-- What no branch of `apply` touches, `apply` does not touch. -/
theorem apply_keeps {β : Type*} {f : Inner → β} {ord : Order}
    (hdel : ∀ s c, f (applyDel s c) = f s)
    (hhit : ∀ s c d own, f (applyHit ord s c d own) = f s)
    (hrow : ∀ s o, f (applyRow s o) = f s) (s : Inner) (o : Op) : f (apply ord s o) = f s := by
  rw [apply]
  split_ifs
  · exact hdel s o.x
  · exact hhit s o.h o.d _
  · rfl
  · exact hrow s o

section Frame

variable (ord : Order) (s : Inner) (o : Op)

theorem applyHit_keeps {β : Type*} {f : Inner → β} (hput : ∀ s c e, f (Inner.put s c e) = f s)
    (htail : ∀ (s : Inner) m, f { s with tail := { s.tail with stray := m } } = f s)
    (c : Bytes) (d : Int64) (own : Bool) : f (applyHit ord s c d own) = f s := by
  rw [applyHit]
  cases s.find c with
  | some e => exact hput s c _
  | none => exact htail s _

@[simp] theorem apply_aof : (apply ord s o).aof = s.aof :=
  apply_keeps (f := Inner.aof) (fun _ _ ↦ rfl)
    (fun s ↦ applyHit_keeps ord s (fun _ _ _ ↦ rfl) fun _ _ ↦ rfl) (fun _ _ ↦ rfl) s o

@[simp] theorem apply_inst : (apply ord s o).inst = s.inst :=
  apply_keeps (f := Inner.inst) (fun _ _ ↦ rfl)
    (fun s ↦ applyHit_keeps ord s (fun _ _ _ ↦ rfl) fun _ _ ↦ rfl) (fun _ _ ↦ rfl) s o

@[simp] theorem apply_readers : (apply ord s o).tail.readers = s.tail.readers :=
  apply_keeps (f := fun s ↦ s.tail.readers) (fun _ _ ↦ rfl)
    (fun s ↦ applyHit_keeps ord s (f := fun s ↦ s.tail.readers) (fun _ _ _ ↦ rfl) fun _ _ ↦ rfl)
    (fun _ _ ↦ rfl) s o

@[simp] theorem apply_dirty (k : Fin NUM_SHARDS) :
    ((apply ord s o).shards k).dirty = (s.shards k).dirty :=
  apply_keeps (f := fun s ↦ (s.shards k).dirty) (fun s c ↦ s.shards.dirty_erase c k)
    (fun s ↦ applyHit_keeps ord s (f := fun s ↦ (s.shards k).dirty)
      (fun s c e ↦ s.shards.dirty_put c e k) fun _ _ ↦ rfl)
    (fun s _ ↦ s.shards.dirty_put _ _ k) s o

@[simp] theorem replayInto_aof (content : Bytes) : (replayInto ord s content).aof = s.aof :=
  foldl_applyLine_keeps (f := Inner.aof) (apply_aof ord) _ s

@[simp] theorem replayInto_inst (content : Bytes) : (replayInto ord s content).inst = s.inst :=
  foldl_applyLine_keeps (f := Inner.inst) (apply_inst ord) _ s

@[simp] theorem replayInto_readers (content : Bytes) :
    (replayInto ord s content).tail.readers = s.tail.readers :=
  foldl_applyLine_keeps (f := fun s ↦ s.tail.readers) (apply_readers ord) _ s

@[simp] theorem replayInto_dirty (content : Bytes) (k : Fin NUM_SHARDS) :
    ((replayInto ord s content).shards k).dirty = (s.shards k).dirty :=
  foldl_applyLine_keeps (f := fun s ↦ (s.shards k).dirty) (fun s o ↦ apply_dirty ord s o k) _ s

end Frame

/-! ## Whole lines -/

/-- An operation an instance writes carries its id; a tombstone carries none. -/
def LogOp.Own (inst : InstanceId) : LogOp → Prop
  | row _ _ _ _ i _ => i = instLong inst
  | hit _ _ i => i = instLong inst
  | del _ => True

/-- Bytes that replay as operations of one instance. -/
def ReplaysOwn (inst : InstanceId) (bytes : Bytes) : Prop :=
  ∃ ops : List LogOp, (∀ op ∈ ops, op.Own inst) ∧ replayOps bytes = ops.map LogOp.toOp

/-- Bytes that are lines of one instance, each with its newline. -/
def IsLog (inst : InstanceId) (bytes : Bytes) : Prop :=
  ∃ ops : List LogOp, (∀ op ∈ ops, op.Own inst) ∧ bytes = logText ops

variable {inst : InstanceId} {b b' : Bytes}

theorem isLog_nil : IsLog inst [] := ⟨[], by simp, rfl⟩

theorem isLog_logText {ops : List LogOp} (h : ∀ op ∈ ops, op.Own inst) : IsLog inst (logText ops) :=
  ⟨ops, h, rfl⟩

theorem isLog_line {op : LogOp} (h : op.Own inst) : IsLog inst (op.line ++ [NL]) :=
  ⟨[op], by simpa using h, (logText_cons op []).symm⟩

theorem IsLog.append (h : IsLog inst b) (h' : IsLog inst b') : IsLog inst (b ++ b') := by
  obtain ⟨ops, hops, rfl⟩ := h
  obtain ⟨ops', hops', rfl⟩ := h'
  refine ⟨ops ++ ops', fun op hop ↦ ?_, (logText_append ops ops').symm⟩
  rcases List.mem_append.mp hop with hop | hop
  · exact hops op hop
  · exact hops' op hop

/-- A torn log still replays as operations of its writer. -/
theorem IsLog.replaysOwn_take (h : IsLog inst b) (m : ℕ) : ReplaysOwn inst (b.take m) := by
  obtain ⟨ops, hops, rfl⟩ := h
  exact ⟨_, fun op hop ↦ hops op (List.mem_of_mem_take hop), replayOps_logText_take ops m⟩

theorem IsLog.replaysOwn (h : IsLog inst b) : ReplaysOwn inst b := by
  have := h.replaysOwn_take b.length
  rwa [List.take_length] at this

theorem IsLog.replaysOwn_reached (h : IsLog inst b) (io : Store.CompactIo) :
    ReplaysOwn inst (io.reached b) := by
  rw [Store.CompactIo.reached]
  split
  · exact h.replaysOwn
  · exact h.replaysOwn_take _

theorem replaysOwn_nil : ReplaysOwn inst [] := isLog_nil.replaysOwn

/-- Bytes after whole lines are read as if they stood alone. -/
theorem replayOps_append (h : IsLog inst b) (t : Bytes) :
    replayOps (b ++ t) = replayOps b ++ replayOps t := by
  obtain ⟨ops, -, rfl⟩ := h
  rw [replayOps_logText_append, replayOps_logText]

@[simp] theorem replayOps_nil : replayOps [] = [] := rfl

theorem replayOps_line (op : LogOp) : replayOps (op.line ++ [NL]) = [op.toOp] := by
  have h := replayOps_logText [op]
  rwa [logText_cons, logText_nil] at h

@[simp] theorem writesOf_nil : writesOf [] = [] := rfl

theorem writesOf_append (h : IsLog inst b) (t : Bytes) :
    writesOf (b ++ t) = writesOf b ++ writesOf t := by
  rw [writesOf, replayOps_append h, List.flatMap_append, writesOf, writesOf]

/-! ## The lines the store writes -/

theorem writesOf_line (op : LogOp) : writesOf (op.line ++ [NL]) = op.toOp.writes := by
  rw [writesOf, replayOps_line, List.flatMap_singleton]

theorem writesOf_logText (ops : List LogOp) :
    writesOf (logText ops) = ops.flatMap fun op ↦ op.toOp.writes := by
  rw [writesOf, replayOps_logText, List.flatMap_map]

theorem writes_row (c : Code) (u : Bytes) (a e i n : Int64) :
    (LogOp.row c u a e i n).toOp.writes = [.put c.1 { u, a, e, i := i.toInt32 }] := by
  have he : (if e ≠ 0 then e else 0) = e := by split_ifs with h <;> simp_all
  simp [Op.writes, LogOp.toOp, Op.link, c.ne_nil, he]

theorem writes_hit (c : Code) (d i : Int64) : (LogOp.hit c d i).toOp.writes = [] := by
  simp [Op.writes, LogOp.toOp, c.ne_nil]

theorem writes_del (c : Code) : (LogOp.del c).toOp.writes = [.del c.1] := by
  simp [Op.writes, LogOp.toOp, c.ne_nil]

/-- A line writes no code but its own. -/
theorem key_of_mem_writes {op : LogOp} {w : Write Bytes LinkRow} (h : w ∈ op.toOp.writes) :
    w.key = op.code.1 := by
  cases op with
  | row c u a e i n =>
    rw [writes_row, List.mem_singleton] at h
    rw [h]
    rfl
  | hit c d i =>
    rw [writes_hit] at h
    exact absurd h List.not_mem_nil
  | del c =>
    rw [writes_del, List.mem_singleton] at h
    rw [h]
    rfl

end Shrt
