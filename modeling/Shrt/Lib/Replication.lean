import Shrt.Lib.LastWrite

/-!
# Replication by following logs

Several nodes keep a map each. A node writes to a log of its own, through a buffer, and follows the
logs of the others: it reads each of them from where it stopped and applies what it finds to its
map. A log can be folded into a snapshot, at which only nodes that join later look.

This is the abstract picture. Logs are lists of last-write-wins entries, and what a follower has yet
to read of a log is a list of its own (`State.unread`). `Action.Enabled` says when a node can do
what.

About a key that only one node writes (`Lone`), two things hold. What a follower has yet to read
makes up the difference between its value and the writer's (`Sole`), and a compaction keeps this
when the followers have the writer's value already, since it discards the log that they read.
Without compaction a follower's value is that of a prefix of the writer's entries, and the prefix
grows (`Traced`).
-/

namespace Replication

open LastWrite (Write Silent replay replay_append replay_congr)

/-- The nodes, and what is on its way between them. -/
@[ext]
structure State (ι κ ν : Type*) where
  /-- Whether a node has joined. -/
  alive : ι → Bool
  /-- The map of a node. -/
  view : ι → κ → Option ν
  /-- The snapshot of a node. -/
  snap : ι → List (Write κ ν)
  /-- The log of a node. -/
  log : ι → List (Write κ ν)
  /-- What a node has written and not logged yet. -/
  buffer : ι → List (Write κ ν)
  /-- What the first node has yet to read of the log of the second. -/
  unread : ι → ι → List (Write κ ν)

/-- What a node can do. -/
inductive Action (ι κ ν : Type*) where
  /-- Change the own map, and buffer the entries. -/
  | push (j : ι) (ws : List (Write κ ν))
  /-- Move the buffer to the log. -/
  | flush (j : ι)
  /-- Apply the next entries of another node's log. -/
  | read (k j : ι) (n : ℕ)
  /-- Replace snapshot and log by a new snapshot. -/
  | compact (j : ι) (rows : List (Write κ ν))
  /-- Join, with a map made from the snapshots. -/
  | join (k : ι) (v : κ → Option ν)

variable {ι κ ν : Type*} [DecidableEq κ]

/-! ## What the nodes know of a key -/

/-- One node writes the key. Its map is what it has written, and a follower lacks what it has yet to
read. -/
structure Sole (j : ι) (c : κ) (s : State ι κ ν) : Prop where
  own : replay (fun _ ↦ none) (s.snap j ++ s.log j ++ s.buffer j) c = s.view j c
  behind : ∀ k, k ≠ j → s.alive k = true →
    replay (s.view k) (s.unread k j) c = replay (fun _ ↦ none) (s.snap j ++ s.log j) c
  silent : ∀ i, i ≠ j → Silent c (s.snap i) ∧ Silent c (s.log i) ∧ Silent c (s.buffer i) ∧
    ∀ k, Silent c (s.unread k i)

/-- What is on its way from other nodes says nothing about the key. -/
def Lone (j : ι) (c : κ) (s : State ι κ ν) : Prop :=
  ∀ i, i ≠ j → Silent c (s.snap i) ∧ Silent c (s.log i) ∧ Silent c (s.buffer i) ∧
    ∀ k, Silent c (s.unread k i)

/-- The entries of a node about the key, oldest first. -/
def State.lines (s : State ι κ ν) (j : ι) (c : κ) : List (Write κ ν) :=
  (s.log j ++ s.buffer j).filter fun w ↦ w.key = c

/-- How many of them a follower has read. -/
def State.progress (s : State ι κ ν) (k j : ι) (c : κ) : ℕ :=
  (s.lines j c).length - ((s.unread k j ++ s.buffer j).filter fun w ↦ w.key = c).length

/-- The entries of a node about the key that a follower has read. -/
def State.seen (s : State ι κ ν) (k j : ι) (c : κ) : List (Write κ ν) :=
  (s.lines j c).take (s.progress k j c)

/-- A follower has read a prefix of the writer's log and knows nothing else about the key. -/
structure Traced (j : ι) (c : κ) (s : State ι κ ν) : Prop extends Sole j c s where
  fresh : s.snap j = []
  seen : ∀ k, k ≠ j → s.alive k = true →
    ∃ ds, s.log j = ds ++ s.unread k j ∧ s.view k c = replay (fun _ ↦ none) ds c

section Known

variable {s : State ι κ ν} {j k : ι} {c : κ}

/-- What has not been read and what has not been logged make up the difference. -/
theorem Sole.replay_unread_buffer (h : Sole j c s) (hk : k ≠ j) (hal : s.alive k = true) :
    replay (s.view k) (s.unread k j ++ s.buffer j) c = s.view j c := by
  rw [← h.own, replay_append, replay_append (fun _ ↦ none), replay_congr (h.behind k hk hal)]

/-- The entries split at what the follower has read. -/
theorem State.lines_eq {ds : List (Write κ ν)} (hds : s.log j = ds ++ s.unread k j) :
    s.lines j c = ds.filter (fun w ↦ w.key = c)
      ++ (s.unread k j ++ s.buffer j).filter fun w ↦ w.key = c := by
  rw [lines, hds, List.append_assoc, List.filter_append]

theorem State.progress_eq {ds : List (Write κ ν)} (hds : s.log j = ds ++ s.unread k j) :
    s.progress k j c = (ds.filter fun w ↦ w.key = c).length := by
  rw [progress, lines_eq hds, List.length_append, Nat.add_sub_cancel]

/-- **A follower's value is that of a prefix.** -/
theorem Traced.view_eq (h : Traced j c s) (hk : k ≠ j) (hal : s.alive k = true) :
    s.view k c = replay (fun _ ↦ none) (s.seen k j c) c := by
  obtain ⟨ds, hds, hview⟩ := h.seen k hk hal
  rw [State.seen, State.progress_eq hds, State.lines_eq hds, List.take_left,
    LastWrite.replay_filter_key, hview]

end Known

/-! ## Actions -/

variable [DecidableEq ι]

/-- What becomes of the nodes. -/
def act (s : State ι κ ν) : Action ι κ ν → State ι κ ν
  | .push j ws => { s with
      view := Function.update s.view j (replay (s.view j) ws)
      buffer := Function.update s.buffer j (s.buffer j ++ ws) }
  | .flush j => { s with
      log := Function.update s.log j (s.log j ++ s.buffer j)
      buffer := Function.update s.buffer j []
      unread := fun k i ↦ if i = j then s.unread k i ++ s.buffer j else s.unread k i }
  | .read k j n => { s with
      view := Function.update s.view k (replay (s.view k) ((s.unread k j).take n))
      unread := fun k' i ↦ if k' = k ∧ i = j then (s.unread k j).drop n else s.unread k' i }
  | .compact j rows => { s with
      snap := Function.update s.snap j rows
      log := Function.update s.log j []
      unread := fun k i ↦ if i = j then [] else s.unread k i }
  | .join k v => { s with
      alive := Function.update s.alive k true
      view := Function.update s.view k v }

variable {s : State ι κ ν} {a : Action ι κ ν} {j k : ι} {c : κ}

/-! ### One writer -/

/-- The actions that respect a writer of the key. -/
def Action.Respects (j : ι) (c : κ) (s : State ι κ ν) : Action ι κ ν → Prop
  | push i ws => i ≠ j → Silent c ws
  | flush _ => True
  | read k i _ => k ≠ i
  | compact i rows => s.buffer i = [] ∧ (i ≠ j → Silent c rows) ∧
      (i = j → replay (fun _ ↦ none) rows c = s.view j c ∧
        ∀ k, k ≠ j → s.alive k = true → s.view k c = s.view j c)
  | join k v => s.alive k = false ∧ v c = replay (fun _ ↦ none) (s.snap j) c ∧
      (k ≠ j → s.unread k j = s.log j) ∧ (k = j → s.log j = [] ∧ s.buffer j = [])

namespace Lone

theorem push (h : Lone j c s) {i : ι} {ws : List (Write κ ν)} (hws : i ≠ j → Silent c ws) :
    Lone j c (act s (.push i ws)) := by
  intro i' hi'
  obtain ⟨hsnap, hlog, hbuf, hun⟩ := h i' hi'
  refine ⟨hsnap, hlog, ?_, hun⟩
  simp only [act, Function.update_apply]
  split_ifs with hi
  · subst hi
    exact LastWrite.silent_append.mpr ⟨hbuf, hws hi'⟩
  · exact hbuf

theorem flush (h : Lone j c s) (i : ι) : Lone j c (act s (.flush i)) := by
  intro i' hi'
  obtain ⟨hsnap, hlog, hbuf, hun⟩ := h i' hi'
  simp only [act, Function.update_apply]
  refine ⟨hsnap, ?_, ?_, fun k ↦ ?_⟩
  · split_ifs with hi
    · rw [← hi]
      exact LastWrite.silent_append.mpr ⟨hlog, hbuf⟩
    · exact hlog
  · split_ifs
    · exact LastWrite.silent_nil c
    · exact hbuf
  · split_ifs with hi
    · rw [← hi]
      exact LastWrite.silent_append.mpr ⟨hun k, hbuf⟩
    · exact hun k

theorem read (h : Lone j c s) (k i : ι) (n : ℕ) : Lone j c (act s (.read k i n)) := by
  intro i' hi'
  obtain ⟨hsnap, hlog, hbuf, hun⟩ := h i' hi'
  refine ⟨hsnap, hlog, hbuf, fun k' ↦ ?_⟩
  simp only [act]
  split_ifs with hc
  · rw [← hc.2]
    exact fun w hw ↦ hun k w (List.mem_of_mem_drop hw)
  · exact hun k'

theorem compact (h : Lone j c s) {i : ι} {rows : List (Write κ ν)} (hrows : i ≠ j → Silent c rows) :
    Lone j c (act s (.compact i rows)) := by
  intro i' hi'
  obtain ⟨hsnap, hlog, hbuf, hun⟩ := h i' hi'
  simp only [act, Function.update_apply]
  refine ⟨?_, ?_, hbuf, fun k ↦ ?_⟩
  · split_ifs with hi
    · exact hrows (hi ▸ hi')
    · exact hsnap
  · split_ifs
    · exact LastWrite.silent_nil c
    · exact hlog
  · split_ifs
    · exact LastWrite.silent_nil c
    · exact hun k

end Lone

namespace Sole

theorem push (h : Sole j c s) {i : ι} {ws : List (Write κ ν)} (hws : i ≠ j → Silent c ws) :
    Sole j c (act s (.push i ws)) := by
  have hlone : Lone j c (act s (.push i ws)) := Lone.push h.silent hws
  by_cases hij : i = j
  · subst hij
    refine ⟨?_, fun k hk hal ↦ ?_, hlone⟩
    · simp only [act, Function.update_self]
      rw [← List.append_assoc, replay_append, replay_congr h.own]
    · simp only [act, Function.update_of_ne hk]
      exact h.behind k hk hal
  · have hquiet := hws hij
    refine ⟨?_, fun k hk hal ↦ ?_, hlone⟩
    · simp only [act, Function.update_of_ne (Ne.symm hij)]
      exact h.own
    · -- The pushing node may be the follower; what it writes is about other keys.
      have hview : (act s (.push i ws)).view k c = s.view k c := by
        simp only [act, Function.update_apply]
        split_ifs with hki
        · rw [hki, hquiet.replay]
        · rfl
      rw [replay_congr hview]
      exact h.behind k hk hal

theorem flush (h : Sole j c s) (i : ι) : Sole j c (act s (.flush i)) := by
  refine ⟨?_, fun k hk hal ↦ ?_, Lone.flush h.silent i⟩
  · refine Eq.trans ?_ h.own
    simp only [act, Function.update_apply]
    split_ifs with hij
    · rw [hij, List.append_nil, List.append_assoc]
    · rfl
  · have hbehind := h.behind k hk hal
    simp only [act, Function.update_apply]
    split_ifs with hij
    · rw [← hij, ← List.append_assoc, replay_append, replay_append (fun _ ↦ none)]
      exact replay_congr hbehind _
    · exact hbehind

theorem read (h : Sole j c s) {k i : ι} (hki : k ≠ i) (n : ℕ) : Sole j c (act s (.read k i n)) := by
  -- Entries of another log say nothing about the key.
  have hother : i ≠ j → replay (s.view k) ((s.unread k i).take n) c = s.view k c := fun hij ↦
    Silent.replay (fun w hw ↦ (h.silent i hij).2.2.2 k w (List.mem_of_mem_take hw)) _
  refine ⟨?_, fun k' hk' hal ↦ ?_, Lone.read h.silent k i n⟩
  · simp only [act, Function.update_apply]
    split_ifs with hjk
    · subst hjk
      rw [hother (Ne.symm hki)]
      exact h.own
    · exact h.own
  · have hbehind := h.behind k' hk' hal
    simp only [act, Function.update_apply]
    by_cases hkk : k' = k
    · subst hkk
      rw [if_pos rfl]
      by_cases hij : j = i
      · rw [if_pos ⟨rfl, hij⟩, ← replay_append, List.take_append_drop, ← hij]
        exact hbehind
      · rw [if_neg fun hc ↦ hij hc.2, replay_congr (hother (Ne.symm hij))]
        exact hbehind
    · rw [if_neg hkk, if_neg fun hc ↦ hkk hc.1]
      exact hbehind

theorem compact (h : Sole j c s) {i : ι} {rows : List (Write κ ν)}
    (ha : (Action.compact i rows).Respects j c s) : Sole j c (act s (.compact i rows)) := by
  obtain ⟨hbuf, hother, hself⟩ := ha
  have hlone : Lone j c (act s (.compact i rows)) := Lone.compact h.silent hother
  by_cases hij : i = j
  · subst hij
    obtain ⟨hrows, hread⟩ := hself rfl
    refine ⟨?_, fun k hk hal ↦ ?_, hlone⟩
    · simp only [act, Function.update_self]
      rw [hbuf, List.append_nil, List.append_nil]
      exact hrows
    · simp only [act, Function.update_self, if_true]
      rw [List.append_nil, hrows]
      exact hread k hk hal
  · refine ⟨?_, fun k hk hal ↦ ?_, hlone⟩
    · simp only [act, Function.update_of_ne (Ne.symm hij)]
      exact h.own
    · simp only [act, Function.update_of_ne (Ne.symm hij), if_neg (Ne.symm hij)]
      exact h.behind k hk hal

theorem join (h : Sole j c s) {k : ι} {v : κ → Option ν} (ha : (Action.join k v).Respects j c s) :
    Sole j c (act s (.join k v)) := by
  obtain ⟨-, hv, hother, hself⟩ := ha
  refine ⟨?_, fun k' hk' hal ↦ ?_, h.silent⟩
  · simp only [act, Function.update_apply]
    split_ifs with hjk
    · obtain ⟨hlog, hbuf⟩ := hself hjk.symm
      rw [hlog, hbuf, List.append_nil, List.append_nil, hv]
    · exact h.own
  · simp only [act, Function.update_apply] at hal ⊢
    by_cases hkk : k' = k
    · subst hkk
      rw [if_pos rfl, hother hk', replay_append, replay_congr hv]
    · rw [if_neg hkk] at hal ⊢
      exact h.behind k' hk' hal

/-- **One writer.** -/
theorem act (h : Sole j c s) (ha : a.Respects j c s) : Sole j c (act s a) := by
  cases a with
  | push i ws => exact h.push ha
  | flush i => exact h.flush i
  | read k i n => exact h.read ha n
  | compact i rows => exact h.compact ha
  | join k v => exact h.join ha

end Sole

/-! ### Prefixes -/

/-- Whether an action discards a log. -/
def Action.compacts : Action ι κ ν → Bool
  | compact .. => true
  | _ => false

/-- The entries of a node are only added to. -/
theorem State.lines_act (hcompact : a.compacts = false) : s.lines j c <+: (act s a).lines j c := by
  cases a with
  | push i ws =>
    simp only [lines, act, Function.update_apply]
    split_ifs with hji
    · rw [hji, ← List.append_assoc, List.filter_append (s.log i ++ s.buffer i)]
      exact List.prefix_append _ _
    · exact List.prefix_rfl
  | flush i =>
    simp only [lines, act, Function.update_apply]
    split_ifs with hji
    · rw [hji, List.append_nil]
    · exact List.prefix_rfl
  | compact i rows => contradiction
  | read k i n => exact List.prefix_rfl
  | join k v => exact List.prefix_rfl

namespace Traced

/-- A follower only reads on. -/
theorem seen_act (h : Traced j c s) (ha : a.Respects j c s) (hcompact : a.compacts = false)
    (hk : k ≠ j) (hal : s.alive k = true) {ds : List (Write κ ν)}
    (hds : s.log j = ds ++ s.unread k j) (hview : s.view k c = replay (fun _ ↦ none) ds c) :
    ∃ ds', ds <+: ds' ∧ (act s a).log j = ds' ++ (act s a).unread k j ∧
      (act s a).view k c = replay (fun _ ↦ none) ds' c := by
  cases a with
  | push i ws =>
    refine ⟨ds, List.prefix_rfl, hds, Eq.trans ?_ hview⟩
    simp only [act, Function.update_apply]
    split_ifs with hki
    · subst hki
      exact (ha hk).replay _
    · rfl
  | flush i =>
    refine ⟨ds, List.prefix_rfl, ?_, hview⟩
    simp only [act, Function.update_apply]
    split_ifs with hji
    · subst hji
      rw [hds, List.append_assoc]
    · exact hds
  | read k' i n =>
    simp only [act, Function.update_apply]
    by_cases hkk : k = k'
    · subst hkk
      rw [if_pos rfl]
      by_cases hji : j = i
      · subst hji
        refine ⟨ds ++ (s.unread k j).take n, List.prefix_append _ _, ?_, ?_⟩
        · rw [if_pos ⟨rfl, rfl⟩, List.append_assoc, List.take_append_drop]
          exact hds
        · rw [replay_append, replay_congr hview]
      · refine ⟨ds, List.prefix_rfl, ?_, Eq.trans ?_ hview⟩
        · rw [if_neg fun hc ↦ hji hc.2]
          exact hds
        · -- Entries of another log say nothing about the key.
          exact Silent.replay (fun w hw ↦ (h.silent i (Ne.symm hji)).2.2.2 k w
            (List.mem_of_mem_take hw)) _
    · rw [if_neg hkk, if_neg fun hc ↦ hkk hc.1]
      exact ⟨ds, List.prefix_rfl, hds, hview⟩
  | compact i rows => contradiction
  | join k' v =>
    refine ⟨ds, List.prefix_rfl, hds, Eq.trans ?_ hview⟩
    simp only [act, Function.update_apply]
    split_ifs with hkk
    · subst hkk
      exact absurd (hal.symm.trans ha.1) (by decide)
    · rfl

theorem act (h : Traced j c s) (ha : a.Respects j c s) (hcompact : a.compacts = false) :
    Traced j c (act s a) := by
  have hsole := h.toSole.act ha
  refine ⟨hsole, ?_, fun k hk hal ↦ ?_⟩
  · cases a with
    | compact i rows => exact nomatch hcompact
    | _ => exact h.fresh
  · by_cases hbefore : s.alive k = true
    · obtain ⟨ds, hds, hview⟩ := h.seen k hk hbefore
      obtain ⟨ds', -, hds', hview'⟩ := h.seen_act ha hcompact hk hbefore hds hview
      exact ⟨ds', hds', hview'⟩
    · -- The follower has just joined, and has read nothing.
      cases a with
      | join k' v =>
        obtain ⟨-, hv, hunread, -⟩ := ha
        have hkk : k = k' := by
          by_contra hne
          simp only [Replication.act, Function.update_of_ne hne] at hal
          exact hbefore hal
        subst hkk
        refine ⟨[], (hunread hk).symm, ?_⟩
        simp only [Replication.act, Function.update_self]
        rw [hv, h.fresh]
      | _ => exact absurd hal hbefore

theorem progress_act (h : Traced j c s) (ha : a.Respects j c s) (hcompact : a.compacts = false)
    (hk : k ≠ j) (hal : s.alive k = true) :
    s.progress k j c ≤ (Replication.act s a).progress k j c := by
  obtain ⟨ds, hds, hview⟩ := h.seen k hk hal
  obtain ⟨ds', hpre, hds', -⟩ := h.seen_act ha hcompact hk hal hds hview
  rw [State.progress_eq hds, State.progress_eq hds']
  exact (hpre.filter _).length_le

/-- **What a follower has read never shrinks.** -/
theorem seen_prefix_act (h : Traced j c s) (ha : a.Respects j c s) (hcompact : a.compacts = false)
    (hk : k ≠ j) (hal : s.alive k = true) : s.seen k j c <+: (Replication.act s a).seen k j c := by
  obtain ⟨x, hx⟩ := State.lines_act (s := s) (j := j) (c := c) hcompact
  have hlen : s.progress k j c ≤ (s.lines j c).length := Nat.sub_le _ _
  rw [State.seen, State.seen, ← hx, ← List.take_append_of_le_length hlen]
  exact List.take_prefix_take_left (h.progress_act ha hcompact hk hal)

end Traced

/-- A node that has joined stays. -/
theorem alive_act (hal : s.alive k = true) : (act s a).alive k = true := by
  cases a with
  | join k' v =>
    simp only [act, Function.update_apply]
    split_ifs
    · rfl
    · exact hal
  | _ => exact hal

theorem snap_act (hcompact : a.compacts = false) : (act s a).snap = s.snap := by
  cases a with
  | compact => exact nomatch hcompact
  | push | flush | read | join => rfl

/-- A log from whose writer nothing new about the key comes stays without it. -/
theorem silent_unread_act (hbuf : Silent c (s.buffer j)) (hun : Silent c (s.unread k j)) :
    Silent c ((act s a).unread k j) := by
  cases a with
  | flush i =>
    simp only [act]
    split_ifs with hji
    · exact LastWrite.silent_append.mpr ⟨hun, hji ▸ hbuf⟩
    · exact hun
  | read k' i n =>
    simp only [act]
    split_ifs with hc
    · obtain ⟨rfl, rfl⟩ := hc
      exact fun w hw ↦ hun w (List.mem_of_mem_drop hw)
    · exact hun
  | compact i rows =>
    simp only [act]
    split_ifs
    · exact LastWrite.silent_nil c
    · exact hun
  | push | join => exact hun

/-! ### What nodes can do -/

/-- What a node can do in a state, when values carry the node that wrote them: write keys that it
finds free or its own, read the logs of others, put its own values in a snapshot, and join with what
the snapshots hold. -/
def Action.Enabled (owns : ι → ν → Prop) (s : State ι κ ν) : Action ι κ ν → Prop
  | push m ws => s.alive m = true ∧ (∀ c v, Write.put c v ∈ ws → owns m v) ∧
      ∀ w ∈ ws, s.view m w.key = none ∨ ∃ v, s.view m w.key = some v ∧ owns m v
  | flush _ => True
  | read k i _ => k ≠ i ∧ s.alive k = true
  | compact m rows => s.buffer m = [] ∧
      (∀ w ∈ rows, ∃ c v, w = Write.put c v ∧ s.view m c = some v ∧ owns m v) ∧
      ∀ c v, s.view m c = some v → owns m v → replay (fun _ ↦ none) rows c = some v
  | join k v => s.alive k = false ∧ s.log k = [] ∧ s.buffer k = [] ∧ (∀ i, s.unread k i = s.log i) ∧
      ∃ is : List ι, (∀ i, i ∈ is ∨ s.snap i = []) ∧ v = replay (fun _ ↦ none) (is.flatMap s.snap)

/-- The actions that leave a key to its writer. -/
def Action.Leaves (j : ι) (c : κ) : Action ι κ ν → Prop
  | push i ws => i ≠ j → Silent c ws
  | _ => True

/-- The actions that leave a key to its writer, and lose nothing about it. -/
def Action.Spares (j : ι) (c : κ) (s : State ι κ ν) : Action ι κ ν → Prop
  | push i ws => i ≠ j → Silent c ws
  | compact i _ => i = j → ∀ k, k ≠ j → s.alive k = true → s.view k c = s.view j c
  | _ => True

/-- The values of the key are the writer's. -/
structure Marked (owns : ι → ν → Prop) (j : ι) (c : κ) (s : State ι κ ν) : Prop where
  owner : ∀ k v, s.view k c = some v → owns j v
  signed : ∀ v, Write.put c v ∈ s.snap j ++ s.log j ++ s.buffer j → owns j v
  signed_unread : ∀ k v, Write.put c v ∈ s.unread k j → owns j v

section Guard

variable {owns : ι → ν → Prop}

omit [DecidableEq κ] [DecidableEq ι] in
theorem Action.Spares.leaves (h : a.Spares j c s) : a.Leaves j c := by
  cases a with
  | push => exact h
  | flush | read | compact | join => trivial

/-- Joining gives the key the value of the writer's snapshot. -/
theorem Lone.view_join (h : Lone j c s) {is : List ι} (his : ∀ i, i ∈ is ∨ s.snap i = []) :
    replay (fun _ ↦ none) (is.flatMap s.snap) c = replay (fun _ ↦ none) (s.snap j) c := by
  rw [LastWrite.replay_flatMap_of_silent fun i hi ↦ (h i hi).1]
  split_ifs with hj
  · rfl
  · rw [(his j).resolve_left hj]
    rfl

omit [DecidableEq ι] in
/-- A snapshot of another node says nothing about the key. -/
theorem Marked.silent_rows (hinj : ∀ i i' v, owns i v → owns i' v → i = i') (hmark : Marked owns j c s)
    {i : ι} {rows : List (Write κ ν)} (ha : (Action.compact i rows).Enabled owns s) (hij : i ≠ j) :
    Silent c rows := by
  intro w hw hkey
  obtain ⟨c', v, rfl, hview, hown⟩ := ha.2.1 w hw
  obtain rfl : c' = c := hkey
  exact hij (hinj i j v hown (hmark.owner i v hview))

/-- **One writer**, whatever the others have read. -/
theorem Lone.act (hinj : ∀ i i' v, owns i v → owns i' v → i = i') (h : Lone j c s)
    (hmark : Marked owns j c s) (ha : a.Enabled owns s) (hleaves : a.Leaves j c) :
    Lone j c (act s a) := by
  cases a with
  | push i ws => exact h.push hleaves
  | flush i => exact h.flush i
  | read k i n => exact h.read k i n
  | compact i rows => exact h.compact fun hij ↦ hmark.silent_rows hinj ha hij
  | join k v => exact h

/-- An action that is possible and leaves the key to its writer respects the writer. -/
theorem Sole.respects (hinj : ∀ i i' v, owns i v → owns i' v → i = i') (h : Sole j c s)
    (hmark : Marked owns j c s) (ha : a.Enabled owns s) (hspare : a.Spares j c s) :
    a.Respects j c s := by
  cases a with
  | push i ws => exact hspare
  | flush i => trivial
  | read k i n => exact ha.1
  | compact i rows =>
    have hother : i ≠ j → Silent c rows := fun hij ↦ hmark.silent_rows hinj ha hij
    obtain ⟨hbuf, hrows, hall⟩ := ha
    refine ⟨hbuf, hother, fun hij ↦ ?_⟩
    subst hij
    refine ⟨?_, hspare rfl⟩
    cases hview : s.view i c with
    | some v => exact hall c v hview (hmark.owner i v hview)
    | none =>
      refine Silent.replay (fun w hw hkey ↦ ?_) _
      obtain ⟨c', v, rfl, hv, -⟩ := hrows w hw
      obtain rfl : c' = c := hkey
      exact nomatch hview.symm.trans hv
  | join k v =>
    obtain ⟨halive, hlog, hbuf, hunread, is, his, rfl⟩ := ha
    refine ⟨halive, Lone.view_join h.silent his, fun _ ↦ hunread j, ?_⟩
    rintro rfl
    exact ⟨hlog, hbuf⟩

namespace Marked

theorem act (hmark : Marked owns j c s) (h : Lone j c s) (ha : a.Enabled owns s)
    (hleaves : a.Leaves j c) : Marked owns j c (act s a) := by
  cases a with
  | push i ws =>
    have hws : ∀ v, Write.put c v ∈ ws → owns j v := by
      intro v hv
      by_cases hij : i = j
      · exact hij ▸ ha.2.1 c v hv
      · exact absurd rfl (hleaves hij _ hv)
    refine ⟨fun k v hv ↦ ?_, fun v hv ↦ ?_, hmark.signed_unread⟩
    · simp only [Replication.act, Function.update_apply] at hv
      split_ifs at hv with hki
      · exact (LastWrite.put_mem_of_replay hv).elim (hmark.owner i v) (hws v)
      · exact hmark.owner k v hv
    · simp only [Replication.act, Function.update_apply] at hv
      split_ifs at hv with hji
      · subst hji
        rw [← List.append_assoc] at hv
        exact (List.mem_append.mp hv).elim (hmark.signed v) (hws v)
      · exact hmark.signed v hv
  | flush i =>
    have hbuf : ∀ v, Write.put c v ∈ s.buffer j → owns j v :=
      fun v hv ↦ hmark.signed v (List.mem_append_right _ hv)
    refine ⟨hmark.owner, fun v hv ↦ hmark.signed v ?_, fun k v hv ↦ ?_⟩
    · simp only [Replication.act, Function.update_apply] at hv
      split_ifs at hv with hji
      · subst hji
        rwa [List.append_nil, ← List.append_assoc] at hv
      · exact hv
    · simp only [Replication.act] at hv
      split_ifs at hv with hji
      · subst hji
        exact (List.mem_append.mp hv).elim (hmark.signed_unread k v) (hbuf v)
      · exact hmark.signed_unread k v hv
  | read k i n =>
    refine ⟨fun k' v hv ↦ ?_, hmark.signed, fun k' v hv ↦ ?_⟩
    · simp only [Replication.act, Function.update_apply] at hv
      split_ifs at hv with hkk
      · rcases LastWrite.put_mem_of_replay hv with hv | hv
        · exact hmark.owner k v hv
        · -- Only the writer's log has entries about the key.
          have hmem := List.mem_of_mem_take hv
          by_cases hij : i = j
          · exact hmark.signed_unread k v (hij ▸ hmem)
          · exact absurd rfl ((h i hij).2.2.2 k _ hmem)
      · exact hmark.owner k' v hv
    · simp only [Replication.act] at hv
      split_ifs at hv with hc
      · obtain ⟨rfl, rfl⟩ := hc
        exact hmark.signed_unread k' v (List.mem_of_mem_drop hv)
      · exact hmark.signed_unread k' v hv
  | compact i rows =>
    obtain ⟨-, hrows, -⟩ := ha
    refine ⟨hmark.owner, fun v hv ↦ ?_, fun k v hv ↦ ?_⟩
    · simp only [Replication.act, Function.update_apply] at hv
      split_ifs at hv with hji
      · subst hji
        rw [List.append_nil] at hv
        rcases List.mem_append.mp hv with hv | hv
        · obtain ⟨c', v', heq, -, hown⟩ := hrows _ hv
          obtain ⟨-, rfl⟩ := Write.put.inj heq
          exact hown
        · exact hmark.signed v (List.mem_append_right _ hv)
      · exact hmark.signed v hv
    · simp only [Replication.act] at hv
      split_ifs at hv
      · exact absurd hv List.not_mem_nil
      · exact hmark.signed_unread k v hv
  | join k v =>
    obtain ⟨-, -, -, -, is, his, rfl⟩ := ha
    refine ⟨fun k' v hv ↦ ?_, hmark.signed, hmark.signed_unread⟩
    simp only [Replication.act, Function.update_apply] at hv
    split_ifs at hv with hkk
    · rw [h.view_join his] at hv
      rcases LastWrite.put_mem_of_replay hv with hv | hv
      · contradiction
      · exact hmark.signed v (List.mem_append_left _ (List.mem_append_left _ hv))
    · exact hmark.owner k' v hv

end Marked

/-! ### Reserved keys -/

/-- The key is one node's: nobody else writes it, and its values are the node's. -/
structure Reserved (owns : ι → ν → Prop) (j : ι) (c : κ) (s : State ι κ ν) : Prop where
  lone : Lone j c s
  marked : Marked owns j c s

theorem Reserved.act (hinj : ∀ i i' v, owns i v → owns i' v → i = i') (h : Reserved owns j c s)
    (ha : a.Enabled owns s) (hleaves : a.Leaves j c) : Reserved owns j c (Replication.act s a) :=
  ⟨h.lone.act hinj h.marked ha hleaves, h.marked.act h.lone ha hleaves⟩

omit [DecidableEq κ] [DecidableEq ι] in
/-- A key that could be anybody's has no value. -/
theorem Reserved.view_eq_none (hinj : ∀ i i' v, owns i v → owns i' v → i = i') {j' : ι} (hne : j ≠ j')
    (h : Reserved owns j c s) (h' : Reserved owns j' c s) (k : ι) : s.view k c = none := by
  cases hview : s.view k c with
  | none => rfl
  | some v => exact absurd (hinj j j' v (h.marked.owner k v hview) (h'.marked.owner k v hview)) hne

end Guard

end Replication
