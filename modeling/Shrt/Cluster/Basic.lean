import Shrt.Lib.Replication
import Shrt.Machine.Sequential
import Shrt.Store.Follow
import Shrt.Store.Writes

/-!
# Instances that share a directory

Several instances with distinct ids use one directory. Each of them runs its calls one after
another; between two calls of one instance, any calls of others may happen. Log bytes become visible
while an instance is writing them: a call that reads may come in between and see only the first part
of what a sibling has written (`Label.glimpse`).

`abs` is what such a cluster is for: nodes that write logs and follow each other's
(`Replication.State`). The bytes of a log are its rows and tombstones there, and a reader's position
is the list of those it has yet to deliver.
-/

namespace Shrt

open LastWrite (Write replay)

/-- The instances and the directory they share. -/
structure Cluster where
  /-- Files. -/
  dir : Dir
  /-- The memory of the instances that are open. -/
  nodes : InstanceId → Option Inner

/-- A call that only reads files. -/
def Call.reads : Call → Bool
  | resolve .. | pollTails .. => true
  | _ => false

/-- The codes whose links a call changes: those it has created, or the one it has updated or
removed. -/
def Call.codes (st : Store) : Call → List Bytes
  | shorten url al ttl env =>
    ((st.shorten url (al.map Subtype.val) ttl env.clk env.rng).bind Prod.snd).toList
  | shortenMany urls ttl env => ((st.shortenMany urls ttl env.clk env.rng).map Prod.snd).getD []
  | update code url ttl hasTtl env =>
    if (st.update code url ttl hasTtl env.clk).2 = .ok then [code] else []
  | remove code => if (st.remove code).2 = .ok then [code] else []
  | _ => []

/-- Whether a link is one of an instance. -/
def Owns (i : InstanceId) (v : LinkRow) : Prop := v.i = instInt i

/-- A link is one of a single instance. -/
theorem owns_unique (i i' : InstanceId) (v : LinkRow) (h : Owns i v) (h' : Owns i' v) : i = i' := by
  have heq : instInt i = instInt i' := h.symm.trans h'
  have hlong := congrArg Int32.toInt64 heq
  rw [toInt64_instInt, toInt64_instInt] at hlong
  exact ofNat_injective_of_instance hlong

/-- A step of the cluster. -/
inductive Cluster.Label where
  /-- An instance opens. -/
  | boot (k : InstanceId) (ord : Order)
  /-- An instance runs a call. -/
  | call (k : InstanceId) (call : Call)
  /-- An instance runs a call that reads, while siblings are writing; it sees the given files. -/
  | glimpse (k : InstanceId) (call : Call) (seen : Dir)

namespace Cluster

/-- The instance that takes a step. -/
def Label.node : Label → InstanceId
  | boot k _ | call k _ | glimpse k _ _ => k

/-- What becomes of the file operations of a compaction. -/
def Label.io : Label → Store.CompactIo
  | call _ c => c.io
  | _ => {}

/-- The empty directory. -/
def empty : Cluster := { dir := ∅, nodes := fun _ ↦ none }

/-- The cluster after an instance has changed the files and its memory. -/
def set (s : Cluster) (k : InstanceId) (st : Store) : Cluster :=
  { dir := st.dir, nodes := Function.update s.nodes k (some st.inner) }

/-- What an instance can see of the files while siblings are writing: of each log a first part,
which includes all that the instance has read before. -/
structure Sees (s : Cluster) (inner : Inner) (d : Dir) : Prop where
  keys : d.keys = s.dir.keys
  logs : ∀ j, d.content (logName j) <+: s.dir.content (logName j)
  kept : ∀ j, (inner.reader j).offset ≤ (d.content (logName j)).length ∨
    (s.dir.content (logName j)).length < (inner.reader j).offset

instance decidableSees (s : Cluster) (inner : Inner) (d : Dir) : Decidable (s.Sees inner d) :=
  decidable_of_iff (d.keys = s.dir.keys ∧
    (∀ j, d.content (logName j) <+: s.dir.content (logName j)) ∧
    ∀ j, (inner.reader j).offset ≤ (d.content (logName j)).length ∨
      (s.dir.content (logName j)).length < (inner.reader j).offset)
    ⟨fun h ↦ ⟨h.1, h.2.1, h.2.2⟩, fun h ↦ ⟨h.keys, h.logs, h.kept⟩⟩

/-- The cluster after a step. Ids are distinct, and a call is one of an instance that is open and
stays open. -/
def step (s : Cluster) : Label → Option Cluster
  | .boot k ord => match s.nodes k with
    | none => some (s.set k (openStore ord s.dir k))
    | some _ => none
  | .call k call => (s.nodes k).bind fun inner ↦
      if call.inSession then (call.run ⟨s.dir, inner⟩).map (s.set k) else none
  | .glimpse k call seen => (s.nodes k).bind fun inner ↦
      if call.reads ∧ s.Sees inner seen then
        (call.run ⟨seen, inner⟩).map fun st ↦ s.set k ⟨s.dir, st.inner⟩
      else none

theorem step_call {s s' : Cluster} {k : InstanceId} {call : Call}
    (h : s.step (.call k call) = some s') : ∃ inner st', s.nodes k = some inner ∧
      call.inSession = true ∧ call.run ⟨s.dir, inner⟩ = some st' ∧ s' = s.set k st' := by
  obtain ⟨inner, hk, h⟩ := Option.bind_eq_some_iff.mp h
  split_ifs at h with hsess
  obtain ⟨st', hrun, rfl⟩ := Option.map_eq_some_iff.mp h
  exact ⟨inner, st', hk, hsess, hrun, rfl⟩

/-- The codes whose links a step changes. -/
def codes (s : Cluster) : Label → List Bytes
  | .call k call => (s.nodes k).elim [] fun inner ↦ call.codes ⟨s.dir, inner⟩
  | _ => []

@[simp] theorem dir_set (s : Cluster) (k : InstanceId) (st : Store) : (s.set k st).dir = st.dir := rfl

@[simp] theorem nodes_set_self (s : Cluster) (k : InstanceId) (st : Store) :
    (s.set k st).nodes k = some st.inner := Function.update_self ..

theorem nodes_set_of_ne (s : Cluster) {k i : InstanceId} (h : i ≠ k) (st : Store) :
    (s.set k st).nodes i = s.nodes i := Function.update_of_ne h ..

theorem set_set (s : Cluster) (k : InstanceId) (st st' : Store) :
    (s.set k st).set k st' = s.set k st' := by
  rw [set, set, set, Function.update_idem]

theorem set_self (s : Cluster) {k : InstanceId} {inner : Inner} (h : s.nodes k = some inner) :
    s.set k ⟨s.dir, inner⟩ = s := by
  rw [set, ← h, Function.update_eq_self]

/-! ## The abstract picture -/

/-- The log of an instance. -/
def log (s : Cluster) (k : InstanceId) : Bytes := s.dir.content (logName k)

/-- The snapshot of an instance. -/
def snap (s : Cluster) (k : InstanceId) : Bytes := s.dir.content (snapName k)

/-- The buffer of an instance. -/
def buf (s : Cluster) (k : InstanceId) : Bytes :=
  (s.nodes k).elim [] fun inner ↦ (inner.aof.map Aof.buf).getD []

/-- The links an instance has. -/
def links (s : Cluster) (k : InstanceId) : Bytes → Option LinkRow :=
  (s.nodes k).elim (fun _ ↦ none) Inner.links

/-- An instance's reader of another one's log. -/
def reader (s : Cluster) (k j : InstanceId) : TailReader :=
  (s.nodes k).elim {} fun inner ↦ inner.reader j

/-- What an instance has yet to read of another one's log. -/
def unread (s : Cluster) (k j : InstanceId) : Bytes := (s.reader k j).unread (s.log j)

/-- Nodes that follow each other's logs. -/
def abs (s : Cluster) : Replication.State InstanceId Bytes LinkRow where
  alive k := (s.nodes k).isSome
  view := s.links
  snap k := writesOf (s.snap k)
  log k := writesOf (s.log k)
  buffer k := writesOf (s.buf k)
  unread k j := writesOf (s.unread k j)

/-! ## The shape of a cluster -/

/-- An open instance: its log and buffer are whole lines of its own, its index has admitted codes,
and it follows its siblings. -/
structure Member (k : InstanceId) (st : Store) : Prop extends Tidy st where
  inst : st.inner.inst = k
  codes : ∀ c, (st.inner.links c).isSome = true → codeOk c = true
  siblings : st.inner.FollowsSiblings
  sound : ∀ j, (st.inner.reader j).Sound

/-- The shape of a cluster: what each instance has yet to read of a log is whole lines. -/
structure Formed (s : Cluster) : Prop where
  member : ∀ {k inner}, s.nodes k = some inner → Member k ⟨s.dir, inner⟩
  absent : ∀ {k}, s.nodes k = none → s.log k = [] ∧ s.snap k = []
  names : ∀ n ∈ s.dir, isShardLog n = true → ∃ j, n = logName j
  file : ∀ {k}, (s.nodes k).isSome = true → logName k ∈ s.dir
  isLog_snap : ∀ k, IsLog k (s.snap k)
  isLog_unread : ∀ k j, IsLog j (s.unread k j)

theorem formed_empty : Formed empty where
  member := fun h ↦ nomatch h
  absent := fun _ ↦ ⟨rfl, rfl⟩
  names := fun n hn ↦ absurd hn (AList.notMem_empty n)
  file := fun h ↦ nomatch h
  isLog_snap := fun _ ↦ isLog_nil
  isLog_unread := fun _ _ ↦ isLog_nil

namespace Formed

variable {s : Cluster} (hs : Formed s)
include hs

theorem isLog_log (k : InstanceId) : IsLog k (s.log k) := by
  cases h : s.nodes k with
  | none =>
    rw [(hs.absent h).1]
    exact isLog_nil
  | some inner =>
    have hm := hs.member h
    have hlog := hm.isLog_log
    rw [hm.inst] at hlog
    have heq : (⟨s.dir, inner⟩ : Store).log = s.log k := by rw [Store.log, hm.inst, log]
    rwa [heq] at hlog

theorem isLog_buf (k : InstanceId) : IsLog k (s.buf k) := by
  rw [buf]
  cases h : s.nodes k with
  | none => exact isLog_nil
  | some inner =>
    have hm := hs.member h
    have hbuf := hm.isLog_buf
    rw [hm.inst] at hbuf
    exact hbuf

theorem sound (k j : InstanceId) : (s.reader k j).Sound := by
  rw [reader]
  cases h : s.nodes k with
  | none => exact TailReader.sound_default
  | some inner => exact (hs.member h).sound j

end Formed

end Cluster

end Shrt
