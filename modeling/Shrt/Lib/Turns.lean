import Shrt.Lib.Replication

/-!
# Writers that take turns

Several nodes write one key. As long as none of them takes over while entries of another one about
the key are still on their way, there is at every moment one node that wrote last (`Led`), and all
nodes agree once everything has been read (`Agreeing.view_eq`).
-/

namespace Replication

open LastWrite (Write Silent replay replay_append replay_congr)

variable {ι κ ν : Type*} [DecidableEq κ]

/-- Nothing about the key is on its way from a node, neither in its buffer nor in its log. -/
def State.Delivered (s : State ι κ ν) (c : κ) (i : ι) : Prop :=
  Silent c (s.buffer i) ∧ ∀ k, k ≠ i → s.alive k = true → Silent c (s.unread k i)

/-- Nobody has written the key. -/
structure Untouched (c : κ) (s : State ι κ ν) : Prop where
  silent : ∀ i, Silent c (s.log i) ∧ Silent c (s.buffer i) ∧ ∀ k, Silent c (s.unread k i)
  view : ∀ k, s.view k c = none

/-- A node is the one that wrote the key last, and what others wrote before has reached everybody. A
value carries the node that wrote it. -/
structure Led (owns : ι → ν → Prop) (w : ι) (c : κ) (s : State ι κ ν) : Prop where
  wrote : ¬ Silent c (s.log w ++ s.buffer w)
  own : replay (fun _ ↦ none) (s.log w ++ s.buffer w) c = s.view w c
  delivered : ∀ i, i ≠ w → s.Delivered c i
  behind : ∀ k, k ≠ w → s.alive k = true →
    replay (s.view k) (s.unread k w ++ s.buffer w) c = s.view w c
  signed : ∀ v, Write.put c v ∈ s.buffer w → owns w v
  signed_unread : ∀ k v, k ≠ w → s.alive k = true → Write.put c v ∈ s.unread k w → owns w v
  owner : ∀ k v, s.alive k = true → s.view k c = some v → owns w v

/-- The nodes are on the way to agree on the key. -/
def Agreeing (owns : ι → ν → Prop) (c : κ) (s : State ι κ ν) : Prop :=
  Untouched c s ∨ ∃ w, Led owns w c s

section Known

variable {s : State ι κ ν} {c : κ}

omit [DecidableEq κ] in
theorem Untouched.delivered (h : Untouched c s) (i : ι) : s.Delivered c i :=
  ⟨(h.silent i).2.1, fun k _ _ ↦ (h.silent i).2.2 k⟩

/-- **Agreement.** When everything has been read, all nodes have the same value. -/
theorem Agreeing.view_eq {owns : ι → ν → Prop} (h : Agreeing owns c s)
    (hread : ∀ i, s.Delivered c i) {k k' : ι} (hk : s.alive k = true) (hk' : s.alive k' = true) :
    s.view k c = s.view k' c := by
  rcases h with h | ⟨w, h⟩
  · rw [h.view, h.view]
  · -- Both have the value of the last writer.
    have hlast : ∀ i, s.alive i = true → s.view i c = s.view w c := by
      intro i hi
      by_cases hiw : i = w
      · rw [hiw]
      · rw [← h.behind i hiw hi, Silent.replay]
        exact LastWrite.silent_append.mpr ⟨(hread w).2 i hiw hi, (hread w).1⟩
    rw [hlast k hk, hlast k' hk']

end Known

variable [DecidableEq ι] {s : State ι κ ν} {a : Action ι κ ν} {c : κ}

/-- The actions by which writers of the key take turns. A node that writes the key either has a
value of its own there, or it has none and nothing about the key is on its way from others. Nodes
join while the entries about the key are all in one log. -/
def Action.Fair (owns : ι → ν → Prop) (c : κ) (s : State ι κ ν) : Action ι κ ν → Prop
  | push m ws => ¬ Silent c ws → s.alive m = true ∧ (∀ v, Write.put c v ∈ ws → owns m v) ∧
      ((∃ v, s.view m c = some v ∧ owns m v) ∨
        s.view m c = none ∧ ∀ i, i ≠ m → s.Delivered c i)
  | flush _ => True
  | read k i _ => k ≠ i ∧ s.alive k = true
  | compact .. => False
  | join k v => v c = none ∧ (∀ i, s.unread k i = s.log i) ∧ s.log k = [] ∧ s.buffer k = [] ∧
      (∀ i v, Write.put c v ∈ s.log i → owns i v) ∧
      ∀ i i', ¬ Silent c (s.log i ++ s.buffer i) → ¬ Silent c (s.log i' ++ s.buffer i') → i = i'

section Turns

variable {owns : ι → ν → Prop}

/-- Silent entries change no value of the key. -/
theorem view_push_of_silent {m : ι} {ws : List (Write κ ν)} (hws : Silent c ws) (k : ι) :
    (act s (.push m ws)).view k c = s.view k c := by
  simp only [act, Function.update_apply]
  split_ifs with hkm
  · rw [hkm, hws.replay]
  · rfl

theorem view_read_of_silent {k' i : ι} (h : Silent c (s.unread k' i)) (n : ℕ) (k : ι) :
    (act s (.read k' i n)).view k c = s.view k c := by
  simp only [act, Function.update_apply]
  split_ifs with hkk
  · rw [hkk, Silent.replay fun w hw ↦ h w (List.mem_of_mem_take hw)]
  · rfl

theorem State.Delivered.push {m i : ι} {ws : List (Write κ ν)} (h : s.Delivered c i)
    (hws : i = m → Silent c ws) : (act s (.push m ws)).Delivered c i := by
  refine ⟨?_, h.2⟩
  simp only [act, Function.update_apply]
  split_ifs with him
  · rw [← him]
    exact LastWrite.silent_append.mpr ⟨h.1, hws him⟩
  · exact h.1

theorem State.Delivered.flush {m i : ι} (h : s.Delivered c i) : (act s (.flush m)).Delivered c i := by
  refine ⟨?_, fun k hk hal ↦ ?_⟩
  · simp only [act, Function.update_apply]
    split_ifs
    · exact LastWrite.silent_nil c
    · exact h.1
  · simp only [act]
    split_ifs with him
    · rw [← him]
      exact LastWrite.silent_append.mpr ⟨h.2 k hk hal, h.1⟩
    · exact h.2 k hk hal

theorem State.Delivered.read {k' m i : ι} (h : s.Delivered c i) (n : ℕ) :
    (act s (.read k' m n)).Delivered c i := by
  refine ⟨h.1, fun k hk hal ↦ ?_⟩
  simp only [act]
  split_ifs with hc
  · obtain ⟨rfl, rfl⟩ := hc
    exact fun w hw ↦ h.2 k hk hal w (List.mem_of_mem_drop hw)
  · exact h.2 k hk hal

namespace Untouched

theorem push (h : Untouched c s) (m : ι) {ws : List (Write κ ν)} (hws : Silent c ws) :
    Untouched c (act s (.push m ws)) := by
  refine ⟨fun i ↦ ?_, fun k ↦ (view_push_of_silent hws k).trans (h.view k)⟩
  obtain ⟨hlog, hbuf, hun⟩ := h.silent i
  refine ⟨hlog, ?_, hun⟩
  simp only [act, Function.update_apply]
  split_ifs with him
  · rw [← him]
    exact LastWrite.silent_append.mpr ⟨hbuf, hws⟩
  · exact hbuf

theorem flush (h : Untouched c s) (m : ι) : Untouched c (act s (.flush m)) := by
  refine ⟨fun i ↦ ?_, h.view⟩
  obtain ⟨hlog, hbuf, hun⟩ := h.silent i
  simp only [act, Function.update_apply]
  by_cases him : i = m
  · subst him
    refine ⟨?_, ?_, fun k ↦ ?_⟩
    · rw [if_pos rfl]
      exact LastWrite.silent_append.mpr ⟨hlog, hbuf⟩
    · rw [if_pos rfl]
      exact LastWrite.silent_nil c
    · rw [if_pos rfl]
      exact LastWrite.silent_append.mpr ⟨hun k, hbuf⟩
  · simp only [if_neg him]
    exact ⟨hlog, hbuf, hun⟩

theorem read (h : Untouched c s) (k' m : ι) (n : ℕ) : Untouched c (act s (.read k' m n)) := by
  refine ⟨fun i ↦ ?_, fun k ↦ (view_read_of_silent ((h.silent m).2.2 k') n k).trans (h.view k)⟩
  obtain ⟨hlog, hbuf, hun⟩ := h.silent i
  refine ⟨hlog, hbuf, fun k ↦ ?_⟩
  simp only [act]
  split_ifs with hc
  · rw [← hc.2]
    exact fun w hw ↦ hun k' w (List.mem_of_mem_drop hw)
  · exact hun k

theorem join (h : Untouched c s) (k : ι) {v : κ → Option ν} (hv : v c = none) :
    Untouched c (act s (.join k v)) := by
  refine ⟨h.silent, fun k' ↦ ?_⟩
  simp only [act, Function.update_apply]
  split_ifs
  · exact hv
  · exact h.view k'

end Untouched

namespace Led

variable {w m : ι} {ws : List (Write κ ν)}

/-- A node takes over: it writes a key that nobody has, with nothing about it on its way. -/
theorem take_over (hdel : ∀ i, s.Delivered c i) (hview : ∀ k, s.alive k = true → s.view k c = none)
    (hm : s.alive m = true) (hws : ¬ Silent c ws) (hsigned : ∀ v, Write.put c v ∈ ws → owns m v) :
    Led owns m c (act s (.push m ws)) := by
  have hbuf : (act s (.push m ws)).buffer m = s.buffer m ++ ws := by
    simp only [act, Function.update_self]
  have hself : (act s (.push m ws)).view m = replay (s.view m) ws := by
    simp only [act, Function.update_self]
  have hother : ∀ k, k ≠ m → (act s (.push m ws)).view k = s.view k := fun k hk ↦ by
    simp only [act, Function.update_of_ne hk]
  refine ⟨?_, ?_, fun i hi ↦ (hdel i).push fun him ↦ absurd him hi, fun k hk hal ↦ ?_, fun v hv ↦ ?_,
    fun k v hk hal hv ↦ ?_, fun k v hal hv ↦ ?_⟩
  · rw [hbuf]
    intro h
    exact hws (LastWrite.silent_append.mp (LastWrite.silent_append.mp h).2).2
  · -- The new entries decide the key, whatever stood before them.
    rw [hbuf, hself, ← List.append_assoc, replay_append]
    exact LastWrite.replay_eq_of_not_silent hws _ _
  · rw [hbuf, hself, ← List.append_assoc, replay_append]
    exact LastWrite.replay_eq_of_not_silent hws _ _
  · rw [hbuf] at hv
    rcases List.mem_append.mp hv with hv | hv
    · exact absurd rfl ((hdel m).1 _ hv)
    · exact hsigned v hv
  · exact absurd rfl ((hdel m).2 k hk hal _ hv)
  · by_cases hkm : k = m
    · subst hkm
      rw [hself] at hv
      rcases LastWrite.put_mem_of_replay hv with hv | hv
      · rw [hview k hm] at hv
        contradiction
      · exact hsigned v hv
    · rw [hother k hkm, hview k hal] at hv
      contradiction

/-- The last writer writes on. -/
theorem push_self (h : Led owns w c s) (hsigned : ∀ v, Write.put c v ∈ ws → owns w v) :
    Led owns w c (act s (.push w ws)) := by
  have hbuf : (act s (.push w ws)).buffer w = s.buffer w ++ ws := by
    simp only [act, Function.update_self]
  have hself : (act s (.push w ws)).view w = replay (s.view w) ws := by
    simp only [act, Function.update_self]
  have hother : ∀ k, k ≠ w → (act s (.push w ws)).view k = s.view k := fun k hk ↦ by
    simp only [act, Function.update_of_ne hk]
  refine ⟨?_, ?_, fun i hi ↦ (h.delivered i hi).push fun him ↦ absurd him hi, fun k hk hal ↦ ?_,
    fun v hv ↦ ?_, h.signed_unread, fun k v hal hv ↦ ?_⟩
  · rw [hbuf, ← List.append_assoc]
    exact fun hs ↦ h.wrote (LastWrite.silent_append.mp hs).1
  · rw [hbuf, hself, ← List.append_assoc, replay_append]
    exact replay_congr h.own ws
  · rw [hbuf, hself, hother k hk, ← List.append_assoc, replay_append]
    exact replay_congr (h.behind k hk hal) ws
  · rw [hbuf] at hv
    rcases List.mem_append.mp hv with hv | hv
    · exact h.signed v hv
    · exact hsigned v hv
  · by_cases hkw : k = w
    · subst hkw
      rw [hself] at hv
      rcases LastWrite.put_mem_of_replay hv with hv | hv
      · exact h.owner k v hal hv
      · exact hsigned v hv
    · rw [hother k hkw] at hv
      exact h.owner k v hal hv

/-- Another node writes other keys. -/
theorem push_other (h : Led owns w c s) (hm : m ≠ w) (hws : Silent c ws) :
    Led owns w c (act s (.push m ws)) := by
  have hbuf : (act s (.push m ws)).buffer w = s.buffer w := by
    simp only [act, Function.update_of_ne (Ne.symm hm)]
  have hview := fun k ↦ view_push_of_silent (s := s) (m := m) hws k
  refine ⟨?_, ?_, fun i hi ↦ (h.delivered i hi).push fun _ ↦ hws, fun k hk hal ↦ ?_, fun v hv ↦ ?_,
    h.signed_unread, fun k v hal hv ↦ ?_⟩
  · rw [hbuf]
    exact h.wrote
  · rw [hbuf, hview]
    exact h.own
  · rw [hbuf, hview, replay_congr (hview k)]
    exact h.behind k hk hal
  · rw [hbuf] at hv
    exact h.signed v hv
  · rw [hview] at hv
    exact h.owner k v hal hv

theorem flush (h : Led owns w c s) (m : ι) : Led owns w c (act s (.flush m)) := by
  have hall : (act s (.flush m)).log w ++ (act s (.flush m)).buffer w = s.log w ++ s.buffer w := by
    simp only [act, Function.update_apply]
    split_ifs with hwm
    · rw [hwm, List.append_nil]
    · rfl
  have hway : ∀ k, (act s (.flush m)).unread k w ++ (act s (.flush m)).buffer w
      = s.unread k w ++ s.buffer w := fun k ↦ by
    simp only [act, Function.update_apply]
    split_ifs with hwm
    · rw [hwm, List.append_nil]
    · rfl
  have hmem : ∀ k v, Write.put c v ∈ s.unread k w ++ s.buffer w → k ≠ w → s.alive k = true →
      owns w v := fun k v hv hk hal ↦
    (List.mem_append.mp hv).elim (h.signed_unread k v hk hal) (h.signed v)
  refine ⟨?_, ?_, fun i hi ↦ (h.delivered i hi).flush, fun k hk hal ↦ ?_, fun v hv ↦ ?_,
    fun k v hk hal hv ↦ ?_, h.owner⟩
  · rw [hall]
    exact h.wrote
  · rw [hall]
    exact h.own
  · rw [hway]
    exact h.behind k hk hal
  · simp only [act, Function.update_apply] at hv
    split_ifs at hv
    · exact absurd hv List.not_mem_nil
    · exact h.signed v hv
  · refine hmem k v ?_ hk hal
    rw [← hway]
    exact List.mem_append_left _ hv

theorem read (h : Led owns w c s) {k' i : ι} (hki : k' ≠ i) (hk' : s.alive k' = true) (n : ℕ) :
    Led owns w c (act s (.read k' i n)) := by
  by_cases hiw : i = w
  · subst hiw
    have hself : (act s (.read k' i n)).view k' = replay (s.view k') ((s.unread k' i).take n) := by
      simp only [act, Function.update_self]
    have hother : ∀ k, k ≠ k' → (act s (.read k' i n)).view k = s.view k := fun k hk ↦ by
      simp only [act, Function.update_of_ne hk]
    have hunread : ∀ k, k ≠ k' → (act s (.read k' i n)).unread k i = s.unread k i :=
      fun k hk ↦ if_neg fun hc ↦ hk hc.1
    have hdrop : (act s (.read k' i n)).unread k' i = (s.unread k' i).drop n := if_pos ⟨rfl, rfl⟩
    refine ⟨h.wrote, ?_, fun i' hi' ↦ (h.delivered i' hi').read n, fun k hk hal ↦ ?_, h.signed,
      fun k v hk hal hv ↦ ?_, fun k v hal hv ↦ ?_⟩
    · rw [hother i (Ne.symm hki)]
      exact h.own
    · rw [hother i (Ne.symm hki)]
      by_cases hkk : k = k'
      · subst hkk
        -- What has been read moves from the log to the map.
        have hbuf : (act s (.read k i n)).buffer i = s.buffer i := rfl
        rw [hself, hdrop, hbuf, ← replay_append, ← List.append_assoc, List.take_append_drop]
        exact h.behind k hk hal
      · rw [hother k hkk, hunread k hkk]
        exact h.behind k hk hal
    · by_cases hkk : k = k'
      · rw [hkk, hdrop] at hv
        exact h.signed_unread k' v hki hk' (List.mem_of_mem_drop hv)
      · rw [hunread k hkk] at hv
        exact h.signed_unread k v hk hal hv
    · by_cases hkk : k = k'
      · rw [hkk, hself] at hv
        rcases LastWrite.put_mem_of_replay hv with hv | hv
        · exact h.owner k' v hk' hv
        · exact h.signed_unread k' v hki hk' (List.mem_of_mem_take hv)
      · rw [hother k hkk] at hv
        exact h.owner k v hal hv
  · have hsilent := (h.delivered i hiw).2 k' hki hk'
    have hview := fun k ↦ view_read_of_silent hsilent n k
    have hunread : ∀ k, (act s (.read k' i n)).unread k w = s.unread k w :=
      fun k ↦ if_neg fun hc ↦ hiw hc.2.symm
    refine ⟨h.wrote, ?_, fun i' hi' ↦ (h.delivered i' hi').read n, fun k hk hal ↦ ?_, h.signed,
      fun k v hk hal hv ↦ ?_, fun k v hal hv ↦ ?_⟩
    · rw [hview]
      exact h.own
    · rw [hview, hunread, replay_congr (hview k)]
      exact h.behind k hk hal
    · rw [hunread] at hv
      exact h.signed_unread k v hk hal hv
    · rw [hview] at hv
      exact h.owner k v hal hv

theorem join (h : Led owns w c s) {k : ι} {v : κ → Option ν}
    (ha : (Action.join k v).Fair owns c s) : Led owns w c (act s (.join k v)) := by
  obtain ⟨hv, hunread, hlog, hbuf, hsigned, hone⟩ := ha
  have hkw : k ≠ w := by
    rintro rfl
    refine h.wrote ?_
    rw [hlog, hbuf]
    exact LastWrite.silent_nil c
  have hother : ∀ k', k' ≠ k → (act s (.join k v)).view k' = s.view k' ∧
      (act s (.join k v)).alive k' = s.alive k' := fun k' hk' ↦ by
    simp only [act, Function.update_of_ne hk', and_self]
  have hself : (act s (.join k v)).view k = v := by
    simp only [act, Function.update_self]
  refine ⟨h.wrote, ?_, fun i hi ↦ ⟨(h.delivered i hi).1, fun k' hk' hal ↦ ?_⟩, fun k' hk' hal ↦ ?_,
    h.signed, fun k' v' hk' hal hv' ↦ ?_, fun k' v' hal hv' ↦ ?_⟩
  · rw [(hother w (Ne.symm hkw)).1]
    exact h.own
  · by_cases hkk : k' = k
    · -- The entries about the key are all in the log of the last writer.
      have hquiet : Silent c (s.log i ++ s.buffer i) := by
        by_contra hnot
        exact hi (hone i w hnot h.wrote)
      subst hkk
      have hun : (act s (.join k' v)).unread k' i = s.log i := hunread i
      rw [hun]
      exact (LastWrite.silent_append.mp hquiet).1
    · rw [(hother k' hkk).2] at hal
      exact (h.delivered i hi).2 k' hk' hal
  · rw [(hother w (Ne.symm hkw)).1]
    by_cases hkk : k' = k
    · subst hkk
      have hun : (act s (.join k' v)).unread k' w = s.log w := hunread w
      rw [hself, hun, ← h.own]
      exact replay_congr hv _
    · rw [(hother k' hkk).1]
      rw [(hother k' hkk).2] at hal
      exact h.behind k' hk' hal
  · by_cases hkk : k' = k
    · subst hkk
      have hun : (act s (.join k' v)).unread k' w = s.log w := hunread w
      rw [hun] at hv'
      exact hsigned w v' hv'
    · rw [(hother k' hkk).2] at hal
      exact h.signed_unread k' v' hk' hal hv'
  · by_cases hkk : k' = k
    · rw [hkk, hself, hv] at hv'
      contradiction
    · rw [(hother k' hkk).1] at hv'
      rw [(hother k' hkk).2] at hal
      exact h.owner k' v' hal hv'

end Led

/-- A node that writes a key either is the last writer or takes over. -/
theorem Agreeing.push (hinj : ∀ i i' v, owns i v → owns i' v → i = i') (h : Agreeing owns c s) {m : ι}
    {ws : List (Write κ ν)} (ha : (Action.push m ws).Fair owns c s) :
    Agreeing owns c (act s (.push m ws)) := by
  by_cases hws : Silent c ws
  · rcases h with h | ⟨w, h⟩
    · exact .inl (h.push m hws)
    · by_cases hm : m = w
      · subst hm
        exact .inr ⟨m, h.push_self fun v hv ↦ absurd rfl (hws _ hv)⟩
      · exact .inr ⟨w, h.push_other hm hws⟩
  · obtain ⟨hal, hsigned, hturn⟩ := ha hws
    rcases h with h | ⟨w, h⟩
    · exact .inr ⟨m, Led.take_over h.delivered (fun k _ ↦ h.view k) hal hws hsigned⟩
    · by_cases hm : m = w
      · subst hm
        exact .inr ⟨m, h.push_self hsigned⟩
      · rcases hturn with ⟨v, hv, hown⟩ | ⟨hnone, hdel⟩
        · exact absurd (hinj m w v hown (h.owner m v hal hv)) hm
        · have hdel' : ∀ i, s.Delivered c i := fun i ↦ by
            by_cases him : i = m
            · exact him ▸ h.delivered m hm
            · exact hdel i him
          -- Everything has been read, so nobody has the key.
          refine .inr ⟨m, Led.take_over hdel' (fun k hk ↦ ?_) hal hws hsigned⟩
          exact (Agreeing.view_eq (.inr ⟨w, h⟩) hdel' hk hal).trans hnone

/-- **Writers that take turns.** -/
theorem Agreeing.act (hinj : ∀ i i' v, owns i v → owns i' v → i = i') (h : Agreeing owns c s)
    (ha : a.Fair owns c s) : Agreeing owns c (act s a) := by
  cases a with
  | push m ws => exact h.push hinj ha
  | flush m => exact h.imp (·.flush m) fun ⟨w, h⟩ ↦ ⟨w, h.flush m⟩
  | read k i n => exact h.imp (·.read k i n) fun ⟨w, h⟩ ↦ ⟨w, h.read ha.1 ha.2 n⟩
  | compact i rows => exact ha.elim
  | join k v => exact h.imp (·.join k ha.1) fun ⟨w, h⟩ ↦ ⟨w, h.join ha⟩

end Turns

end Replication
