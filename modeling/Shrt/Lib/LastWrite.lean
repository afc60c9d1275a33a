import Mathlib

/-!
# Last-write-wins logs

A log of puts and deletes over a keyed map, replayed from left to right. The value of a key after
the replay is decided by the last entry that names the key, and by the starting map when there is
none (`replay_apply`).

Three consequences carry the arguments about logs. Replaying a log over a map that already holds its
outcome changes nothing (`replay_replay`), so a log may be left behind a snapshot of its own result.
A snapshot, being one put for every bound key in any order, lays the map it was taken from over
whatever was there (`replay_puts`). And entries may be logged out of order as long as no two of the
same key change places (`replay_flatMap_filter`).
-/

namespace LastWrite

variable {κ ν : Type*}

/-- One entry of the log. -/
inductive Write (κ ν : Type*) where
  /-- Bind the key. -/
  | put (k : κ) (v : ν)
  /-- Unbind the key. -/
  | del (k : κ)
  deriving DecidableEq

namespace Write

/-- The key an entry is about. -/
def key : Write κ ν → κ
  | put k _ => k
  | del k => k

/-- What an entry leaves at its key. -/
def outcome : Write κ ν → Option ν
  | put _ v => some v
  | del _ => none

end Write

/-- A log that never names the key. -/
def Silent (k : κ) (ws : List (Write κ ν)) : Prop := ∀ w ∈ ws, w.key ≠ k

theorem silent_nil (k : κ) : Silent k ([] : List (Write κ ν)) := fun _ hw ↦ absurd hw List.not_mem_nil

theorem not_silent {k : κ} {ws : List (Write κ ν)} : ¬ Silent k ws ↔ ∃ w ∈ ws, w.key = k := by
  simp [Silent]

theorem silent_append {k : κ} {ws vs : List (Write κ ν)} :
    Silent k (ws ++ vs) ↔ Silent k ws ∧ Silent k vs := List.forall_mem_append

variable [DecidableEq κ]

instance decidableSilent (k : κ) (ws : List (Write κ ν)) : Decidable (Silent k ws) :=
  inferInstanceAs (Decidable (∀ w ∈ ws, w.key ≠ k))

/-- One entry applied to a map. -/
def write (m : κ → Option ν) (w : Write κ ν) : κ → Option ν :=
  Function.update m w.key w.outcome

/-- A log applied to a map, oldest entry first. -/
def replay (m : κ → Option ν) (ws : List (Write κ ν)) : κ → Option ν := ws.foldl write m

@[simp] theorem replay_nil (m : κ → Option ν) : replay m [] = m := rfl

@[simp] theorem replay_cons (m : κ → Option ν) (w : Write κ ν) (ws : List (Write κ ν)) :
    replay m (w :: ws) = replay (write m w) ws := rfl

theorem replay_append (m : κ → Option ν) (ws vs : List (Write κ ν)) :
    replay m (ws ++ vs) = replay (replay m ws) vs := List.foldl_append

theorem write_self (m : κ → Option ν) (w : Write κ ν) : write m w w.key = w.outcome :=
  Function.update_self ..

theorem write_of_ne (m : κ → Option ν) {w : Write κ ν} {k : κ} (h : w.key ≠ k) :
    write m w k = m k := Function.update_of_ne (Ne.symm h) ..

/-- The last entry that names the key, if any. -/
def lastFor (k : κ) (ws : List (Write κ ν)) : Option (Write κ ν) :=
  ws.foldl (fun r w ↦ if w.key = k then some w else r) none

private theorem foldl_lastFor (k : κ) (ws : List (Write κ ν)) : ∀ r : Option (Write κ ν),
    ws.foldl (fun r w ↦ if w.key = k then some w else r) r = (lastFor k ws).or r := by
  induction ws with
  | nil => intro r; simp [lastFor]
  | cons w ws ih =>
    intro r
    rw [lastFor, List.foldl_cons, List.foldl_cons, ih, ih]
    by_cases hw : w.key = k
    · cases lastFor k ws <;> simp [hw]
    · cases lastFor k ws <;> simp [hw]

theorem lastFor_cons (k : κ) (w : Write κ ν) (ws : List (Write κ ν)) :
    lastFor k (w :: ws) = (lastFor k ws).or (if w.key = k then some w else none) := by
  rw [lastFor, List.foldl_cons, foldl_lastFor]

theorem mem_of_lastFor {k : κ} {ws : List (Write κ ν)} {w : Write κ ν}
    (h : lastFor k ws = some w) : w ∈ ws ∧ w.key = k := by
  induction ws with
  | nil => simp [lastFor] at h
  | cons v ws ih =>
    rw [lastFor_cons] at h
    cases hlast : lastFor k ws with
    | some w' =>
      rw [hlast, Option.some_or] at h
      obtain ⟨hmem, hkey⟩ := ih (hlast.trans h)
      exact ⟨List.mem_cons_of_mem _ hmem, hkey⟩
    | none =>
      rw [hlast, Option.none_or] at h
      split_ifs at h with hv
      obtain rfl := Option.some.inj h
      exact ⟨List.mem_cons_self, hv⟩

theorem key_ne_of_lastFor_eq_none {k : κ} {ws : List (Write κ ν)} (h : lastFor k ws = none) :
    ∀ w ∈ ws, w.key ≠ k := by
  induction ws with
  | nil => simp
  | cons v ws ih =>
    rw [lastFor_cons, Option.or_eq_none_iff] at h
    intro w hw
    rcases List.mem_cons.mp hw with rfl | hw
    · intro hk
      simp [hk] at h
    · exact ih h.1 w hw

/-- **The last write decides.** -/
theorem replay_apply (ws : List (Write κ ν)) : ∀ (m : κ → Option ν) (k : κ),
    replay m ws k = match lastFor k ws with
      | some w => w.outcome
      | none => m k := by
  induction ws with
  | nil => intro m k; rfl
  | cons w ws ih =>
    intro m k
    rw [replay_cons, ih, lastFor_cons]
    cases lastFor k ws with
    | some v => rfl
    | none =>
      by_cases hw : w.key = k
      · subst hw
        simp [write_self]
      · simp [hw, write_of_ne m hw]

/-- Two maps that agree on a key agree on it after the same log. -/
theorem replay_congr {m m' : κ → Option ν} {k : κ} (h : m k = m' k) (ws : List (Write κ ν)) :
    replay m ws k = replay m' ws k := by
  rw [replay_apply, replay_apply, h]

/-- A log that never names the key leaves it alone. -/
theorem replay_of_forall_ne {ws : List (Write κ ν)} {k : κ} (h : ∀ w ∈ ws, w.key ≠ k)
    (m : κ → Option ν) : replay m ws k = m k := by
  induction ws generalizing m with
  | nil => rfl
  | cons w ws ih =>
    rw [replay_cons, ih (fun v hv ↦ h v (List.mem_cons_of_mem _ hv)),
      write_of_ne m (h w List.mem_cons_self)]

theorem Silent.replay {k : κ} {ws : List (Write κ ν)} (h : Silent k ws) (m : κ → Option ν) :
    LastWrite.replay m ws k = m k := replay_of_forall_ne h m

/-- A log that names the key decides it, whatever was there before. -/
theorem replay_eq_of_not_silent {k : κ} {ws : List (Write κ ν)} (h : ¬ Silent k ws)
    (m m' : κ → Option ν) : replay m ws k = replay m' ws k := by
  rw [replay_apply, replay_apply]
  cases hlast : lastFor k ws with
  | some w => rfl
  | none => exact absurd (key_ne_of_lastFor_eq_none hlast) h

/-- A value comes from what was there before, or from an entry. -/
theorem put_mem_of_replay {k : κ} {v : ν} {ws : List (Write κ ν)} {m : κ → Option ν}
    (h : replay m ws k = some v) : m k = some v ∨ Write.put k v ∈ ws := by
  rw [replay_apply] at h
  cases hlast : lastFor k ws with
  | none =>
    rw [hlast] at h
    exact .inl h
  | some w =>
    rw [hlast] at h
    obtain ⟨hw, hkey⟩ := mem_of_lastFor hlast
    cases w with
    | put k' v' =>
      obtain rfl : k' = k := hkey
      obtain rfl : v' = v := Option.some.inj h
      exact .inr hw
    | del k' => exact nomatch h

/-- Only the entries that name the key count. -/
theorem replay_filter_key (k : κ) (ws : List (Write κ ν)) : ∀ m : κ → Option ν,
    replay m (ws.filter fun w ↦ w.key = k) k = replay m ws k := by
  induction ws with
  | nil => exact fun m ↦ rfl
  | cons w ws ih =>
    intro m
    by_cases hw : w.key = k
    · rw [List.filter_cons_of_pos (by simpa using hw), replay_cons, replay_cons, ih]
    · rw [List.filter_cons_of_neg (by simpa using hw), replay_cons, ih]
      exact replay_congr (write_of_ne m hw).symm ws

/-- **Idempotence.** A log replayed over its own outcome changes nothing. -/
theorem replay_replay (m : κ → Option ν) (ws : List (Write κ ν)) :
    replay (replay m ws) ws = replay m ws := by
  funext k
  rw [replay_apply ws (replay m ws), replay_apply ws m]
  cases lastFor k ws <;> rfl

/-- Of several logs, only one that names the key counts. -/
theorem replay_flatMap_of_silent {ι : Type*} [DecidableEq ι] {f : ι → List (Write κ ν)} {j : ι} {k : κ}
    (h : ∀ i, i ≠ j → Silent k (f i)) (is : List ι) : ∀ m : κ → Option ν,
    replay m (is.flatMap f) k = if j ∈ is then replay m (f j) k else m k := by
  induction is with
  | nil => exact fun m ↦ rfl
  | cons i is ih =>
    intro m
    rw [List.flatMap_cons, replay_append, ih]
    by_cases hi : i = j
    · subst hi
      rw [replay_replay, ite_self, if_pos List.mem_cons_self]
    · have hother := (h i hi).replay m
      rw [replay_congr hother, hother]
      simp only [List.mem_cons, Ne.symm hi, false_or]

/-! ## Order -/

/-- Two logs about different keys commute. -/
theorem replay_append_comm {ws vs : List (Write κ ν)}
    (h : ∀ w ∈ ws, ∀ v ∈ vs, w.key ≠ v.key) (m : κ → Option ν) :
    replay m (ws ++ vs) = replay m (vs ++ ws) := by
  funext k
  rw [replay_append, replay_append]
  by_cases hk : ∃ w ∈ ws, w.key = k
  · obtain ⟨w, hw, rfl⟩ := hk
    have hvs : ∀ v ∈ vs, v.key ≠ w.key := fun v hv ↦ Ne.symm (h w hw v hv)
    rw [replay_of_forall_ne hvs, replay_congr (replay_of_forall_ne hvs m)]
  · have hws : ∀ w ∈ ws, w.key ≠ k := fun w hw hkey ↦ hk ⟨w, hw, hkey⟩
    rw [replay_of_forall_ne hws, replay_congr (replay_of_forall_ne hws m)]

/-- **Logging out of order.** Items with writes about one key each may be logged with those of a
kind `p` first, if none of them overtakes an item about its own key. -/
theorem replay_flatMap_filter {α : Type*} {f : α → List (Write κ ν)} {key : α → κ} {p : α → Bool}
    {l : List α} (hkey : ∀ a ∈ l, ∀ w ∈ f a, w.key = key a)
    (hord : l.Pairwise fun a b ↦ p b = true → p a = false → key a ≠ key b) (m : κ → Option ν) :
    replay m (l.flatMap f)
      = replay m ((l.filter p).flatMap f ++ (l.filter fun a ↦ !p a).flatMap f) := by
  induction l generalizing m with
  | nil => rfl
  | cons a l ih =>
    rw [List.pairwise_cons] at hord
    have hl : ∀ b ∈ l, ∀ w ∈ f b, w.key = key b := fun b hb ↦ hkey b (List.mem_cons_of_mem _ hb)
    rw [List.flatMap_cons, replay_append, ih hl hord.2, ← replay_append]
    cases hp : p a with
    | true => simp [hp]
    | false =>
      -- The item is not of the kind: those that are step past it.
      have hcomm : ∀ w ∈ f a, ∀ v ∈ (l.filter p).flatMap f, w.key ≠ v.key := by
        intro w hw v hv
        obtain ⟨b, hb, hv⟩ := List.mem_flatMap.mp hv
        obtain ⟨hbl, hpb⟩ := List.mem_filter.mp hb
        rw [hkey a List.mem_cons_self w hw, hl b hbl v hv]
        exact hord.1 b hbl hpb hp
      rw [← List.append_assoc, replay_append, replay_append_comm hcomm, ← replay_append]
      simp [hp]

/-! ## Snapshots -/

/-- A list of bindings, as the log that puts them one by one. -/
def puts (bs : List (κ × ν)) : List (Write κ ν) := bs.map fun b ↦ .put b.1 b.2

/-- Putting every binding of a map, in any order, lays that map over what was there. -/
theorem replay_puts {f : κ → Option ν} {bs : List (κ × ν)}
    (hmem : ∀ k v, (k, v) ∈ bs ↔ f k = some v) (m : κ → Option ν) (k : κ) :
    replay m (puts bs) k = (f k).or (m k) := by
  rw [replay_apply]
  cases hlast : lastFor k (puts bs) with
  | some w =>
    -- Every entry is a put of a current binding, the last one for the key included.
    obtain ⟨hw, hkey⟩ := mem_of_lastFor hlast
    obtain ⟨⟨k', v⟩, hb, rfl⟩ := List.mem_map.mp hw
    rw [Write.key] at hkey
    subst hkey
    rw [(hmem k' v).mp hb]
    rfl
  | none =>
    cases hf : f k with
    | none => rfl
    | some v =>
      have hput : Write.put k v ∈ puts bs := List.mem_map.mpr ⟨(k, v), (hmem k v).mpr hf, rfl⟩
      exact absurd rfl (key_ne_of_lastFor_eq_none hlast _ hput)

end LastWrite
