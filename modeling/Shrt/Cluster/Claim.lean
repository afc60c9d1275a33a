import Shrt.Common
import Shrt.Lib.Transition

/-!
# Claiming an instance id

Processes that share a directory take their ids from lock files: `instance-<i>.lock` is created
exclusively and holds the pid of its creator. A lock whose pid is dead is stolen, by removing the
file and creating it again. Each system call is one step, of any process, in any order; a call may
fail, and a process may die between any two.

A file is an inode with a content, and a name may come to stand for another inode. That is what goes
wrong: a process that has found a lock stale removes whatever the name stands for by then, which may
be the lock of a process that stole the stale one in the meantime (`two_holders`). As long as what
is removed is stale at that moment, ids are exclusive (`holders_exclusive`).
-/

namespace Shrt

open Transition (run Meets)

/-- `pid_t` of a process. -/
structure Pid where
  /-- The number. -/
  val : Int32
  /-- Processes have positive ids. -/
  pos : 0 < val
  deriving DecidableEq

/-- `std::to_string(::getpid())`. -/
def Pid.text (p : Pid) : Bytes := itoa p.val.toInt64

/-- How many ids `claim_instance` tries. -/
def MAX_CLAIMS : ℕ := 1024

instance : NeZero MAX_CLAIMS := ⟨by decide⟩

/-- An id, as the number in the name of its lock file. -/
abbrev LockId := Fin MAX_CLAIMS

/-- The pid in a lock file: `none` where `read` yields nothing or the number is not positive. -/
def readPid (content : Bytes) : Option Pid :=
  match content.take 31 with
  | [] => none
  | buf => if h : 0 < (strtoll buf).toInt32 then some ⟨_, h⟩ else none

/-- Where a process is in `claim_instance`, before its next system call. -/
inductive Phase where
  /-- Elsewhere in the program. -/
  | idle
  /-- The exclusive create of `try_lock`; `again` after an unlink. -/
  | locking (i : LockId) (again : Bool)
  /-- The write of `try_lock`. -/
  | writing (i : LockId) (ino : ℕ)
  /-- The open of an existing lock. -/
  | opening (i : LockId)
  /-- The read of what was opened. -/
  | reading (i : LockId) (ino : ℕ)
  /-- `pid_alive`. -/
  | checking (i : LockId) (pid : Pid)
  /-- The unlink of a stale lock. -/
  | unlinking (i : LockId)
  /-- `claim_instance` has returned `i`. No step reads the inode. -/
  | holding (i : LockId) (ino : ℕ)
  deriving DecidableEq

/-- The id a process has been returned. -/
def Phase.held : Phase → Option LockId
  | holding i _ => some i
  | _ => none

/-- The lock files of a directory, and the processes. -/
structure World where
  /-- The inode of each lock file. -/
  names : LockId → Option ℕ
  /-- What each inode holds. -/
  files : ℕ → Bytes
  /-- The next free inode. -/
  next : ℕ
  /-- The processes that are alive. -/
  procs : Pid → Option Phase
  /-- Inodes from `next` on are free. -/
  fresh : ∀ {i ino}, names i = some ino → ino < next

namespace World

/-- `open` with `O_CREAT | O_EXCL`, where there is no file. -/
def create (w : World) (i : LockId) : World where
  names := Function.update w.names i (some w.next)
  files := Function.update w.files w.next []
  next := w.next + 1
  procs := w.procs
  fresh {j ino} h := by
    rcases eq_or_ne j i with rfl | hne
    · rw [Function.update_self, Option.some.injEq] at h
      omega
    · rw [Function.update_of_ne hne] at h
      exact (w.fresh h).trans (Nat.lt_succ_self _)

/-- `unlink`. -/
def unlink (w : World) (i : LockId) : World where
  names := Function.update w.names i none
  files := w.files
  next := w.next
  procs := w.procs
  fresh {j ino} h := by
    rcases eq_or_ne j i with rfl | hne
    · rw [Function.update_self] at h
      exact nomatch h
    · rw [Function.update_of_ne hne] at h
      exact w.fresh h

/-- `write` through a descriptor at the beginning of its file. -/
def write (w : World) (ino : ℕ) (text : Bytes) : World :=
  { w with files := Function.update w.files ino (text ++ (w.files ino).drop text.length) }

/-- Let a process go on as something else, or die. -/
def setPhase (w : World) (p : Pid) (ph : Option Phase) : World :=
  { w with procs := Function.update w.procs p ph }

/-- `continue` in the loop of `claim_instance`, and its end. -/
def tryNext (i : LockId) : Phase :=
  if h : i.1 + 1 < MAX_CLAIMS then .locking ⟨i.1 + 1, h⟩ false else .idle

/-- The next system call of a process, which succeeds only if `ok`. -/
def advance (w : World) (p : Pid) (ok : Bool) : Phase → Option World
  | .idle | .holding .. => none
  | .locking i again =>
    if ok ∧ w.names i = none then some ((w.create i).setPhase p (some (.writing i w.next)))
    else some (w.setPhase p (some (if again then tryNext i else .opening i)))
  | .writing i ino =>
    -- The result of the write is not looked at.
    some ((if ok then w.write ino p.text else w).setPhase p (some (.holding i ino)))
  | .opening i => match w.names i with
    | some ino => some (w.setPhase p (some (if ok then .reading i ino else tryNext i)))
    | none => some (w.setPhase p (some (tryNext i)))
  | .reading i ino => match readPid (w.files ino) with
    | some pid => some (w.setPhase p (some (if ok then .checking i pid else tryNext i)))
    | none => some (w.setPhase p (some (tryNext i)))
  | .checking i pid =>
    some (w.setPhase p (some (if (w.procs pid).isSome then tryNext i else .unlinking i)))
  | .unlinking i =>
    some ((if ok then w.unlink i else w).setPhase p (some (.locking i true)))

end World

/-- A scheduling step of the processes. -/
inductive ClaimLabel where
  /-- A process starts. -/
  | spawn (p : Pid)
  /-- A process calls `claim_instance`. -/
  | claim (p : Pid)
  /-- A process makes its next system call. -/
  | advance (p : Pid) (ok : Bool)
  /-- `Store::close`, which removes the lock. -/
  | close (p : Pid) (ok : Bool)
  /-- A process dies. -/
  | die (p : Pid)

namespace World

/-- One step of one process. -/
def step (w : World) : ClaimLabel → Option World
  | .spawn p => if w.procs p = none then some (w.setPhase p (some .idle)) else none
  | .claim p =>
    if w.procs p = some .idle then some (w.setPhase p (some (.locking 0 false))) else none
  | .advance p ok => (w.procs p).bind (w.advance p ok)
  | .close p ok => match w.procs p with
    | some (.holding i _) => some ((if ok then w.unlink i else w).setPhase p (some .idle))
    | _ => none
  | .die p => if w.procs p = none then none else some (w.setPhase p none)

/-- A live process has been returned an id. -/
def Holds (w : World) (p : Pid) (i : LockId) : Prop := (w.procs p).bind Phase.held = some i

instance (w : World) (p : Pid) (i : LockId) : Decidable (w.Holds p i) :=
  inferInstanceAs (Decidable (_ = _))

/-- A lock file that is gone, or that names a dead process. -/
def stale (w : World) (i : LockId) : Bool := match w.names i with
  | none => true
  | some ino => match readPid (w.files ino) with
    | none => false
    | some pid => (w.procs pid).isNone

/-- A stale lock is still stale when it is removed. -/
def stealsStale (w : World) : ClaimLabel → Bool
  | .advance p ok => match w.procs p with
    | some (.unlinking i) => !ok || w.stale i
    | _ => true
  | _ => true

end World

/-! ## What a live process relies on -/

theorem length_itoaLoop_le (fuel : ℕ) (v : UInt64) (tmp : Bytes) :
    (itoaLoop fuel v tmp).length ≤ fuel + tmp.length := by
  induction fuel generalizing v tmp with
  | zero => simp [itoaLoop]
  | succ fuel ih =>
    rw [itoaLoop]
    split_ifs
    · rw [List.length_cons]
      omega
    · refine (ih _ _).trans ?_
      rw [List.length_cons]
      omega

theorem Pid.text_eq_take (p : Pid) : p.text.take 31 = p.text := by
  refine List.take_of_length_le ?_
  have hdigits := length_itoaLoop_le 24 (itoaAbs p.val.toInt64) []
  rw [Pid.text, itoa, List.length_append]
  rw [List.length_nil] at hdigits
  split_ifs <;> simp only [List.length_cons, List.length_nil] <;> omega

/-- A process finds its own pid in what it wrote. -/
theorem readPid_text (p : Pid) : readPid p.text = some p := by
  have hback : (strtoll p.text).toInt32 = p.val := by
    rw [Pid.text, strtoll_itoa, Int32.toInt32_toInt64]
  rw [readPid, p.text_eq_take]
  split
  · rename_i hnil
    have hne : p.text ≠ [] := by
      obtain ⟨ds, hds, hne, -⟩ := itoa_eq p.val.toInt64
      rw [Pid.text, hds]
      simp [hne]
    exact absurd hnil hne
  · rw [dif_pos (hback ▸ p.pos)]
    exact congrArg some (by cases p; simp_all)

namespace Phase

/-- The lock a process has created, with its inode. -/
def owned : Phase → Option (LockId × ℕ)
  | writing i ino | holding i ino => some (i, ino)
  | _ => none

theorem owned_of_held {ph : Phase} {i : LockId} (h : ph.held = some i) :
    ∃ ino, ph.owned = some (i, ino) := by
  cases ph with
  | holding j ino => exact ⟨ino, by rw [owned, ← Option.some.inj h]⟩
  | _ => exact nomatch h

/-- What is in it. -/
def Wrote (p : Pid) (content : Bytes) : Phase → Prop
  | holding .. => content = [] ∨ content = p.text
  | _ => content = []

end Phase

namespace World

/-- A process has created a lock file, and the name still stands for it. -/
structure Sound (w : World) : Prop where
  named : ∀ {p ph i ino}, w.procs p = some ph → ph.owned = some (i, ino) → w.names i = some ino
  text : ∀ {p ph i ino}, w.procs p = some ph → ph.owned = some (i, ino) → ph.Wrote p (w.files ino)
  sole : ∀ {p q ph ph' i j ino}, w.procs p = some ph → ph.owned = some (i, ino) →
    w.procs q = some ph' → ph'.owned = some (j, ino) → p = q

variable {w : World} {p : Pid} {i : LockId}

theorem sound_of_idle (h : ∀ p ph, w.procs p = some ph → ph = .idle) : w.Sound := by
  have hnone : ∀ {p ph i ino}, w.procs p = some ph → ph.owned ≠ some (i, ino) := by
    intro p ph i ino hp
    rw [h p ph hp]
    exact nofun
  exact ⟨fun hp ho ↦ absurd ho (hnone hp), fun hp ho ↦ absurd ho (hnone hp),
    fun hp ho ↦ absurd ho (hnone hp)⟩

namespace Sound

/-- Two processes that have created the lock of one id are one process. -/
theorem eq_of_owned (h : w.Sound) {q : Pid} {ph ph' : Phase} {a b : ℕ} (hp : w.procs p = some ph)
    (ho : ph.owned = some (i, a)) (hq : w.procs q = some ph') (ho' : ph'.owned = some (i, b)) :
    p = q := by
  have hab : a = b := Option.some.inj ((h.named hp ho).symm.trans (h.named hq ho'))
  exact h.sole hp ho hq (hab ▸ ho')

/-- What a process goes on as has to be in order. -/
theorem setPhase (h : w.Sound) {ph : Option Phase}
    (hph : ∀ x ∈ ph, ∀ j ino, x.owned = some (j, ino) → w.names j = some ino ∧
      x.Wrote p (w.files ino) ∧ ∀ q ≠ p, ∀ y ∈ w.procs q, ∀ k, y.owned ≠ some (k, ino)) :
    (w.setPhase p ph).Sound := by
  have hcases : ∀ {q y}, (w.setPhase p ph).procs q = some y →
      q = p ∧ ph = some y ∨ q ≠ p ∧ w.procs q = some y := by
    intro q y hq
    rcases eq_or_ne q p with rfl | hne
    · have hself : (w.setPhase q ph).procs q = ph := Function.update_self ..
      exact .inl ⟨rfl, hself.symm.trans hq⟩
    · have hother : (w.setPhase p ph).procs q = w.procs q := Function.update_of_ne hne ..
      exact .inr ⟨hne, hother.symm.trans hq⟩
  constructor
  · intro q y j ino hq ho
    rcases hcases hq with ⟨-, hy⟩ | ⟨-, hq⟩
    · exact (hph y hy j ino ho).1
    · exact h.named hq ho
  · intro q y j ino hq ho
    rcases hcases hq with ⟨rfl, hy⟩ | ⟨-, hq⟩
    · exact (hph y hy j ino ho).2.1
    · exact h.text hq ho
  · intro q r y z j k ino hq ho hr ho'
    rcases hcases hq with ⟨hqp, hy⟩ | ⟨hqne, hq⟩ <;>
      rcases hcases hr with ⟨hrp, hz⟩ | ⟨hrne, hr⟩
    · exact hqp.trans hrp.symm
    · exact absurd ho' ((hph y hy j ino ho).2.2 r hrne z hr k)
    · exact absurd ho ((hph z hz k ino ho').2.2 q hqne y hq j)
    · exact h.sole hq ho hr ho'

/-- A process may always go on without a lock. -/
theorem setPhase_of_owned_eq_none (h : w.Sound) {x : Phase} (hx : x.owned = none) :
    (w.setPhase p (some x)).Sound := by
  refine h.setPhase ?_
  rintro y ⟨⟩ j ino ho
  exact nomatch hx.symm.trans ho

theorem unlink (h : w.Sound) (hfree : ∀ q, ∀ y ∈ w.procs q, ∀ ino, y.owned ≠ some (i, ino)) :
    (w.unlink i).Sound := by
  refine ⟨fun {q y j ino} hq ho ↦ ?_, h.text, h.sole⟩
  have hne : j ≠ i := by
    rintro rfl
    exact hfree q y hq ino ho
  exact (Function.update_of_ne hne ..).trans (h.named hq ho)

/-- A new lock file, which belongs to nobody yet. -/
theorem create (h : w.Sound) (hfree : w.names i = none) : (w.create i).Sound := by
  constructor
  · intro q y j ino hq ho
    have hold := h.named hq ho
    have hne : j ≠ i := by
      rintro rfl
      exact nomatch hfree.symm.trans hold
    exact (Function.update_of_ne hne ..).trans hold
  · intro q y j ino hq ho
    have hlt : ino < w.next := w.fresh (h.named hq ho)
    have hfile : (w.create i).files ino = w.files ino := Function.update_of_ne hlt.ne ..
    rw [hfile]
    exact h.text hq ho
  · exact h.sole

/-- The creator of a lock file writes its pid. -/
theorem write (h : w.Sound) {ino : ℕ} (hp : w.procs p = some (.holding i ino))
    (hnil : w.files ino = []) : (w.write ino p.text).Sound := by
  refine ⟨h.named, fun {q y j a} hq ho ↦ ?_, h.sole⟩
  rcases eq_or_ne a ino with rfl | hne
  · obtain rfl : p = q := h.sole hp rfl hq ho
    obtain rfl : .holding i a = y := Option.some.inj (hp.symm.trans hq)
    have hfile : (w.write a p.text).files a = p.text ++ (w.files a).drop p.text.length :=
      Function.update_self ..
    rw [hfile, hnil, List.drop_nil, List.append_nil]
    exact .inr rfl
  · have hfile : (w.write ino p.text).files a = w.files a := Function.update_of_ne hne ..
    rw [hfile]
    exact h.text hq ho

/-- No live process has created a lock that is stale. -/
theorem owned_ne_of_stale (h : w.Sound) (hs : w.stale i = true) (q : Pid) (y : Phase)
    (hq : y ∈ w.procs q) (ino : ℕ) : y.owned ≠ some (i, ino) := by
  intro ho
  have hread : readPid (w.files ino) = none ∨ readPid (w.files ino) = some q := by
    have htext := h.text hq ho
    cases y with
    | holding =>
      rcases htext with hnil | htext
      · exact .inl (by rw [hnil]; rfl)
      · exact .inr (by rw [htext, readPid_text])
    | _ => exact .inl (by rw [htext]; rfl)
  simp only [stale, h.named hq ho] at hs
  rcases hread with hread | hread
  · simp only [hread] at hs
    exact nomatch hs
  · simp only [hread] at hs
    rw [hq] at hs
    exact nomatch hs

end Sound

/-! ## Runs -/

theorem owned_tryNext (i : LockId) : (tryNext i).owned = none := by
  rw [tryNext]
  split_ifs <;> rfl

/-- **What a system call can do**: nothing to the files, or one of three things. -/
theorem advance_cases {w' : World} {ok : Bool} {ph : Phase} (h : w.advance p ok ph = some w') :
    (∃ x : Phase, x.owned = none ∧ w' = w.setPhase p (some x)) ∨
    (∃ i, w.names i = none ∧ w' = (w.create i).setPhase p (some (.writing i w.next))) ∨
    (∃ i ino, ph = .writing i ino ∧
      w' = (if ok then w.write ino p.text else w).setPhase p (some (.holding i ino))) ∨
    ∃ i, ok = true ∧ ph = .unlinking i ∧ w' = (w.unlink i).setPhase p (some (.locking i true)) := by
  cases ph with
  | idle | holding => exact nomatch h
  | locking i again =>
    rw [advance] at h
    split_ifs at h with hnew hagain <;> obtain rfl := Option.some.inj h
    · exact .inr (.inl ⟨i, hnew.2, rfl⟩)
    · exact .inl ⟨_, owned_tryNext i, rfl⟩
    · exact .inl ⟨_, rfl, rfl⟩
  | writing i ino => exact .inr (.inr (.inl ⟨i, ino, rfl, (Option.some.inj h).symm⟩))
  | opening i =>
    rw [advance] at h
    split at h
    · split_ifs at h <;> obtain rfl := Option.some.inj h
      · exact .inl ⟨_, rfl, rfl⟩
      · exact .inl ⟨_, owned_tryNext i, rfl⟩
    · exact .inl ⟨_, owned_tryNext i, (Option.some.inj h).symm⟩
  | reading i ino =>
    rw [advance] at h
    split at h
    · split_ifs at h <;> obtain rfl := Option.some.inj h
      · exact .inl ⟨_, rfl, rfl⟩
      · exact .inl ⟨_, owned_tryNext i, rfl⟩
    · exact .inl ⟨_, owned_tryNext i, (Option.some.inj h).symm⟩
  | checking i pid =>
    rw [advance] at h
    split_ifs at h <;> obtain rfl := Option.some.inj h
    · exact .inl ⟨_, owned_tryNext i, rfl⟩
    · exact .inl ⟨_, rfl, rfl⟩
  | unlinking i =>
    rw [advance] at h
    split_ifs at h with hok <;> obtain rfl := Option.some.inj h
    · exact .inr (.inr (.inr ⟨i, hok, rfl, rfl⟩))
    · exact .inl ⟨_, rfl, rfl⟩

/-- A system call keeps the locks in order, unless it steals one that is not stale. -/
theorem sound_advance {w' : World} {ok : Bool} {ph : Phase} (hw : w.Sound)
    (hp : w.procs p = some ph) (hsteal : ∀ i, ok = true → ph = .unlinking i → w.stale i = true)
    (h : w.advance p ok ph = some w') : w'.Sound := by
  rcases advance_cases h with ⟨x, hx, rfl⟩ | ⟨i, hnew, rfl⟩ | ⟨i, ino, rfl, rfl⟩ |
    ⟨i, hok, rfl, rfl⟩
  · exact hw.setPhase_of_owned_eq_none hx
  · refine (hw.create hnew).setPhase ?_
    rintro x ⟨⟩ j ino ho
    obtain ⟨rfl, rfl⟩ : i = j ∧ w.next = ino := by simpa [Phase.owned] using ho
    refine ⟨Function.update_self .., Function.update_self .., fun q _ y hq k ho ↦ ?_⟩
    -- Nobody else has created the inode that was free.
    exact absurd (w.fresh (hw.named hq ho)) (lt_irrefl _)
  · have hnil : w.files ino = [] := hw.text hp rfl
    have hhold : (w.setPhase p (some (.holding i ino))).Sound := by
      refine hw.setPhase ?_
      rintro x ⟨⟩ j a ho
      obtain ⟨rfl, rfl⟩ : i = j ∧ ino = a := by simpa [Phase.owned] using ho
      refine ⟨hw.named hp rfl, .inl hnil, fun q hne y hq k ho ↦ hne (hw.sole hq ho hp rfl)⟩
    split_ifs
    · exact hhold.write (Function.update_self ..) hnil
    · exact hhold
  · exact (hw.unlink (hw.owned_ne_of_stale (hsteal i hok rfl))).setPhase_of_owned_eq_none rfl

theorem sound_step {w' : World} {l : ClaimLabel} (hw : w.Sound) (hsteal : w.stealsStale l = true)
    (h : w.step l = some w') : w'.Sound := by
  cases l with
  | spawn p =>
    rw [step] at h
    split_ifs at h
    obtain rfl := Option.some.inj h
    exact hw.setPhase_of_owned_eq_none rfl
  | claim p =>
    rw [step] at h
    split_ifs at h
    obtain rfl := Option.some.inj h
    exact hw.setPhase_of_owned_eq_none rfl
  | advance p ok =>
    obtain ⟨ph, hp, h⟩ := Option.bind_eq_some_iff.mp h
    refine sound_advance hw hp ?_ h
    rintro i rfl rfl
    simpa only [stealsStale, hp, Bool.not_true, Bool.false_or] using hsteal
  | close p ok =>
    rw [step] at h
    split at h
    · rename_i i ino hp
      obtain rfl := Option.some.inj h
      have hidle : (w.setPhase p (some .idle)).Sound :=
        hw.setPhase_of_owned_eq_none rfl
      split_ifs
      · -- Only the process itself had created this lock.
        refine hidle.unlink fun q y hq a ho ↦ ?_
        rcases eq_or_ne q p with rfl | hne
        · have hself : (w.setPhase q (some .idle)).procs q = some .idle := Function.update_self ..
          rw [hself] at hq
          obtain rfl := Option.some.inj hq
          exact nomatch ho
        · have hother : (w.setPhase p (some .idle)).procs q = w.procs q :=
            Function.update_of_ne hne ..
          rw [hother] at hq
          exact hne (hw.eq_of_owned hq ho hp rfl)
      · exact hidle
    · exact nomatch h
  | die p =>
    rw [step] at h
    split_ifs at h
    obtain rfl := Option.some.inj h
    exact hw.setPhase nofun

end World

open World

/-- **When instance ids are exclusive.** Let any number of processes run `claim_instance` on a
directory with any lock files in it, interleaved in any way, with calls that fail, processes that
close their stores and processes that die and whose pids are given out anew. If every lock that is
removed as stale is stale when it is removed, then no two live processes hold one id. -/
theorem holders_exclusive {w₀ w : World} {ls : List ClaimLabel}
    (h₀ : ∀ p ph, w₀.procs p = some ph → ph = .idle) (h : run World.step w₀ ls = some w)
    (hsteal : Meets World.step (fun w l ↦ w.stealsStale l = true) w₀ ls) {p q : Pid} {i : LockId}
    (hp : w.Holds p i) (hq : w.Holds q i) : p = q := by
  have hw : w.Sound := Transition.run_invariant (fun _ _ _ hw hs hstep ↦ sound_step hw hs hstep)
    (sound_of_idle h₀) hsteal h
  obtain ⟨x, hx, hxi⟩ := Option.bind_eq_some_iff.mp hp
  obtain ⟨y, hy, hyi⟩ := Option.bind_eq_some_iff.mp hq
  obtain ⟨a, ha⟩ := Phase.owned_of_held hxi
  obtain ⟨b, hb⟩ := Phase.owned_of_held hyi
  exact hw.eq_of_owned hx ha hy hb

/-- A directory in which the process 7 has died with the lock of id 0, and no process. -/
def staleLock : World where
  names := fun i ↦ if i = 0 then some 0 else none
  files := fun ino ↦ if ino = 0 then lit "7" else []
  next := 1
  procs := fun _ ↦ none
  fresh {i ino} h := by
    split_ifs at h
    obtain rfl := Option.some.inj h
    exact Nat.zero_lt_one

/-- A process that finds the lock stale. -/
def findStale (p : Pid) : List ClaimLabel :=
  [.spawn p, .claim p, .advance p true, .advance p true, .advance p true, .advance p true]

/-- A process that steals the lock. -/
def steal (p : Pid) : List ClaimLabel := [.advance p true, .advance p true, .advance p true]

/-- A process that steals the lock before another one looks at it. -/
def stolenOnce (p q : Pid) : List ClaimLabel := findStale p ++ steal p ++ findStale q

theorem holders_exclusive_stolenOnce : ∃ w, run World.step staleLock
    (stolenOnce ⟨8, by decide⟩ ⟨9, by decide⟩) = some w ∧ w.Holds ⟨8, by decide⟩ 0 ∧
    ∀ q, w.Holds q 0 → q = ⟨8, by decide⟩ := by
  obtain ⟨w, hw, hp⟩ : ∃ w, run World.step staleLock
      (stolenOnce ⟨8, by decide⟩ ⟨9, by decide⟩) = some w ∧ w.Holds ⟨8, by decide⟩ 0 := by
    decide +kernel
  have hsteal : Meets World.step (fun w l ↦ w.stealsStale l = true) staleLock
      (stolenOnce ⟨8, by decide⟩ ⟨9, by decide⟩) := by
    decide +kernel
  exact ⟨w, hw, hp, fun q hq ↦ holders_exclusive (by rintro p ph ⟨⟩) hw hsteal hq hp⟩

/-- Two processes that find the lock stale before either steals it. -/
def stolenTwice (p q : Pid) : List ClaimLabel := findStale p ++ findStale q ++ steal p ++ steal q

theorem two_holders : ∃ w, run World.step staleLock
    (stolenTwice ⟨8, by decide⟩ ⟨9, by decide⟩) = some w ∧
    w.Holds ⟨8, by decide⟩ 0 ∧ w.Holds ⟨9, by decide⟩ 0 := by
  decide +kernel

end Shrt
