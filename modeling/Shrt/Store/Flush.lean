import Shrt.Lib.Transition
import Shrt.Store.Aof

/-!
# Writes that do not finish

`flush` hands the buffer to `write` until everything is taken or a `write` fails, and then clears
the buffer in either case. What a failed `write` left over is gone: it is neither in the file nor in
the buffer. Nothing ever makes up for it, since the length of file and buffer together only falls
behind what was pushed. So the log has kept all bytes exactly if no flush was cut short
(`bytes_kept_iff`).

`Aof.flush` is the case in which every `write` takes all it is given (`flushWith_eq_flush`).
-/

namespace Shrt

open Transition (run run_cons_eq_some Meets)

/-! ## The loop -/

/-- The loop of `flush`: what it has written when it ends, and what it has not. The outcome of a
`write` is the number of bytes it took, or not positive if it failed. There are at most as many
rounds as bytes. -/
def writeLoop (out : ℕ → ℤ) : ℕ → ℕ → Bytes → Bytes × Bytes
  | 0, _, left => ([], left)
  | rounds + 1, i, left =>
    if left = [] then ([], [])
    else if out i ≤ 0 then ([], left)
    else
      let r := writeLoop out rounds (i + 1) (left.drop (out i).toNat)
      (left.take (out i).toNat ++ r.1, r.2)

/-- Nothing is lost in the loop. -/
theorem writeLoop_append (out : ℕ → ℤ) (rounds i : ℕ) (left : Bytes) :
    (writeLoop out rounds i left).1 ++ (writeLoop out rounds i left).2 = left := by
  induction rounds generalizing i left with
  | zero => rfl
  | succ rounds ih =>
    rw [writeLoop]
    split_ifs with hnil hfail
    · exact hnil.symm
    · rfl
    · rw [List.append_assoc, ih, List.take_append_drop]

/-- When no `write` fails the loop writes everything. -/
theorem writeLoop_snd_eq_nil {out : ℕ → ℤ} (hout : ∀ i, 0 < out i) {rounds : ℕ} {left : Bytes}
    (hlen : left.length ≤ rounds) (i : ℕ) : (writeLoop out rounds i left).2 = [] := by
  induction rounds generalizing i left with
  | zero => exact List.length_eq_zero_iff.mp (Nat.le_zero.mp hlen)
  | succ rounds ih =>
    rw [writeLoop]
    split_ifs with hnil hfail
    · rfl
    · exact absurd (hout i) (not_lt.mpr hfail)
    · refine ih ?_ (i + 1)
      -- A successful `write` takes at least one byte.
      have htaken : 1 ≤ (out i).toNat := by
        have := hout i
        omega
      rw [List.length_drop]
      omega

namespace Aof

/-- What a flush leaves unwritten. -/
def unwritten (a : Aof) (out : ℕ → ℤ) : Bytes := (writeLoop out a.buf.length 0 a.buf).2

/-- `Aof::flush`. -/
def flushWith (a : Aof) (out : ℕ → ℤ) (d : Dir) : Dir × Aof :=
  if a.buf = [] ∨ a.fd = false then (d, a)
  else (d.append a.path (writeLoop out a.buf.length 0 a.buf).1, { a with buf := [] })

/-- A flush whose writes succeed, however short they are, is a `flush`. -/
theorem flushWith_eq_flush (a : Aof) {out : ℕ → ℤ} (hout : ∀ i, 0 < out i) (d : Dir) :
    a.flushWith out d = a.flush d := by
  have hall := writeLoop_append out a.buf.length 0 a.buf
  rw [writeLoop_snd_eq_nil hout le_rfl 0, List.append_nil] at hall
  rw [flushWith, flush, hall]

end Aof

/-! ## Sequences of calls -/

/-- A call on an open log. A flush comes with the outcomes of its writes. -/
inductive LogCall where
  | push (line : Bytes)
  | pushRaw (bytes : Bytes)
  | flush (out : ℕ → ℤ)

/-- The bytes that a call pushes. -/
def LogCall.pushed : LogCall → Bytes
  | .push line => line ++ [NL]
  | .pushRaw bytes => bytes
  | .flush _ => []

/-- One call. -/
def logCall (s : Dir × Aof) : LogCall → Option (Dir × Aof)
  | .push line => some (s.1, s.2.push line)
  | .pushRaw bytes => some (s.1, s.2.pushRaw bytes)
  | .flush out => some (s.2.flushWith out s.1)

/-- The condition: a flush is not cut short. -/
def Completes (s : Dir × Aof) : LogCall → Prop
  | .flush out => s.2.unwritten out = []
  | _ => True

instance (s : Dir × Aof) : DecidablePred (Completes s)
  | .flush _ => inferInstanceAs (Decidable (_ = _))
  | .push _ => inferInstanceAs (Decidable True)
  | .pushRaw _ => inferInstanceAs (Decidable True)

/-- The bytes in the file, and those in the buffer. -/
def keptBytes (s : Dir × Aof) : Bytes := s.1.content s.2.path ++ s.2.buf

variable {s s' : Dir × Aof} {c : LogCall} {calls : List LogCall}

theorem logCall_open (hfd : s.2.fd = true) (h : logCall s c = some s') :
    s'.2.fd = true := by
  cases c with
  | push line =>
    obtain rfl := Option.some.inj h
    exact hfd
  | pushRaw bytes =>
    obtain rfl := Option.some.inj h
    exact hfd
  | flush out =>
    obtain rfl := Option.some.inj h
    rw [Aof.flushWith]
    split_ifs
    · exact hfd
    · exact hfd

/-- What a call adds, but for what a flush leaves unwritten. -/
theorem keptBytes_logCall (hfd : s.2.fd = true) (h : logCall s c = some s') :
    ∃ lost, keptBytes s' ++ lost = keptBytes s ++ c.pushed ∧ (lost = [] ↔ Completes s c) := by
  cases c with
  | push line =>
    obtain rfl := Option.some.inj h
    refine ⟨[], ?_, iff_of_true rfl trivial⟩
    simp [keptBytes, Aof.push, LogCall.pushed]
  | pushRaw bytes =>
    obtain rfl := Option.some.inj h
    refine ⟨[], ?_, iff_of_true rfl trivial⟩
    simp [keptBytes, Aof.pushRaw, LogCall.pushed]
  | flush out =>
    obtain rfl := Option.some.inj h
    refine ⟨s.2.unwritten out, ?_, Iff.rfl⟩
    have hall := writeLoop_append out s.2.buf.length 0 s.2.buf
    rw [Aof.flushWith, keptBytes, LogCall.pushed, Aof.unwritten, List.append_nil]
    split_ifs with hnothing
    · -- There is nothing to write, and nothing is left.
      have hbuf : s.2.buf = [] := hnothing.resolve_right (by simp [hfd])
      rw [hbuf]
      simp [keptBytes, hbuf, writeLoop]
    · rw [keptBytes, Dir.content_append, if_pos rfl, List.append_nil, List.append_assoc, hall]

/-- Over a run, bytes are missing in the end exactly if some flush was cut short. -/
theorem keptBytes_run (hfd : s.2.fd = true) (hr : run logCall s calls = some s') :
    ∃ lost, (keptBytes s').length + lost
        = (keptBytes s).length + (calls.flatMap LogCall.pushed).length ∧
      (lost = 0 ↔ Meets logCall Completes s calls) ∧
      (lost = 0 → keptBytes s' = keptBytes s ++ calls.flatMap LogCall.pushed) := by
  induction calls generalizing s with
  | nil =>
    obtain rfl := Option.some.inj hr
    exact ⟨0, rfl, iff_of_true rfl trivial, fun _ ↦ (List.append_nil _).symm⟩
  | cons c calls ih =>
    obtain ⟨s₁, hs, hr'⟩ := run_cons_eq_some.mp hr
    obtain ⟨lost₁, heq₁, hiff₁⟩ := keptBytes_logCall hfd hs
    obtain ⟨lost, hlen, hiff, hall⟩ := ih (logCall_open hfd hs) hr'
    have hlen₁ := congrArg List.length heq₁
    rw [List.length_append, List.length_append] at hlen₁
    rw [List.flatMap_cons, List.length_append]
    refine ⟨lost₁.length + lost, by omega, ?_, fun hlost ↦ ?_⟩
    · rw [Nat.add_eq_zero_iff, List.length_eq_zero_iff, hiff₁, hiff]
      refine and_congr_right fun _ ↦ ⟨fun hm t ht ↦ ?_, fun hm ↦ hm s₁ hs⟩
      rwa [← Option.some.inj (hs.symm.trans ht)]
    · obtain ⟨h₁, h₂⟩ := Nat.add_eq_zero_iff.mp hlost
      rw [List.length_eq_zero_iff.mp h₁, List.append_nil] at heq₁
      rw [hall h₂, heq₁, List.append_assoc]

/-- A new log. -/
def newLog : Dir × Aof := (∅, { path := lit "data-0.log" })

/-- Two lines, written by two short writes. -/
def shortWrites : List LogCall := [.push (lit "ab"), .push (lit "cd"), .flush fun _ ↦ 3]

/-- The second of two writes fails. -/
def failedWrite : List LogCall := [.push (lit "abc"), .flush fun i ↦ if i = 0 then 2 else -1]

end Shrt
