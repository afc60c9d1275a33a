import Shrt.Lib.Transition

/-!
# Surveys of a system that goes on

A survey reads the parts of a state one after another. Between two readings the system goes on, so
what has been found at the end need not be the content of any state. It is put together: each part
is as it was at some moment of the survey (`exists_moments`).
-/

namespace Survey

open Transition (run)

variable {σ α π β : Type*}

/-- A system with a survey under way. -/
structure Progress (σ π β : Type*) where
  /-- The state of the system. -/
  state : σ
  /-- The parts that are left to read. -/
  rest : List π
  /-- What has been read. -/
  found : List β := []

/-- What can happen next: the system goes on, or the survey reads a part. -/
inductive Label (α : Type*) where
  | go (a : α)
  | visit

/-- What becomes of a survey. -/
def step (next : σ → α → Option σ) (read : σ → π → List β) (P : Progress σ π β) :
    Label α → Option (Progress σ π β)
  | .go a => (next P.state a).map fun s ↦ { P with state := s }
  | .visit => match P.rest with
    | [] => none
    | p :: ps => some { P with rest := ps, found := P.found ++ read P.state p }

/-- What the system has done meanwhile. -/
def goes (ls : List (Label α)) : List α := ls.filterMap fun
  | .go a => some a
  | .visit => none

/-- The states that a system passes. -/
def Passes (next : σ → α → Option σ) (s : σ) (as : List α) (u : σ) : Prop :=
  ∃ as₁ as₂, as = as₁ ++ as₂ ∧ run next s as₁ = some u

variable {next : σ → α → Option σ} {read : σ → π → List β}

theorem passes_self (s : σ) (as : List α) : Passes next s as s := ⟨[], as, rfl, rfl⟩

theorem Passes.cons {s s' u : σ} {a : α} {as : List α} (hs : next s a = some s')
    (h : Passes next s' as u) : Passes next s (a :: as) u := by
  obtain ⟨as₁, as₂, rfl, hrun⟩ := h
  exact ⟨a :: as₁, as₂, rfl, Transition.run_cons_eq_some.mpr ⟨s', hs, hrun⟩⟩

/-- A survey under way: what it has read since is put together from moments since. -/
theorem exists_moments_of_run [DecidableEq π] {P Q : Progress σ π β} {ls : List (Label α)}
    (hrun : run (step next read) P ls = some Q) (hnodup : P.rest.Nodup) :
    ∃ (ps : List π) (moment : π → σ), P.rest = ps ++ Q.rest ∧
      (∀ p, Passes next P.state (goes ls) (moment p)) ∧
      Q.found = P.found ++ ps.flatMap fun p ↦ read (moment p) p := by
  induction ls generalizing P with
  | nil =>
    obtain rfl := Option.some.inj hrun
    exact ⟨[], fun _ ↦ P.state, rfl, fun _ ↦ passes_self _ _, (List.append_nil _).symm⟩
  | cons l ls ih =>
    obtain ⟨P', hstep, hrun⟩ := Transition.run_cons_eq_some.mp hrun
    cases l with
    | go a =>
      obtain ⟨s', hs, rfl⟩ := Option.map_eq_some_iff.mp hstep
      obtain ⟨ps, moment, hrest, hpasses, hfound⟩ := ih hrun hnodup
      exact ⟨ps, moment, hrest, fun p ↦ (hpasses p).cons hs, hfound⟩
    | visit =>
      obtain ⟨s, rest, found⟩ := P
      cases rest with
      | nil => contradiction
      | cons p rest =>
        obtain rfl := Option.some.inj hstep
        obtain ⟨hp, hnodup⟩ := List.nodup_cons.mp hnodup
        obtain ⟨ps, moment, hrest, hpasses, hfound⟩ := ih hrun hnodup
        change rest = ps ++ Q.rest at hrest
        -- The part that has just been read is not read again.
        have hne : ∀ p' ∈ ps, p' ≠ p := by
          rintro p' hp' rfl
          exact hp (hrest ▸ List.mem_append_left _ hp')
        refine ⟨p :: ps, Function.update moment p s, congrArg (p :: ·) hrest, fun p' ↦ ?_, ?_⟩
        · rw [Function.update_apply]
          split_ifs
          · exact passes_self _ _
          · exact hpasses p'
        · have hsame : (ps.flatMap fun p' ↦ read (Function.update moment p s p') p')
              = ps.flatMap fun p' ↦ read (moment p') p' :=
            List.flatMap_congr fun p' hp' ↦ by rw [Function.update_of_ne (hne p' hp')]
          rw [List.flatMap_cons, Function.update_self, hsame, ← List.append_assoc]
          exact hfound

/-- **A survey is put together from moments.** -/
theorem exists_moments [DecidableEq π] {s : σ} {ps : List π} {Q : Progress σ π β}
    {ls : List (Label α)} (hnodup : ps.Nodup)
    (hrun : run (step next read) { state := s, rest := ps } ls = some Q) (hrest : Q.rest = []) :
    ∃ moment : π → σ, (∀ p, Passes next s (goes ls) (moment p)) ∧
      Q.found = ps.flatMap fun p ↦ read (moment p) p := by
  obtain ⟨ps', moment, hps, hpasses, hfound⟩ := exists_moments_of_run hrun hnodup
  rw [hrest, List.append_nil] at hps
  obtain rfl : ps = ps' := hps
  exact ⟨moment, hpasses, hfound⟩

end Survey
