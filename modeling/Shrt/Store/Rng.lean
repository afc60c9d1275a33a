import Shrt.Lib.Xorshift
import Shrt.Store.Ops

/-!
# The code generator

The words of a generated code come from a xorshift generator with one state per thread. Its update
is injective and keeps zero, so it leads to zero from nowhere else (`rng_never_stuck`). Zero is the
state to stay out of: all codes that are generated from it are the same one, and the loop that looks
for a fresh code never ends once that code is taken.
-/

namespace Shrt

/-- The state of a thread before its first call: the clock, the address of the state and a constant.
-/
def rngSeed (now : Int64) (address : UInt64) : UInt64 :=
  now.toUInt64 ^^^ address ^^^ 0x9e3779b97f4a7c15

/-- The update of the state. -/
def rngStep (st : UInt64) : UInt64 :=
  let st := st ^^^ (st >>> 12)
  let st := st ^^^ (st <<< 25)
  st ^^^ (st >>> 27)

/-- `rng_next`: the word it returns, and the new state. -/
def rngNext (st : UInt64) : UInt64 × UInt64 := (rngStep st * 2685821657736338717, rngStep st)

/-- The state after some calls. -/
def rngAfter (st : UInt64) (n : ℕ) : UInt64 := (fun st ↦ (rngNext st).2)^[n] st

/-- The words that `gen_code` takes from a state. -/
def rngDraw (st : UInt64) : Draw := fun k ↦ (rngNext (rngAfter st k)).1

/-- The words for some codes in a row. -/
def rngDraws (st : UInt64) : ℕ → List Draw
  | 0 => []
  | n + 1 => rngDraw st :: rngDraws (rngAfter st (CODE_LEN - 1)) n

/-! ## The update -/

/-- A map of words is injective if it is one on their bits. -/
theorem injective_of_toBitVec {f : UInt64 → UInt64} {g : BitVec 64 → BitVec 64}
    (h : ∀ st, (f st).toBitVec = g st.toBitVec) (hg : Function.Injective g) :
    Function.Injective f := by
  intro x y hxy
  have hbits : g x.toBitVec = g y.toBitVec := by rw [← h, ← h, hxy]
  exact UInt64.toBitVec_inj.mp (hg hbits)

theorem injective_rngStep : Function.Injective rngStep := by
  have h₁ : Function.Injective fun st : UInt64 ↦ st ^^^ (st >>> 12) :=
    injective_of_toBitVec (fun _ ↦ rfl) (Xorshift.injective_xor_ushiftRight (k := 12) (by decide))
  have h₂ : Function.Injective fun st : UInt64 ↦ st ^^^ (st <<< 25) :=
    injective_of_toBitVec (fun _ ↦ rfl) (Xorshift.injective_xor_shiftLeft (k := 25) (by decide))
  have h₃ : Function.Injective fun st : UInt64 ↦ st ^^^ (st >>> 27) :=
    injective_of_toBitVec (fun _ ↦ rfl) (Xorshift.injective_xor_ushiftRight (k := 27) (by decide))
  exact h₃.comp (h₂.comp h₁)

theorem rngStep_zero : rngStep 0 = 0 := by decide

theorem rngStep_ne_zero {st : UInt64} (h : st ≠ 0) : rngStep st ≠ 0 := by
  rw [← rngStep_zero]
  exact injective_rngStep.ne h

theorem rngAfter_succ (st : UInt64) (n : ℕ) : rngAfter st (n + 1) = rngStep (rngAfter st n) :=
  Function.iterate_succ_apply' _ n st

theorem rngAfter_ne_zero {st : UInt64} (h : st ≠ 0) (n : ℕ) : rngAfter st n ≠ 0 := by
  induction n with
  | zero => exact h
  | succ n ih =>
    rw [rngAfter_succ]
    exact rngStep_ne_zero ih

/-- A thread starts in the state to stay out of only at one address for each time. -/
theorem rngSeed_eq_zero_iff {now : Int64} {address : UInt64} :
    rngSeed now address = 0 ↔ address = now.toUInt64 ^^^ 0x9e3779b97f4a7c15 := by
  rw [rngSeed, UInt64.xor_eq_zero_iff]
  constructor
  · intro h
    rw [← h, ← UInt64.xor_assoc, UInt64.xor_self, UInt64.zero_xor]
  · intro h
    rw [h, ← UInt64.xor_assoc, UInt64.xor_self, UInt64.zero_xor]

/-! ## The state to stay out of -/

theorem rngAfter_zero (n : ℕ) : rngAfter 0 n = 0 := by
  induction n with
  | zero => rfl
  | succ n ih => rw [rngAfter_succ, ih, rngStep_zero]

/-- From zero all words are zero. -/
theorem mem_rngDraws_zero {n : ℕ} : ∀ r ∈ rngDraws 0 n, r = fun _ ↦ 0 := by
  induction n with
  | zero => exact fun r hr ↦ absurd hr List.not_mem_nil
  | succ n ih =>
    intro r hr
    rw [rngDraws, rngAfter_zero] at hr
    rcases List.mem_cons.mp hr with rfl | hr
    · funext k
      rw [rngDraw, rngAfter_zero, rngNext, rngStep_zero]
      rfl
    · exact ih r hr

/-- The retry loop goes on as long as all codes are taken. -/
theorem freshCode_eq_none {sh : Shards} {inst : InstanceId} {rs : List Draw}
    (h : ∀ r ∈ rs, (sh.find (genCode inst r)).isSome = true) : freshCode sh inst rs = none := by
  induction rs with
  | nil => rfl
  | cons r rs ih =>
    rw [freshCode, if_pos (h r List.mem_cons_self)]
    exact ih fun r' hr' ↦ h r' (List.mem_cons_of_mem _ hr')

/-- **The generator does not get stuck.** The update of the state is injective, and no call leads
from another state to zero. From zero each call returns to zero, all codes that are generated are
the same one, and once that code is taken `shorten` does not return, however often it tries. -/
theorem rng_never_stuck :
    Function.Injective rngStep ∧ (∀ st, st ≠ 0 → rngStep st ≠ 0) ∧
      (∀ seed, seed ≠ 0 → ∀ n, rngAfter seed n ≠ 0) ∧
      (∀ n, rngAfter 0 n = 0) ∧
      (∀ n inst, ∀ r ∈ rngDraws 0 n, genCode inst r = genCode inst (rngDraw 0)) ∧
      ∀ st : Store, (st.inner.find (genCode st.inner.inst (rngDraw 0))).isSome = true →
        ∀ url ttl clk n, st.shorten url none ttl clk (rngDraws 0 n) = none := by
  have hzero : rngDraw 0 = fun _ ↦ 0 := mem_rngDraws_zero (n := 1) _ List.mem_cons_self
  have hsame : ∀ n inst, ∀ r ∈ rngDraws 0 n, genCode inst r = genCode inst (rngDraw 0) := by
    intro n inst r hr
    rw [mem_rngDraws_zero r hr, hzero]
  refine ⟨injective_rngStep, fun _ ↦ rngStep_ne_zero, fun _ ↦ rngAfter_ne_zero, rngAfter_zero, hsame,
    ?_⟩
  intro st htaken url ttl clk n
  have hfresh : freshCode st.inner.shards st.inner.inst (rngDraws 0 n) = none := by
    refine freshCode_eq_none fun r hr ↦ ?_
    rw [hsame n st.inner.inst r hr]
    exact htaken
  rw [Store.shorten, Store.pickCode, hfresh]
  rfl

/-- A store in which the code that is generated from zero is taken. -/
def zeroTaken : Store := openMemory.bind (lit "00000000") (lit "u0") 0 0

theorem rng_never_stuck_one : rngAfter 1 1000 ≠ 0 ∧
    zeroTaken.shorten (lit "u1") none 0 (fun _ ↦ 0) (rngDraws 0 1000) = none := by
  obtain ⟨-, -, hseed, -, -, hstuck⟩ := rng_never_stuck
  exact ⟨hseed 1 (by decide) 1000, hstuck zeroTaken (by decide +kernel) _ _ _ 1000⟩

end Shrt
