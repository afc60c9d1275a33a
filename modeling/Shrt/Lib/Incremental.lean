import Mathlib

/-!
# Incremental readers

A reader looks at the front of a buffer and finds that it has to wait for more, that it has to give
up, or an item and its length. What it finds is *stable* when it does not change as the buffer
grows. A loop takes items off the buffer and hands each of them to a consumer, which may end the
loop too.

The law of such loops is `drain_append`: what arrives later is drained from what was left before.
All results about the ways in which a stream may be cut into pieces follow from it.

Stability is asked of buffers below a bound only. Lengths that are kept in machine words are not
stable beyond it.
-/

namespace Incremental

variable {α β ε σ τ : Type*}

/-- What stands at the front of a buffer. -/
inductive Next (β ε : Type*) where
  /-- Nothing yet. -/
  | wait
  /-- Nothing that can be read. -/
  | stop (e : ε)
  /-- An item, of the given length. -/
  | item (b : β) (n : ℕ)

/-- What a reader finds in a buffer below the bound does not change when more arrives. -/
structure Stable (B : ℕ) (next : List α → Next β ε) : Prop where
  size : ∀ {s b n}, s.length < B → next s = .item b n → 0 < n ∧ n ≤ s.length
  append : ∀ {s} (t), (s ++ t).length < B → next s ≠ .wait → next (s ++ t) = next s

/-- Take items off the front of a buffer: the consumer's state, the rest, and why the loop has ended
if it is not for want of more. -/
def drainFor (next : List α → Next β ε) (act : σ → β → σ × Option ε) :
    ℕ → σ → List α → σ × List α × Option ε
  | 0, st, s => (st, s, none)
  | k + 1, st, s => match next s with
    | .wait => (st, s, none)
    | .stop e => (st, s, some e)
    | .item b n => match act st b with
      | (st, none) => drainFor next act k st (s.drop n)
      | (st, some e) => (st, s.drop n, some e)

/-- The loop with as many rounds as it can take. -/
def drain (next : List α → Next β ε) (act : σ → β → σ × Option ε) (st : σ) (s : List α) :
    σ × List α × Option ε := drainFor next act (s.length + 1) st s

variable {next : List α → Next β ε} {act : σ → β → σ × Option ε} {B : ℕ}

theorem Stable.length_drop_lt (h : Stable B next) {s : List α} {b : β} {n : ℕ} (hs : s.length < B)
    (hnext : next s = .item b n) : (s.drop n).length < s.length := by
  have hn := h.size hs hnext
  rw [List.length_drop]
  omega

/-- More rounds than symbols change nothing. -/
theorem drainFor_congr (h : Stable B next) {m k : ℕ} {st : σ} {s : List α} (hB : s.length < B)
    (hm : s.length < m) (hk : s.length < k) :
    drainFor next act m st s = drainFor next act k st s := by
  induction m generalizing k st s with
  | zero => exact absurd hm (Nat.not_lt_zero _)
  | succ m ih =>
    obtain ⟨k, rfl⟩ : ∃ k', k = k' + 1 := Nat.exists_eq_succ_of_ne_zero (by omega)
    rw [drainFor, drainFor]
    cases hnext : next s with
    | wait => rfl
    | stop e => rfl
    | item b n =>
      have hlt := h.length_drop_lt hB hnext
      cases hact : act st b with
      | mk st' o =>
        cases o with
        | none =>
          simp only [hact]
          exact ih (by omega) (by omega) (by omega)
        | some e => simp only [hact]

/-! ## One round -/

variable (act) in
/-- The four kinds of rounds. -/
theorem round_cases (next : List α → Next β ε) (st : σ) (s : List α) :
    next s = .wait ∨ (∃ e, next s = .stop e) ∨
    (∃ b n st', next s = .item b n ∧ act st b = (st', none)) ∨
    ∃ b n st' e, next s = .item b n ∧ act st b = (st', some e) := by
  cases hnext : next s with
  | wait => exact .inl rfl
  | stop e => exact .inr (.inl ⟨e, rfl⟩)
  | item b n =>
    cases hact : act st b with
    | mk st' o =>
      cases o with
      | none => exact .inr (.inr (.inl ⟨b, n, st', rfl, hact⟩))
      | some e => exact .inr (.inr (.inr ⟨b, n, st', e, rfl, hact⟩))

section Rounds

variable {st st' : σ} {s : List α} {b : β} {n : ℕ} {e : ε}

theorem drain_of_wait (hnext : next s = .wait) : drain next act st s = (st, s, none) := by
  rw [drain, drainFor, hnext]

theorem drain_of_stop (hnext : next s = .stop e) : drain next act st s = (st, s, some e) := by
  rw [drain, drainFor, hnext]

theorem drain_of_last (hnext : next s = .item b n) (hact : act st b = (st', some e)) :
    drain next act st s = (st', s.drop n, some e) := by
  simp only [drain, drainFor, hnext, hact]

theorem drain_of_item (h : Stable B next) (hB : s.length < B) (hnext : next s = .item b n)
    (hact : act st b = (st', none)) : drain next act st s = drain next act st' (s.drop n) := by
  have hlt := h.length_drop_lt hB hnext
  have hround : drain next act st s = drainFor next act s.length st' (s.drop n) := by
    simp only [drain, drainFor, hnext, hact]
  rw [hround]
  exact drainFor_congr h (hlt.trans hB) hlt (Nat.lt_succ_self _)

end Rounds

variable (act) in
/-- An induction over the rounds of the loop: the buffer gets shorter. -/
theorem drain_induction (h : Stable B next) {P : σ → List α → Prop}
    (hround : ∀ st s, s.length < B →
      (∀ b n st', next s = .item b n → act st b = (st', none) → P st' (s.drop n)) → P st s)
    {st : σ} {s : List α} (hB : s.length < B) : P st s := by
  induction hn : s.length using Nat.strong_induction_on generalizing st s with
  | _ n ih =>
    subst hn
    refine hround st s hB fun b n st' hnext _ ↦ ?_
    have hlt := h.length_drop_lt hB hnext
    exact ih _ hlt (hlt.trans hB) rfl

/-! ## The whole loop -/

/-- What is left of a buffer when some items have been taken off its front. -/
inductive Reaches (next : List α → Next β ε) : List α → List α → Prop
  | refl (s : List α) : Reaches next s s
  | item {s r : List α} {b : β} {n : ℕ} (hnext : next s = .item b n)
      (hrest : Reaches next (s.drop n) r) : Reaches next s r

theorem Reaches.trans {s r q : List α} (hsr : Reaches next s r) (hrq : Reaches next r q) :
    Reaches next s q := by
  induction hsr with
  | refl s => exact hrq
  | item hnext _ ih => exact .item hnext (ih hrq)

theorem Reaches.suffix {s r : List α} (hsr : Reaches next s r) : r <:+ s := by
  induction hsr with
  | refl s => exact List.suffix_refl s
  | item _ _ ih => exact ih.trans (List.drop_suffix _ _)

/-- What arrives later stands behind what is left. -/
theorem Reaches.append (h : Stable B next) {s r : List α} (hsr : Reaches next s r) {t : List α}
    (hB : (s ++ t).length < B) : Reaches next (s ++ t) (r ++ t) := by
  induction hsr with
  | refl s => exact .refl _
  | @item s r b n hnext _ ih =>
    have hs : s.length < B := by
      rw [List.length_append] at hB
      omega
    have hn := h.size hs hnext
    have hdrop : (s ++ t).drop n = s.drop n ++ t := List.drop_append_of_le_length hn.2
    have hsame : next (s ++ t) = .item b n := by
      rw [h.append t hB (by rw [hnext]; exact nofun), hnext]
    refine .item hsame ?_
    rw [hdrop]
    refine ih ?_
    rw [← hdrop, List.length_drop]
    omega

/-- **How the loop ends.** It waits, it finds what cannot be read, or the consumer ends it with the
item before what is left. -/
theorem drain_ends (h : Stable B next) {st : σ} {s : List α} (hB : s.length < B) :
    Reaches next s (drain next act st s).2.1 ∧
    ((drain next act st s).2.2 = none ∧ next (drain next act st s).2.1 = .wait ∨
    (∃ e, (drain next act st s).2.2 = some e ∧ next (drain next act st s).2.1 = .stop e) ∨
    ∃ r b n st' e, Reaches next s r ∧ next r = .item b n ∧ (act st' b).2 = some e ∧
      (drain next act st s).2.1 = r.drop n ∧ (drain next act st s).2.2 = some e) := by
  refine drain_induction act h (P := fun st s ↦ Reaches next s (drain next act st s).2.1 ∧
    ((drain next act st s).2.2 = none ∧ next (drain next act st s).2.1 = .wait ∨
    (∃ e, (drain next act st s).2.2 = some e ∧ next (drain next act st s).2.1 = .stop e) ∨
    ∃ r b n st' e, Reaches next s r ∧ next r = .item b n ∧ (act st' b).2 = some e ∧
      (drain next act st s).2.1 = r.drop n ∧ (drain next act st s).2.2 = some e)) ?_ hB
  intro st s hB ih
  rcases round_cases act next st s with
    hnext | ⟨e, hnext⟩ | ⟨b, n, st', hnext, hact⟩ | ⟨b, n, st', e, hnext, hact⟩
  · rw [drain_of_wait hnext]
    exact ⟨.refl s, .inl ⟨rfl, hnext⟩⟩
  · rw [drain_of_stop hnext]
    exact ⟨.refl s, .inr (.inl ⟨e, rfl, hnext⟩)⟩
  · rw [drain_of_item h hB hnext hact]
    obtain ⟨hleft, hend⟩ := ih b n st' hnext hact
    refine ⟨.item hnext hleft, hend.imp_right (Or.imp_right ?_)⟩
    rintro ⟨r, b', n', st'', e, hr, hend⟩
    exact ⟨r, b', n', st'', e, .item hnext hr, hend⟩
  · rw [drain_of_last hnext hact]
    exact ⟨.item hnext (.refl _),
      .inr (.inr ⟨s, b, n, st, e, .refl s, hnext, by rw [hact], rfl, rfl⟩)⟩

/-- The rest is a final segment of the buffer. -/
theorem suffix_drain (h : Stable B next) {st : σ} {s : List α} (hB : s.length < B) :
    (drain next act st s).2.1 <:+ s :=
  (drain_ends h hB).1.suffix

/-- A loop that ends for want of more leaves a buffer in which nothing is found. -/
theorem next_of_drain (h : Stable B next) {st : σ} {s : List α} (hB : s.length < B)
    (hnone : (drain next act st s).2.2 = none) : next (drain next act st s).2.1 = .wait := by
  rcases (@drain_ends _ _ _ _ next act B h st s hB).2 with
    hwait | ⟨e, hsome, -⟩ | ⟨r, b, n, st', e, h⟩
  · exact hwait.2
  · rw [hsome] at hnone
    exact nomatch hnone
  · rw [h.2.2.2.2] at hnone
    exact nomatch hnone

/-- **What arrives later is drained from what was left.** -/
theorem drain_append (h : Stable B next) {st : σ} {s t : List α} (hB : (s ++ t).length < B) :
    drain next act st (s ++ t) = match drain next act st s with
      | (st, r, none) => drain next act st (r ++ t)
      | (st, r, some e) => (st, r ++ t, some e) := by
  have hs : s.length < B := by
    rw [List.length_append] at hB
    omega
  refine drain_induction act h (P := fun st s ↦ (s ++ t).length < B →
    drain next act st (s ++ t) = match drain next act st s with
      | (st, r, none) => drain next act st (r ++ t)
      | (st, r, some e) => (st, r ++ t, some e)) ?_ hs hB
  intro st s hs ih hB
  -- Unless the reader waits, it finds the same in the longer buffer.
  have hsame : ∀ {o : Next β ε}, o ≠ .wait → next s = o → next (s ++ t) = o := by
    rintro o ho rfl
    exact h.append t hB ho
  rcases round_cases act next st s with
    hnext | ⟨e, hnext⟩ | ⟨b, n, st', hnext, hact⟩ | ⟨b, n, st', e, hnext, hact⟩
  · rw [drain_of_wait hnext]
  · rw [drain_of_stop hnext, drain_of_stop (hsame nofun hnext)]
  · have hn := h.size hs hnext
    have hlt : (s.drop n ++ t).length < B := by
      rw [List.length_append, List.length_drop]
      rw [List.length_append] at hB
      omega
    rw [drain_of_item h hs hnext hact, drain_of_item h hB (hsame nofun hnext) hact,
      List.drop_append_of_le_length hn.2]
    exact ih b n st' hnext hact hlt
  · rw [drain_of_last hnext hact, drain_of_last (hsame nofun hnext) hact,
      List.drop_append_of_le_length (h.size hs hnext).2]

/-- A part of the consumer's state that steps by itself is what the loop leaves of it. -/
theorem drain_map (h : Stable B next) (p : σ → τ) {act' : τ → β → τ × Option ε}
    (hact' : ∀ st b, act' (p st) b = (p (act st b).1, (act st b).2)) {st : σ} {s : List α}
    (hB : s.length < B) :
    drain next act' (p st) s = (p (drain next act st s).1, (drain next act st s).2) := by
  refine drain_induction act h (P := fun st s ↦ drain next act' (p st) s
    = (p (drain next act st s).1, (drain next act st s).2)) ?_ hB
  intro st s hB ih
  rcases round_cases act next st s with
    hnext | ⟨e, hnext⟩ | ⟨b, n, st', hnext, hact⟩ | ⟨b, n, st', e, hnext, hact⟩
  · rw [drain_of_wait hnext, drain_of_wait hnext]
  · rw [drain_of_stop hnext, drain_of_stop hnext]
  · have hp : act' (p st) b = (p st', none) := by rw [hact', hact]
    rw [drain_of_item h hB hnext hact, drain_of_item h hB hnext hp]
    exact ih b n st' hnext hact
  · have hp : act' (p st) b = (p st', some e) := by rw [hact', hact]
    rw [drain_of_last hnext hact, drain_of_last hnext hp]

/-- What each round keeps, the loop keeps. -/
theorem drain_invariant {P : σ → Prop} (hact : ∀ st b, P st → P (act st b).1) {st : σ}
    (s : List α) (hst : P st) : P (drain next act st s).1 := by
  suffices hfor : ∀ (k : ℕ) {st : σ} (s : List α), P st → P (drainFor next act k st s).1 from
    hfor _ s hst
  intro k
  induction k with
  | zero => exact fun s hst ↦ hst
  | succ k ih =>
    intro st s hst
    rw [drainFor]
    cases next s with
    | wait => exact hst
    | stop e => exact hst
    | item b n =>
      have hb := hact st b hst
      simp only
      generalize act st b = q at hb ⊢
      obtain ⟨st', o⟩ := q
      cases o with
      | none => exact ih _ hb
      | some e => exact hb

end Incremental
