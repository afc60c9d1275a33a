import Shrt.Lib.Lockstep

/-!
# Books of counters that are written later

A machine counts hits for accounts. A hit is pending at first, and a flush moves what is pending to
what is stored. A flush may also fail, after which the pending hits are lost. Deleting an account
deletes what is stored of it.

A machine *keeps books* if every input changes them as its event says (`Keeps`), as long as the
counters are below a limit. Two questions about the balance of an account, stored and pending, are
settled for every such machine: when it is the number of all hits (`balance_eq_count_iff`), and when
that of an account is the number of hits since it was created (`balance_eq_since_iff`).
-/

namespace Ledger

open Lockstep Transition

variable {κ σ α β : Type*}

/-- The books. -/
@[ext]
structure Books (κ : Type*) where
  present : κ → Prop
  stored : κ → ℤ
  pending : κ → ℤ

/-- What can happen to them. -/
inductive Event (κ : Type*) where
  | create (k : κ)
  | hit (k : κ)
  | delete (k : κ)
  | flush
  /-- A flush that fails. -/
  | lose
  | idle
  deriving DecidableEq

namespace Books

/-- What is stored and pending of an account. -/
def balance (B : Books κ) (k : κ) : ℤ := B.stored k + B.pending k

/-- No counter is negative, and no balance is above the bound. -/
def Within (n : ℤ) (B : Books κ) : Prop := ∀ k, 0 ≤ B.stored k ∧ 0 ≤ B.pending k ∧ B.balance k ≤ n

variable [DecidableEq κ] {B : Books κ} {k k' : κ} {n : ℤ}

/-- The books after an event. -/
def after (B : Books κ) : Event κ → Books κ
  | .create k => { B with present := Function.update B.present k True }
  | .hit k => { B with pending := Function.update B.pending k (B.pending k + 1) }
  | .delete k =>
    { B with present := Function.update B.present k False, stored := Function.update B.stored k 0 }
  | .flush => { B with stored := B.balance, pending := fun _ ↦ 0 }
  | .lose => { B with pending := fun _ ↦ 0 }
  | .idle => B

theorem balance_after_hit :
    (B.after (.hit k)).balance k' = B.balance k' + if k' = k then 1 else 0 := by
  rw [balance, balance, after]
  dsimp only
  split_ifs with h
  · rw [h, Function.update_self, add_assoc]
  · rw [Function.update_of_ne h, add_zero]

theorem balance_after_flush : (B.after .flush).balance k = B.balance k := add_zero _

theorem balance_after_lose : (B.after .lose).balance k = B.stored k := add_zero _

/-- An event raises a balance by one at most. -/
theorem Within.after (h : B.Within n) (e : Event κ) : (B.after e).Within (n + 1) := by
  intro k
  have hk := h k
  rw [balance] at hk
  cases e with
  | create k' =>
    simp only [Books.after, balance]
    omega
  | hit k' =>
    simp only [Books.after, balance, Function.update_apply]
    split_ifs with heq
    · rw [← heq]
      omega
    · omega
  | delete k' =>
    simp only [Books.after, balance, Function.update_apply]
    split_ifs
    · omega
    · omega
  | flush =>
    simp only [Books.after, balance]
    omega
  | lose =>
    simp only [Books.after, balance]
    omega
  | idle =>
    simp only [Books.after, balance]
    omega

end Books

/-! ## Machines that keep books -/

variable {f : σ → α → β × σ} {event : α → β → Event κ} {books : σ → Books κ} {q : α → Prop}
  {Inv : σ → Prop} {limit : ℕ} {s : σ} {as pre : List α} {a : α} {k : κ}

/-- The events of a run. -/
def events (f : σ → α → β × σ) (event : α → β → Event κ) (s : σ) (as : List α) : List (Event κ) :=
  List.zipWith event as (outputs f s as)

theorem events_concat (a : α) : events f event s (as ++ [a]) =
    events f event s as ++ [event a (f (after f s as) a).1] := by
  rw [events, outputs_concat, List.zipWith_append (length_outputs f s as).symm]
  rfl

variable [DecidableEq κ]

/-- Every input changes the books as its event says, while no balance has reached the limit. -/
def Keeps (f : σ → α → β × σ) (event : α → β → Event κ) (books : σ → Books κ) (q : α → Prop)
    (Inv : σ → Prop) (limit : ℕ) : Prop :=
  ∀ s a, Inv s → q a → (books s).Within (limit - 1) →
    Inv (f s a).2 ∧ books (f s a).2 = (books s).after (event a (f s a).1)

/-- What is known of the books after some inputs. -/
structure Known (f : σ → α → β × σ) (books : σ → Books κ) (Inv : σ → Prop) (s : σ)
    (as : List α) : Prop where
  inv : Inv (after f s as)
  within : (books (after f s as)).Within as.length

omit [DecidableEq κ] in
theorem known_nil (hinv : Inv s) (hempty : ∀ k, (books s).stored k = 0 ∧ (books s).pending k = 0) :
    Known f books Inv s [] := by
  refine ⟨hinv, fun k ↦ ?_⟩
  obtain ⟨hstored, hpending⟩ := hempty k
  rw [after_nil, Books.balance, hstored, hpending]
  exact ⟨le_rfl, le_rfl, le_rfl⟩

/-- One more input. -/
theorem Known.concat (hkeeps : Keeps f event books q Inv limit) (has : ∀ a ∈ as, q a)
    (hlen : as.length ≤ limit) (hpre : pre ++ [a] <+: as) (h : Known f books Inv s pre) :
    Known f books Inv s (pre ++ [a]) ∧ books (after f s (pre ++ [a])) =
      (books (after f s pre)).after (event a (f (after f s pre) a).1) := by
  have ha : q a := has a (hpre.subset (List.mem_append_right _ List.mem_cons_self))
  have hlength := hpre.length_le
  rw [List.length_append, List.length_singleton] at hlength
  have hwithin : (books (after f s pre)).Within (limit - 1) := fun k ↦
    ⟨(h.within k).1, (h.within k).2.1, (h.within k).2.2.trans (by omega)⟩
  obtain ⟨hinv, hbooks⟩ := hkeeps _ a h.inv ha hwithin
  rw [← after_concat] at hinv hbooks
  refine ⟨⟨hinv, ?_⟩, hbooks⟩
  rw [hbooks, List.length_append, List.length_singleton, Nat.cast_add, Nat.cast_one]
  exact h.within.after _

theorem known_of_prefix (hkeeps : Keeps f event books q Inv limit) (has : ∀ a ∈ as, q a)
    (hlen : as.length ≤ limit) (hinv : Inv s)
    (hempty : ∀ k, (books s).stored k = 0 ∧ (books s).pending k = 0) (hpre : pre <+: as) :
    Known f books Inv s pre := by
  induction pre using List.reverseRecOn with
  | nil => exact known_nil hinv hempty
  | append_singleton pre a ih =>
    exact ((ih ((List.prefix_append _ _).trans hpre)).concat hkeeps has hlen hpre).1

/-! ## All hits -/

theorem count_concat (es : List (Event κ)) (e : Event κ) :
    ((es ++ [e]).count (.hit k) : ℤ) = es.count (.hit k) + if e = .hit k then 1 else 0 := by
  rw [List.count_append, List.count_singleton]
  push_cast
  simp

/-- One event, unless it loses something. -/
theorem balance_after_eq_count {B : Books κ} {es : List (Event κ)} {e : Event κ}
    (hkept : ∀ k, e ≠ .delete k) (hok : e = .lose → ∀ k, B.pending k = 0)
    (h : ∀ k, B.balance k = es.count (.hit k)) (k : κ) :
    (B.after e).balance k = (es ++ [e]).count (.hit k) := by
  rw [count_concat, ← h k]
  cases e with
  | create k' => exact (add_zero _).symm
  | hit k' =>
    rw [Books.balance_after_hit]
    simp only [Event.hit.injEq, eq_comm]
  | delete k' => exact absurd rfl (hkept k')
  | flush => exact Books.balance_after_flush.trans (add_zero _).symm
  | lose => rw [Books.balance_after_lose, Books.balance, hok rfl k, add_zero, if_neg (by simp), add_zero]
  | idle => exact (add_zero _).symm

/-- **All hits.** While nothing is deleted, every balance is the number of hits all along exactly if
nothing is pending whenever a flush fails. -/
theorem balance_eq_count_iff (hkeeps : Keeps f event books q Inv limit)
    (hkept : ∀ a b k, q a → event a b ≠ .delete k) (has : ∀ a ∈ as, q a) (hlen : as.length ≤ limit)
    (hinv : Inv s) (hempty : ∀ k, (books s).stored k = 0 ∧ (books s).pending k = 0) :
    (∀ pre, pre <+: as → ∀ k,
      (books (after f s pre)).balance k = (events f event s pre).count (.hit k)) ↔
    Meets (fun s a ↦ some (f s a).2)
      (fun s a ↦ event a (f s a).1 = .lose → ∀ k, (books s).pending k = 0) s as := by
  refine forall_prefix_iff_meets (f := f) (P := fun pre ↦ Known f books Inv s pre ∧ ∀ k,
    (books (after f s pre)).balance k = (events f event s pre).count (.hit k))
    (fun pre h ↦ h.2) ?_ ?_ ⟨known_nil hinv hempty, fun k ↦ ?_⟩
  · -- After a flush that failed the balance is what was stored.
    rintro pre a hpre ⟨hknown, hcount⟩ hafter hlose k
    have hk := hafter k
    rw [(hknown.concat hkeeps has hlen hpre).2, events_concat, hlose, Books.balance_after_lose,
      count_concat, if_neg (by simp), ← hcount k, Books.balance] at hk
    omega
  · rintro pre a hpre ⟨hknown, hcount⟩ hok
    obtain ⟨hknown', hbooks⟩ := hknown.concat hkeeps has hlen hpre
    have ha : q a := has a (hpre.subset (List.mem_append_right _ List.mem_cons_self))
    refine ⟨hknown', fun k ↦ ?_⟩
    rw [hbooks, events_concat]
    exact balance_after_eq_count (fun k' ↦ hkept _ _ k' ha) hok hcount k
  · obtain ⟨hstored, hpending⟩ := hempty k
    rw [after_nil, Books.balance, hstored, hpending]
    rfl

/-! ## Hits since an account was created -/

/-- The number of hits of an account since it was created last. -/
def since (k : κ) (es : List (Event κ)) : ℕ :=
  es.foldl (fun n e ↦ if e = .create k then 0 else if e = .hit k then n + 1 else n) 0

theorem since_concat (es : List (Event κ)) (e : Event κ) : since k (es ++ [e]) =
    if e = .create k then 0 else if e = .hit k then since k es + 1 else since k es := by
  rw [since, List.foldl_append]
  rfl

/-- An account that is created has no balance yet. -/
def Books.Ready (B : Books κ) : Event κ → Prop
  | .create k => B.balance k = 0
  | .hit _ | .delete _ | .flush | .lose | .idle => True

instance (B : Books κ) : (e : Event κ) → Decidable (B.Ready e)
  | .create _ => inferInstanceAs (Decidable (_ = _))
  | .hit _ | .delete _ | .flush | .lose | .idle => inferInstanceAs (Decidable True)

/-- One event, unless it creates an account that has a balance. -/
theorem balance_after_eq_since {B : Books κ} {es : List (Event κ)} {e : Event κ} (hsound : e ≠ .lose)
    (hok : B.Ready e) (h : ∀ k, B.present k → B.balance k = since k es)
    (k : κ) (hpresent : (B.after e).present k) :
    (B.after e).balance k = since k (es ++ [e]) := by
  rw [since_concat]
  cases e with
  | create k' =>
    simp only [Books.after, Function.update_apply] at hpresent
    by_cases hk : k = k'
    · rw [hk, if_pos rfl]
      exact hok
    · rw [if_neg hk] at hpresent
      rw [if_neg (by simpa using Ne.symm hk), if_neg (by simp)]
      exact h k hpresent
  | hit k' =>
    rw [Books.balance_after_hit, h k hpresent]
    by_cases hk : k = k'
    · simp [hk]
    · simp [hk, Ne.symm hk]
  | delete k' =>
    simp only [Books.after, Function.update_apply] at hpresent
    by_cases hk : k = k'
    · exact absurd hpresent (by simp [hk])
    · rw [if_neg hk] at hpresent
      simp only [Books.balance, Books.after, Function.update_of_ne hk]
      exact h k hpresent
  | flush =>
    rw [Books.balance_after_flush]
    exact h k hpresent
  | lose => exact absurd rfl hsound
  | idle => exact h k hpresent

/-- **Hits of one life.** While no flush fails, the balance of every account that is shown is the
number of hits since it was created, all along, exactly if accounts are created with a balance of
zero. An account that is shown exists, and one that was just created is shown. -/
theorem balance_eq_since_iff {shown : σ → κ → Prop} (hkeeps : Keeps f event books q Inv limit)
    (hsound : ∀ a b, q a → event a b ≠ .lose) 
    (hthere : ∀ s k, Inv s → shown s k → (books s).present k)
    (hshown : ∀ s a k, Inv s → q a → event a (f s a).1 = .create k → shown (f s a).2 k)
    (has : ∀ a ∈ as, q a) (hlen : as.length ≤ limit) (hinv : Inv s)
    (hempty : ∀ k, (books s).stored k = 0 ∧ (books s).pending k = 0) :
    (∀ pre, pre <+: as → ∀ k, shown (after f s pre) k →
      (books (after f s pre)).balance k = since k (events f event s pre)) ↔
    Meets (fun s a ↦ some (f s a).2) (fun s a ↦ (books s).Ready (event a (f s a).1)) s as := by
  refine forall_prefix_iff_meets (f := f) (P := fun pre ↦ Known f books Inv s pre ∧ ∀ k,
    (books (after f s pre)).present k →
      (books (after f s pre)).balance k = since k (events f event s pre))
    (fun pre h k hk ↦ h.2 k (hthere _ k h.1.inv hk)) ?_ ?_ ⟨known_nil hinv hempty, fun k _ ↦ ?_⟩
  · -- The account that was created has no hits yet.
    rintro pre a hpre ⟨hknown, hsince⟩ hafter
    have ha : q a := has a (hpre.subset (List.mem_append_right _ List.mem_cons_self))
    cases he : event a (f (after f s pre) a).1 with
    | create k =>
      have hk := hafter k
      rw [(hknown.concat hkeeps has hlen hpre).2, events_concat, he, since_concat, if_pos rfl,
        after_concat] at hk
      exact hk (hshown _ a k hknown.inv ha he)
    | hit _ | delete _ | flush | lose | idle => trivial
  · rintro pre a hpre ⟨hknown, hsince⟩ hok
    obtain ⟨hknown', hbooks⟩ := hknown.concat hkeeps has hlen hpre
    have ha : q a := has a (hpre.subset (List.mem_append_right _ List.mem_cons_self))
    refine ⟨hknown', ?_⟩
    rw [hbooks, events_concat]
    exact balance_after_eq_since (hsound _ _ ha) hok hsince
  · obtain ⟨hstored, hpending⟩ := hempty k
    rw [after_nil, Books.balance, hstored, hpending]
    rfl

end Ledger
