import Mathlib

/-!
# Readers over a buffered source

A source is a buffer with a position, and what further receives will bring: pieces, or a failure
that is over once it has been seen. A reader looks for something in the buffer behind the position,
receives more when it is not there yet, and gives up when a receive fails.

`Reads p s b` is the contract of a reader: whenever `s` comes next, however it is cut into pieces,
whatever is already in the buffer and whatever follows, `p` returns `b` and leaves exactly what
follows, unless a receive fails. Contracts compose along sequencing (`Reads.bind`), so a parser of a
format is checked part by part.
-/

namespace Buffered

variable {α β γ : Type}

/-- A buffer with a position, and what further receives will bring. -/
structure Source (α : Type) where
  buf : List α := []
  pos : ℕ := 0
  /-- A piece, or a failure. When there is nothing left, every receive fails. -/
  feed : List (Option (List α)) := []

namespace Source

/-- What is in the buffer behind the position. -/
def avail (c : Source α) : List α := c.buf.drop c.pos

/-- The symbols that receives will bring. -/
def coming (feed : List (Option (List α))) : List α := (feed.filterMap id).flatten

/-- All that comes next. -/
def rest (c : Source α) : List α := c.avail ++ coming c.feed

/-- The position is inside the buffer, and a receive brings something or fails. -/
structure Valid (c : Source α) : Prop where
  pos_le : c.pos ≤ c.buf.length
  pieces : ∀ piece, some piece ∈ c.feed → piece ≠ []

/-- Empty the buffer if all of it has been read. -/
def tidy (c : Source α) : Source α :=
  if c.pos = c.buf.length then { c with buf := [], pos := 0 } else c

/-- Receive into the buffer. -/
def receive (c : Source α) : Bool × Source α := match c.feed with
  | some piece :: feed =>
    if piece = [] then (false, { c with feed }) else (true, { c with buf := c.buf ++ piece, feed })
  | none :: feed => (false, { c with feed })
  | [] => (false, c)

/-- Make room and receive. -/
def fill (c : Source α) : Bool × Source α := c.tidy.receive

/-- The position moved on. -/
def skip (c : Source α) (n : ℕ) : Source α := { c with pos := c.pos + n }

end Source

/-- A reader: a result, unless a receive failed or what was read is no good, and the source after
it. -/
def Read (α β : Type) := Source α → Option β × Source α

instance : Monad (Read α) where
  pure b := fun c ↦ (some b, c)
  bind p f := fun c ↦ match p c with
    | (some b, c) => f b c
    | (none, c) => (none, c)

namespace Read

/-- Give up. -/
def fail : Read α β := fun c ↦ (none, c)

/-- Look for something behind the position, and receive more until it is there. What is found is
`find`'s result and its length. -/
def retry (find : List α → Option (β × ℕ)) : ℕ → Read α β
  | 0 => fail
  | k + 1 => fun c ↦ match find c.avail with
    | some (b, n) => (some b, c.skip n)
    | none => match c.fill with
      | (true, c) => retry find k c
      | (false, c) => (none, c)

/-- The reader that looks for something: it receives no more often than the source has pieces. -/
def await (find : List α → Option (β × ℕ)) : Read α β := fun c ↦ retry find (c.feed.length + 1) c

/-- Read a number of symbols, with so many receives. -/
def exactFor : ℕ → ℕ → Read α (List α)
  | 0, _ => fail
  | k + 1, n => fun c ↦
    let s := c.avail.take n
    if s.length = n then (some s, c.skip n)
    else match (c.skip s.length).fill with
      | (true, c) => (return s ++ (← exactFor k (n - s.length)) : Read α (List α)) c
      | (false, c) => (none, c)

/-- Read a number of symbols. -/
def exact (n : ℕ) : Read α (List α) := fun c ↦ exactFor (c.feed.length + 1) n c

/-- Read a number of times. -/
def times (p : Read α β) : ℕ → Read α (List β)
  | 0 => return []
  | n + 1 => return (← p) :: (← times p n)

end Read

/-! ## Filling -/

namespace Source

variable {c : Source α}

theorem coming_cons (piece : List α) (feed : List (Option (List α))) :
    coming (some piece :: feed) = piece ++ coming feed := rfl

theorem feed_tidy (c : Source α) : c.tidy.feed = c.feed := by
  rw [tidy]
  split_ifs <;> rfl

theorem avail_tidy (c : Source α) : c.tidy.avail = c.avail := by
  rw [tidy]
  split_ifs with hread
  · rw [avail, avail, hread, List.drop_length]
    rfl
  · rfl

theorem Valid.tidy (h : c.Valid) : c.tidy.Valid := by
  refine ⟨?_, fun piece hp ↦ h.pieces piece (feed_tidy c ▸ hp)⟩
  rw [Source.tidy]
  split_ifs
  · exact Nat.zero_le _
  · exact h.pos_le

/-- A receive leaves a valid source, whether it succeeds or not. -/
theorem Valid.fill (h : c.Valid) : c.fill.2.Valid := by
  have ht := h.tidy
  rw [Source.fill, receive]
  rcases hf : c.tidy.feed with _ | ⟨_ | piece, feed⟩
  · exact ht
  · exact ⟨ht.pos_le, fun p hp ↦ ht.pieces p (hf ▸ List.mem_cons_of_mem _ hp)⟩
  · have hpieces : ∀ p, some p ∈ feed → p ≠ [] :=
      fun p hp ↦ ht.pieces p (hf ▸ List.mem_cons_of_mem _ hp)
    simp only
    split_ifs
    · exact ⟨ht.pos_le, hpieces⟩
    · refine ⟨?_, hpieces⟩
      simp only [List.length_append]
      exact ht.pos_le.trans (Nat.le_add_right _ _)

/-- A receive that succeeds moves a piece behind what is available. -/
theorem fill_eq (h : c.Valid) {piece : List α} {feed : List (Option (List α))}
    (hfeed : c.feed = some piece :: feed) :
    ∃ c', c.fill = (true, c') ∧ c'.Valid ∧ c'.avail = c.avail ++ piece ∧ c'.feed = feed := by
  have hne : piece ≠ [] := h.pieces piece (by rw [hfeed]; exact List.mem_cons_self)
  have heq : c.fill = (true, { c.tidy with buf := c.tidy.buf ++ piece, feed }) := by
    simp only [fill, receive, feed_tidy, hfeed, if_neg hne]
  refine ⟨_, heq, ?_, ?_, rfl⟩
  · have hvalid := h.fill
    rwa [heq] at hvalid
  · rw [← avail_tidy c]
    exact List.drop_append_of_le_length h.tidy.pos_le

/-- A receive fails where a failure comes next, or nothing. -/
theorem fill_fails (hfeed : ∀ piece feed, c.feed ≠ some piece :: feed) : c.fill.1 = false := by
  rw [fill, receive, feed_tidy]
  rcases hf : c.feed with _ | ⟨_ | piece, feed⟩
  · rfl
  · rfl
  · exact absurd hf (hfeed piece feed)

theorem Valid.skip (h : c.Valid) {n : ℕ} (hn : n ≤ c.avail.length) : (c.skip n).Valid := by
  refine ⟨?_, h.pieces⟩
  have hpos := h.pos_le
  rw [avail, List.length_drop] at hn
  have hskip : (c.skip n).pos = c.pos + n := rfl
  rw [hskip]
  show c.pos + n ≤ c.buf.length
  omega

theorem avail_skip (c : Source α) (n : ℕ) : (c.skip n).avail = c.avail.drop n := by
  rw [avail, avail, List.drop_drop]
  rfl

end Source

/-! ## Contracts -/

/-- What happens when `s` comes next: the reader returns `b` and leaves what follows, or a receive
has failed. -/
def Reads (p : Read α β) (s : List α) (b : β) : Prop := ∀ (c : Source α) (r : List α), c.Valid →
  c.rest = s ++ r →
    ((p c).1 = some b ∧ (p c).2.Valid ∧ (p c).2.rest = r ∧ (p c).2.feed <:+ c.feed) ∨
    (p c).1 = none ∧ none ∈ c.feed

theorem Reads.pure (b : β) : Reads (pure b : Read α β) [] b :=
  fun _ _ hc hrest ↦ .inl ⟨rfl, hc, hrest, List.suffix_refl _⟩

theorem bind_of_some {p : Read α β} {f : β → Read α γ} {c : Source α} {b : β} (h : (p c).1 = some b) :
    (p >>= f) c = f b (p c).2 := by
  show (match p c with | (some b, c) => f b c | (none, c) => (none, c)) = _
  rw [← Prod.mk.eta (p := p c), h]

theorem bind_of_none {p : Read α β} {f : β → Read α γ} {c : Source α} (h : (p c).1 = none) :
    ((p >>= f) c).1 = none := by
  show (match p c with | (some b, c) => f b c | (none, c) => (none, c)).1 = _
  rw [← Prod.mk.eta (p := p c), h]

/-- **Contracts compose.** -/
theorem Reads.bind {p : Read α β} {f : β → Read α γ} {s t : List α} {b : β} {d : γ}
    (hp : Reads p s b) (hf : Reads (f b) t d) : Reads (p >>= f) (s ++ t) d := by
  intro c r hc hrest
  rw [List.append_assoc] at hrest
  rcases hp c (t ++ r) hc hrest with ⟨hsome, hvalid, hrest', hfeed⟩ | ⟨hnone, hfail⟩
  · rw [bind_of_some hsome]
    rcases hf (p c).2 r hvalid hrest' with ⟨hsome', hvalid', hrest'', hfeed'⟩ | ⟨hnone, hfail⟩
    · exact .inl ⟨hsome', hvalid', hrest'', hfeed'.trans hfeed⟩
    · exact .inr ⟨hnone, hfeed.subset hfail⟩
  · exact .inr ⟨bind_of_none hnone, hfail⟩

theorem Reads.map {p : Read α β} {s : List α} {b : β} (hp : Reads p s b) (f : β → γ) :
    Reads (do return f (← p)) s (f b) := by
  have h := hp.bind (f := fun b ↦ (Pure.pure (f b) : Read α γ)) (Reads.pure (f b))
  rwa [List.append_nil] at h

/-- What a search finds lies in what it looks at, and is still found when more arrives. -/
structure Finds (find : List α → Option (β × ℕ)) : Prop where
  size : ∀ {s b n}, find s = some (b, n) → n ≤ s.length
  append : ∀ {s x} (t), find s = some x → find (s ++ t) = some x

/-- Skipping what comes next leaves what follows. -/
theorem rest_skip {c : Source α} {s r : List α} (hrest : c.rest = s ++ r)
    (hle : s.length ≤ c.avail.length) : (c.skip s.length).rest = r := by
  have hdrop : (c.avail ++ Source.coming c.feed).drop s.length = r := by
    rw [show c.avail ++ Source.coming c.feed = s ++ r from hrest, List.drop_left]
  rw [Source.rest, Source.avail_skip, ← hdrop, List.drop_append_of_le_length hle]
  rfl

section Rounds

variable {find : List α → Option (β × ℕ)} {k n : ℕ} {b : β} {c c' : Source α}

theorem retry_of_found (h : find c.avail = some (b, n)) :
    Read.retry find (k + 1) c = (some b, c.skip n) := by
  simp only [Read.retry, h]

theorem retry_of_filled (h : find c.avail = none) (hfill : c.fill = (true, c')) :
    Read.retry find (k + 1) c = Read.retry find k c' := by
  simp only [Read.retry, h, hfill]

theorem retry_of_failed (h : find c.avail = none) (hfill : c.fill.1 = false) :
    (Read.retry find (k + 1) c).1 = none := by
  have hpair : c.fill = (false, c.fill.2) := Prod.ext hfill rfl
  simp only [Read.retry, h]
  rw [hpair]

theorem exactFor_of_there (h : n ≤ c.avail.length) :
    Read.exactFor (k + 1) n c = (some (c.avail.take n), c.skip n) := by
  have hlen : (c.avail.take n).length = n := by rw [List.length_take, min_eq_left h]
  simp only [Read.exactFor, if_pos hlen]

theorem exactFor_of_filled (h : c.avail.length < n)
    (hfill : (c.skip c.avail.length).fill = (true, c')) : Read.exactFor (k + 1) n c
      = (do return c.avail ++ (← Read.exactFor k (n - c.avail.length)) : Read α (List α)) c' := by
  have hlen : (c.avail.take n).length ≠ n := by
    rw [List.take_of_length_le h.le]
    exact h.ne
  rw [List.take_of_length_le h.le] at hlen
  simp only [Read.exactFor, List.take_of_length_le h.le, if_neg hlen, hfill]

theorem exactFor_of_failed (h : c.avail.length < n)
    (hfill : (c.skip c.avail.length).fill.1 = false) : (Read.exactFor (k + 1) n c).1 = none := by
  have hpair : (c.skip c.avail.length).fill = (false, (c.skip c.avail.length).fill.2) :=
    Prod.ext hfill rfl
  simp only [Read.exactFor, List.take_of_length_le h.le, if_neg h.ne]
  rw [hpair]

end Rounds

theorem reads_retry {find : List α → Option (β × ℕ)} (h : Finds find) {s : List α} {b : β}
    (hfind : ∀ r, find (s ++ r) = some (b, s.length)) : ∀ (k : ℕ) (c : Source α) (r : List α),
    c.feed.length < k → c.Valid → c.rest = s ++ r →
    ((Read.retry find k c).1 = some b ∧ (Read.retry find k c).2.Valid ∧
      (Read.retry find k c).2.rest = r ∧ (Read.retry find k c).2.feed <:+ c.feed) ∨
    (Read.retry find k c).1 = none ∧ none ∈ c.feed := by
  intro k
  induction k with
  | zero => exact fun c r hk ↦ absurd hk (Nat.not_lt_zero _)
  | succ k ih =>
    intro c r hk hc hrest
    cases hnow : find c.avail with
    | some x =>
      -- What is found now is what is found in all that comes next.
      have hsame : find (s ++ r) = some x := hrest ▸ h.append (Source.coming c.feed) hnow
      obtain rfl := Option.some.inj (hsame.symm.trans (hfind r))
      have hle := h.size hnow
      rw [retry_of_found hnow]
      exact .inl ⟨rfl, hc.skip hle, rest_skip hrest hle, List.suffix_refl _⟩
    | none =>
      rcases hf : c.feed with _ | ⟨_ | piece, feed⟩
      · have hall : c.avail = s ++ r := by
          rw [← hrest, Source.rest, hf]
          exact (List.append_nil _).symm
        rw [hall, hfind] at hnow
        exact nomatch hnow
      · have hfail : c.fill.1 = false := Source.fill_fails (by rw [hf]; exact nofun)
        exact .inr ⟨retry_of_failed hnow hfail, List.mem_cons_self⟩
      · obtain ⟨c', hfill, hvalid, havail, hfeed⟩ := Source.fill_eq hc hf
        have hrest' : c'.rest = s ++ r := by
          rw [← hrest, Source.rest, Source.rest, havail, hfeed, hf, Source.coming_cons,
            List.append_assoc]
        have hk' : c'.feed.length < k := by
          rw [hf, List.length_cons] at hk
          rw [hfeed]
          omega
        rw [retry_of_filled hnow hfill, ← hfeed]
        rcases ih c' r hk' hvalid hrest' with ⟨hsome, hv, hr, hsub⟩ | ⟨hnone, hmem⟩
        · exact .inl ⟨hsome, hv, hr, hsub.trans (List.suffix_cons _ _)⟩
        · exact .inr ⟨hnone, List.mem_cons_of_mem _ hmem⟩

/-- **The rule of searching.** -/
theorem reads_await {find : List α → Option (β × ℕ)} (h : Finds find) {s : List α} {b : β}
    (hfind : ∀ r, find (s ++ r) = some (b, s.length)) : Reads (Read.await find) s b :=
  fun c r hc hrest ↦ reads_retry h hfind _ c r (Nat.lt_succ_self _) hc hrest

theorem reads_exactFor : ∀ (k : ℕ) (c : Source α) (s r : List α), c.feed.length < k → c.Valid →
    c.rest = s ++ r →
    ((Read.exactFor k s.length c).1 = some s ∧ (Read.exactFor k s.length c).2.Valid ∧
      (Read.exactFor k s.length c).2.rest = r ∧ (Read.exactFor k s.length c).2.feed <:+ c.feed) ∨
    (Read.exactFor k s.length c).1 = none ∧ none ∈ c.feed := by
  intro k
  induction k with
  | zero => exact fun c s r hk ↦ absurd hk (Nat.not_lt_zero _)
  | succ k ih =>
    intro c s r hk hc hrest
    by_cases hle : s.length ≤ c.avail.length
    · have htake : c.avail.take s.length = s := by
        have hall : (c.avail ++ Source.coming c.feed).take s.length = s := by
          rw [show c.avail ++ Source.coming c.feed = s ++ r from hrest, List.take_left]
        rwa [List.take_append_of_le_length hle] at hall
      rw [exactFor_of_there hle, htake]
      exact .inl ⟨rfl, hc.skip hle, rest_skip hrest hle, List.suffix_refl _⟩
    · -- All that is available is a part of `s`, and the rest of it is still to come.
      rw [not_le] at hle
      have hpre : c.avail <+: s :=
        List.prefix_of_prefix_length_le ⟨_, rfl⟩ (hrest ▸ List.prefix_append s r) hle.le
      obtain ⟨s', hs'⟩ := hpre
      have hcoming : Source.coming c.feed = s' ++ r := by
        rw [Source.rest, ← hs', List.append_assoc] at hrest
        exact List.append_cancel_left hrest
      have hlen : s.length - c.avail.length = s'.length := by
        rw [← hs', List.length_append]
        omega
      have hskip : (c.skip c.avail.length).Valid := hc.skip le_rfl
      have hnil : (c.skip c.avail.length).avail = [] := by
        rw [Source.avail_skip, List.drop_length]
      have hsame : (c.skip c.avail.length).feed = c.feed := rfl
      rcases hf : c.feed with _ | ⟨_ | piece, feed⟩
      · rw [hf] at hcoming
        have hnone : s'.length = 0 := by rw [(List.append_eq_nil_iff.mp hcoming.symm).1]; rfl
        omega
      · have hfail : (c.skip c.avail.length).fill.1 = false :=
          Source.fill_fails (by rw [hsame, hf]; exact nofun)
        exact .inr ⟨exactFor_of_failed hle hfail, List.mem_cons_self⟩
      · obtain ⟨c', hfill, hvalid, havail, hfeed⟩ := Source.fill_eq hskip hf
        have hrest' : c'.rest = s' ++ r := by
          rw [← hcoming, Source.rest, havail, hfeed, hnil, hf, Source.coming_cons]
          rfl
        have hk' : c'.feed.length < k := by
          rw [hf, List.length_cons] at hk
          rw [hfeed]
          omega
        rw [exactFor_of_filled hle hfill, hlen, ← hfeed]
        rcases ih c' s' r hk' hvalid hrest' with ⟨hsome, hv, hr, hsub⟩ | ⟨hnone, hmem⟩
        · rw [bind_of_some hsome, ← hs']
          exact .inl ⟨rfl, hv, hr, hsub.trans (List.suffix_cons _ _)⟩
        · exact .inr ⟨bind_of_none hnone, List.mem_cons_of_mem _ hmem⟩

/-- **The rule of reading a number of symbols.** -/
theorem reads_exact (s : List α) : Reads (Read.exact s.length) s s :=
  fun c r hc hrest ↦ reads_exactFor _ c s r (Nat.lt_succ_self _) hc hrest

/-- **The rule of repetition.** -/
theorem reads_times {ι : Type} {p : Read α β} {enc : ι → List α} {val : ι → β} {xs : List ι}
    (h : ∀ x ∈ xs, Reads p (enc x) (val x)) :
    Reads (Read.times p xs.length) (xs.flatMap enc) (xs.map val) := by
  induction xs with
  | nil => exact Reads.pure []
  | cons x xs ih =>
    have hrest := ih fun y hy ↦ h y (List.mem_cons_of_mem _ hy)
    rw [List.flatMap_cons]
    exact (h x List.mem_cons_self).bind (hrest.map (val x :: ·))

/-! ## Readers that give up -/

/-- Whatever comes next, a reader leaves a valid source. -/
def Keeps (p : Read α β) : Prop := ∀ c : Source α, c.Valid → (p c).2.Valid

theorem Keeps.pure (b : β) : Keeps (pure b : Read α β) := fun _ hc ↦ hc

theorem Keeps.fail : Keeps (Read.fail : Read α β) := fun _ hc ↦ hc

theorem Keeps.bind {p : Read α β} {f : β → Read α γ} (hp : Keeps p) (hf : ∀ b, Keeps (f b)) :
    Keeps (p >>= f) := by
  intro c hc
  have hvalid := hp c hc
  show (match p c with | (some b, c) => f b c | (none, c) => (none, c)).2.Valid
  split
  · rename_i b c' heq
    rw [heq] at hvalid
    exact hf b c' hvalid
  · rename_i c' heq
    rw [heq] at hvalid
    exact hvalid

theorem Keeps.await {find : List α → Option (β × ℕ)} (h : Finds find) : Keeps (Read.await find) := by
  have hretry : ∀ k, Keeps (Read.retry find k) := by
    intro k
    induction k with
    | zero => exact Keeps.fail
    | succ k ih =>
      intro c hc
      cases hnow : find c.avail with
      | some x =>
        rw [retry_of_found hnow]
        exact hc.skip (h.size hnow)
      | none =>
        have hfill := hc.fill
        simp only [Read.retry, hnow]
        split
        · rename_i c' heq
          rw [heq] at hfill
          exact ih c' hfill
        · rename_i c' heq
          rw [heq] at hfill
          exact hfill
  exact fun c hc ↦ hretry _ c hc

theorem Keeps.exact (n : ℕ) : Keeps (Read.exact n : Read α (List α)) := by
  have hexact : ∀ k n, Keeps (Read.exactFor k n : Read α (List α)) := by
    intro k
    induction k with
    | zero => exact fun _ ↦ Keeps.fail
    | succ k ih =>
      intro n c hc
      by_cases hle : n ≤ c.avail.length
      · rw [exactFor_of_there hle]
        exact hc.skip hle
      · have hfill := (hc.skip (le_refl c.avail.length)).fill
        rw [not_le] at hle
        simp only [Read.exactFor, List.take_of_length_le hle.le, if_neg hle.ne]
        split
        · rename_i c' heq
          rw [heq] at hfill
          exact Keeps.bind (ih _) (fun _ ↦ Keeps.pure _) c' hfill
        · rename_i c' heq
          rw [heq] at hfill
          exact hfill
  exact fun c hc ↦ hexact _ n c hc

theorem Keeps.times {p : Read α β} (hp : Keeps p) (n : ℕ) : Keeps (Read.times p n) := by
  induction n with
  | zero => exact Keeps.pure []
  | succ n ih => exact hp.bind fun b ↦ ih.bind fun bs ↦ Keeps.pure (b :: bs)

end Buffered
