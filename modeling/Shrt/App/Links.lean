import Shrt.App.Handle
import Shrt.Machine.Restart

/-!
# What requests do to links

Requests to a store that no other process writes to. Serving a request creates links, counts hits,
or does what an administrator asked for; everything else leaves the index alone. Which of these it
was is read off `Serves`, and what follows for runs of requests is proved here.
-/

namespace Shrt

open Transition (run Meets)

/-! ## Calls, by what they do to the index -/

/-- New links are bound, all of them with a property, and nothing else changes. -/
def Inner.Adds (P : LinkRow → Prop) (s s' : Inner) : Prop :=
  ∀ c, s'.find c = s.find c ∨ s.find c = none ∧ ∃ e, s'.find c = some e ∧ P e.link

/-- Hits are counted, and nothing else changes. -/
def Inner.Counts (s s' : Inner) : Prop :=
  ∀ c, s'.find c = s.find c ∨ ∃ e, s.find c = some e ∧ s'.find c = some (Store.bumped e)

theorem Inner.Adds.trans {P : LinkRow → Prop} {s s' s'' : Inner} (h : s.Adds P s')
    (h' : s'.Adds P s'') : s.Adds P s'' := by
  intro c
  rcases h c with heq | ⟨hnone, e, he, hP⟩
  · have hc := h' c
    rwa [heq] at hc
  · refine .inr ⟨hnone, ?_⟩
    rcases h' c with heq' | ⟨hnone', -⟩
    · exact ⟨e, heq'.trans he, hP⟩
    · exact nomatch hnone'.symm.trans he

namespace Store

variable {st st' : Store} {code url : Bytes} {ttl : Int64} {hasTtl : Bool} {clk : Clock}

/-- The link a creation makes. -/
def newLink (st : Store) (url : Bytes) (now ttl : Int64) : LinkRow :=
  { u := url, a := now, e := expiry now ttl, i := instInt st.inner.inst }

theorem adds_bind {P : LinkRow → Prop} {now exp : Int64} (hfree : st.inner.find code = none)
    (hP : P (st.newEntry url now exp).link) : st.inner.Adds P (st.bind code url now exp).inner := by
  intro c
  have hfind : (st.bind code url now exp).inner.find c
      = if c = code then some (st.newEntry url now exp) else st.inner.find c := Inner.find_put ..
  rw [hfind]
  split_ifs with hc
  · exact .inr ⟨hc ▸ hfree, _, rfl, hP⟩
  · exact .inl rfl

/-- A code that a creation picks is free. -/
theorem find_of_pickCode {al : Option Bytes} {rng : List Draw}
    (h : st.pickCode al rng = some (some code)) : st.inner.find code = none := by
  cases al with
  | some a =>
    rw [pickCode, Option.some.injEq] at h
    split_ifs at h with htaken
    obtain rfl := Option.some.inj h
    simpa using htaken
  | none =>
    obtain ⟨p, hp, hc⟩ := Option.map_eq_some_iff.mp h
    obtain rfl := Option.some.inj hc
    exact (freshCode_spec hp).1

theorem adds_shorten {al : Option Bytes} {rng : List Draw} {code : Option Bytes}
    (h : st.shorten url al ttl clk rng = some (st', code)) :
    st.inner.Adds (· = st.newLink url (clk 0) ttl) st'.inner := by
  obtain ⟨pick, hpick, heq⟩ := Option.map_eq_some_iff.mp h
  cases pick with
  | none =>
    obtain ⟨rfl, -⟩ := Prod.mk.inj heq
    exact fun _ ↦ .inl rfl
  | some code =>
    obtain ⟨rfl, -⟩ := Prod.mk.inj heq
    have hbind : st.inner.Adds (· = st.newLink url (clk 0) ttl)
        (st.bind code url (clk 0) (expiry (clk 0) ttl)).inner :=
      adds_bind (find_of_pickCode hpick) rfl
    intro c
    rw [Inner.find, shards_flushIfFull]
    exact hbind c

theorem adds_shortenLoop {P : LinkRow → Prop} {now exp : Int64} {urls : List Bytes} :
    ∀ {st : Store} {rng : List Draw} {lines : Bytes} {codes : List Bytes}
      {r : Store × Bytes × List Bytes}, (∀ u ∈ urls, P (st.newEntry u now exp).link) →
      st.shortenLoop now exp urls rng lines codes = some r → st.inner.Adds P r.1.inner := by
  induction urls with
  | nil =>
    intro st rng lines codes r _ h
    rw [← Option.some.inj h]
    exact fun _ ↦ .inl rfl
  | cons u us ih =>
    intro st rng lines codes r hP h
    rw [shortenLoop] at h
    cases hf : freshCode st.inner.shards st.inner.inst rng with
    | none =>
      rw [hf] at h
      contradiction
    | some p =>
      rw [hf] at h
      refine (adds_bind (freshCode_spec hf).1 (hP u List.mem_cons_self)).trans (ih ?_ h)
      exact fun v hv ↦ hP v (List.mem_cons_of_mem _ hv)

theorem adds_shortenMany {urls : List Bytes} {rng : List Draw} {codes : List Bytes}
    (h : st.shortenMany urls ttl clk rng = some (st', codes)) :
    st.inner.Adds (fun l ↦ ∃ u ∈ urls, l = st.newLink u (clk 0) ttl) st'.inner := by
  obtain ⟨r, hr, heq⟩ := Option.map_eq_some_iff.mp h
  obtain ⟨rfl, -⟩ := Prod.mk.inj heq
  have hloop := adds_shortenLoop (P := fun l ↦ ∃ u ∈ urls, l = st.newLink u (clk 0) ttl)
    (fun u hu ↦ ⟨u, hu, rfl⟩) hr
  intro c
  rw [Inner.find, shards_flushIfFull]
  exact hloop c

/-- An update changes the url and the expiry of an own link, or nothing. -/
theorem update_cases (st : Store) (code url : Bytes) (ttl : Int64) (hasTtl : Bool) (clk : Clock) :
    (∃ m, m ≠ .ok ∧ st.update code url ttl hasTtl clk = (st, m)) ∨
    ∃ e, st.inner.find code = some e ∧ (st.update code url ttl hasTtl clk).2 = .ok ∧
      ∀ c, (st.update code url ttl hasTtl clk).1.inner.find c
        = if c = code then
            some { e with u := url, e := if hasTtl then expiry (clk 0) ttl else e.e }
          else st.inner.find c := by
  rw [update, updateIndex]
  cases hf : st.inner.find code with
  | none => exact .inl ⟨.missing, by decide, rfl⟩
  | some e =>
    by_cases hi : e.i = instInt st.inner.inst
    · simp only [if_neg (not_not.mpr hi)]
      exact .inr ⟨e, rfl, trivial, fun c ↦ Inner.find_put ..⟩
    · simp only [if_pos hi]
      exact .inl ⟨.remote, by decide, rfl⟩

/-- A removal unbinds an own code, or nothing. -/
theorem remove_cases (st : Store) (code : Bytes) :
    (∃ m, m ≠ .ok ∧ st.remove code = (st, m)) ∨
    ((st.inner.find code).isSome = true ∧ (st.remove code).2 = .ok ∧
      ∀ c, (st.remove code).1.inner.find c = if c = code then none else st.inner.find c) := by
  rw [remove, removeIndex]
  cases hf : st.inner.find code with
  | none => exact .inl ⟨.missing, by decide, rfl⟩
  | some e =>
    simp only
    split_ifs with hi
    · exact .inl ⟨.remote, by decide, rfl⟩
    · exact .inr ⟨rfl, rfl, fun c ↦ Inner.find_erase ..⟩

end Store

/-! ## A store to itself -/

/-- No other process writes to the store: it has no log, or the directory is its own. -/
def Alone (st : Store) : Prop := st.inner.aof = none ∨ Solo st

namespace Alone

variable {st st' : Store} (hs : Alone st)
include hs

/-- Reading the tails after a miss finds nothing. -/
theorem shards_readTails (code : Bytes) (clk : Clock) (ord : Order) :
    (st.readTails code clk ord).inner.shards = st.inner.shards := by
  rcases hs with haof | hs
  · have hsame : tailMissed ord st.dir st.inner code clk = st.inner := by
      simp [tailMissed, haof]
    exact congrArg Inner.shards hsame
  · exact (hs.onlyTail_tailMissed ord code clk).shards

/-- A resolve returns the url of a link in the index, and counts a hit on it. -/
theorem resolve_cases {code : Bytes} {clk : Clock} {track : Bool} {ord : Order}
    {target : Option Bytes} (h : st.resolve code clk track ord = (st', target)) :
    st.inner.Counts st'.inner ∧
      ∀ u ∈ target, ∃ e, st.inner.find code = some e ∧ e.u = u := by
  rw [Store.resolve, Store.lookup] at h
  cases hf : st.inner.find code with
  | some e =>
    rw [hf] at h
    by_cases hlive : Store.live e (clk 0) = true
    · simp only [hlive, if_true] at h
      obtain ⟨rfl, rfl⟩ := Prod.mk.inj h
      refine ⟨?_, ?_⟩
      · intro c
        split_ifs
        · have hfind : ((st.mapInner (·.put code (Store.bumped e))).markDirty code).inner.find c
              = if c = code then some (Store.bumped e) else st.inner.find c :=
            (Shards.find_addDirty ..).trans (Inner.find_put ..)
          rw [hfind]
          split_ifs with hc
          · exact .inr ⟨e, hc ▸ hf, rfl⟩
          · exact .inl rfl
        · exact .inl rfl
      · rintro u ⟨⟩
        exact ⟨e, rfl, rfl⟩
    · simp only [hlive] at h
      obtain ⟨rfl, rfl⟩ := Prod.mk.inj h
      exact ⟨fun _ ↦ .inl rfl, fun u hu ↦ absurd hu (Option.not_mem_none u)⟩
  | none =>
    rw [hf] at h
    have hnone : (st.readTails code clk ord).inner.find code = none := by
      rw [Inner.find, hs.shards_readTails]
      exact hf
    have hshards : ∀ c, (st.readTails code clk ord).inner.find c = st.inner.find c := by
      intro c
      rw [Inner.find, hs.shards_readTails]
      rfl
    simp only [Store.lookup, hnone] at h
    split_ifs at h <;> obtain ⟨rfl, rfl⟩ := Prod.mk.inj h
    · exact ⟨fun _ ↦ .inl rfl, fun u hu ↦ absurd hu (Option.not_mem_none u)⟩
    · exact ⟨fun c ↦ .inl (hshards c), fun u hu ↦ absurd hu (Option.not_mem_none u)⟩

end Alone

/-! ## Serving keeps a store to itself -/

namespace Store

variable {st st' : Store}

theorem aof_flushIfFull (h : st.inner.aof = none) : st.flushIfFull.inner.aof = none := by
  rw [flushIfFull, h]
  exact h

theorem aof_push (h : st.inner.aof = none) (line : Bytes) : (st.push line).inner.aof = none := by
  rw [push, h]
  rfl

theorem aof_pushRaw (h : st.inner.aof = none) (bytes : Bytes) :
    (st.pushRaw bytes).inner.aof = none := by
  rw [pushRaw, h]
  rfl

theorem aof_shortenLoop {now exp : Int64} {urls : List Bytes} :
    ∀ {st : Store} {rng : List Draw} {lines : Bytes} {codes : List Bytes}
      {r : Store × Bytes × List Bytes},
      st.shortenLoop now exp urls rng lines codes = some r → r.1.inner.aof = st.inner.aof := by
  induction urls with
  | nil =>
    intro st rng lines codes r h
    rw [← Option.some.inj h]
  | cons u us ih =>
    intro st rng lines codes r h
    rw [shortenLoop] at h
    split at h
    · contradiction
    · exact (ih h).trans rfl

theorem aof_lookup (st : Store) (code : Bytes) (now : Int64) (track : Bool) :
    (st.lookup code now track).1.inner.aof = st.inner.aof := by
  rcases st.lookup_cases code now track with ⟨e, -, -, h⟩ | ⟨r, h, -, -⟩
  · rw [h]
    rfl
  · rw [h]

theorem aof_resolve (h : st.inner.aof = none) (code : Bytes) (clk : Clock) (track : Bool)
    (ord : Order) : (st.resolve code clk track ord).1.inner.aof = none := by
  have hlook := (aof_lookup st code (clk 0) track).trans h
  rw [resolve]
  split
  · rename_i st₁ u heq
    rw [heq] at hlook
    split_ifs
    · exact hlook
    · exact hlook
  · rename_i st₁ heq
    rw [heq] at hlook
    exact hlook
  · rename_i st₁ heq
    rw [heq] at hlook
    rw [if_pos (Option.isNone_iff_eq_none.mpr hlook)]
    exact hlook

/-- A store without a log never gets one. -/
theorem aof_call {call : Call} (h : st.inner.aof = none) (hsess : call.inSession = true)
    (hrun : call.run st = some st') : st'.inner.aof = none := by
  cases call with
  | shorten url al ttl env =>
    obtain ⟨p, hp, rfl⟩ := Option.map_eq_some_iff.mp hrun
    obtain ⟨pick, -, rfl⟩ := Option.map_eq_some_iff.mp hp
    cases pick with
    | none => exact h
    | some code => exact aof_flushIfFull (aof_push h _)
  | shortenMany urls ttl env =>
    obtain ⟨p, hp, rfl⟩ := Option.map_eq_some_iff.mp hrun
    obtain ⟨r, hr, rfl⟩ := Option.map_eq_some_iff.mp hp
    exact aof_flushIfFull (aof_pushRaw ((aof_shortenLoop hr).trans h) _)
  | resolve code env =>
    obtain rfl := Option.some.inj hrun
    exact aof_resolve h ..
  | update code url ttl hasTtl env =>
    obtain rfl := Option.some.inj hrun
    rw [update]
    split
    · rename_i hok
      obtain ⟨e, exp, -, -, rfl, -⟩ := updateIndex_eq_ok hok
      exact aof_push h _
    · exact h
  | remove code =>
    obtain rfl := Option.some.inj hrun
    rw [remove]
    split
    · rename_i hok
      obtain ⟨e, -, -, rfl, -⟩ := removeIndex_eq_ok hok
      exact aof_push h _
    · exact h
  | flush env =>
    obtain rfl := Option.some.inj hrun
    rw [flushLocked, if_pos (Option.isNone_iff_eq_none.mpr h)]
    exact h
  | pollTails env =>
    obtain rfl := Option.some.inj hrun
    rw [pollTails, if_pos (Option.isNone_iff_eq_none.mpr h)]
    exact h
  | compact env =>
    obtain rfl := Option.some.inj hrun
    rw [compact, if_pos (Option.isNone_iff_eq_none.mpr h)]
    exact h
  | reopen ord => contradiction

end Store

theorem Alone.call {call : Call} {st st' : Store} (hs : Alone st) (hsess : call.inSession = true)
    (h : call.run st = some st') : Alone st' := by
  rcases hs with haof | hs
  · exact .inl (Store.aof_call haof hsess h)
  · exact .inr (solo_call hs h)

/-- The alias of a request passes `code_ok`. -/
theorem aliasOf_eq_some {p : J} {al : Option Bytes} (h : aliasOf p = some al) :
    ∃ al' : Option Code, al = al'.map Subtype.val := by
  rw [aliasOf] at h
  split at h
  · split_ifs at h with hok
    obtain rfl := Option.some.inj h
    exact ⟨some ⟨_, hok⟩, rfl⟩
  · obtain rfl := Option.some.inj h
    exact ⟨none, rfl⟩

/-- What calls read from outside, of what requests do. -/
def Host.env (h : Host) : Env := { clk := h.clk, track := h.track, ord := h.ord, rng := h.rng }

section Serves

variable {h : Host} {st st' : Store} {r : Request} {a : Reply} (hserves : Serves h st r st' a)
include hserves

/-- A request makes one call of the store, or none. -/
theorem Serves.call : st' = st ∨ ∃ call : Call, call.inSession = true ∧ call.run st = some st' := by
  cases hserves with
  | answer => exact .inl rfl
  | redirect hget hcode hres =>
    exact .inr ⟨.resolve _ h.env, rfl, congrArg (fun p ↦ some (Prod.fst p)) hres⟩
  | miss hget hcode hres =>
    exact .inr ⟨.resolve _ h.env, rfl, congrArg (fun p ↦ some (Prod.fst p)) hres⟩
  | create hpost hpath hbody hurl hal httl hnew =>
    obtain ⟨al, rfl⟩ := aliasOf_eq_some hal
    exact .inr ⟨.shorten _ al _ h.env, rfl, congrArg (Option.map Prod.fst) hnew⟩
  | createMany hpost hpath hbody hfind hne hmax hurls hnew =>
    exact .inr ⟨.shortenMany _ _ h.env, rfl, congrArg (Option.map Prod.fst) hnew⟩
  | update => exact .inr ⟨.update _ _ _ _ h.env, rfl, rfl⟩
  | remove => exact .inr ⟨.remove _, rfl, rfl⟩

theorem Serves.alone (hs : Alone st) : Alone st' := by
  rcases hserves.call with rfl | ⟨call, hsess, hcall⟩
  · exact hs
  · exact hs.call hsess hcall

end Serves

/-! ## Runs of requests -/

/-- One request after another; undefined where one is not answered. -/
def serve (st : Store) (l : Request × Host) : Option Store :=
  (handle l.2 st l.1).toOption.map Prod.fst

theorem handle_of_toOption {h : Host} {st : Store} {r : Request} {p : Store × Reply}
    (hr : (handle h st r).toOption = some p) : handle h st r = .ok p := by
  cases heq : handle h st r with
  | error x =>
    rw [heq] at hr
    exact nomatch hr
  | ok q =>
    rw [heq] at hr
    rw [Option.some.inj hr]

theorem serves_of_serve {st st' : Store} {l : Request × Host} (h : serve st l = some st') :
    ∃ a, Serves l.2 st l.1 st' a := by
  obtain ⟨p, hp, rfl⟩ := Option.map_eq_some_iff.mp h
  exact ⟨p.2, serves_of_handle (handle_of_toOption hp)⟩

theorem alone_run {st st' : Store} {ls : List (Request × Host)} (hs : Alone st)
    (h : run serve st ls = some st') : Alone st' := by
  refine Transition.run_invariant (fun st l st' hs _ hstep ↦ ?_) hs
    (Transition.meets_of_forall (q := fun _ ↦ True) (fun _ _ ↦ trivial) st) h
  obtain ⟨a, hserves⟩ := serves_of_serve hstep
  exact hserves.alone hs

/-! ## Where links come from -/

/-- The ways in which a request leaves a link under a code. -/
inductive LinkFrom (h : Host) (st : Store) (r : Request) (c : Bytes) : LinkRow → Prop
  /-- It was there before. -/
  | kept {l : LinkRow} (hl : st.inner.links c = some l) : LinkFrom h st r c l
  /-- It was created. -/
  | created {p u ttl} (hpost : r.method = lit "POST") (hbody : jparse r.body = some p)
      (hurl : urlOf p = some u) (httl : ttlOf h p = some ttl) :
      LinkFrom h st r c (st.newLink u (h.clk 0) ttl)
  /-- It was created in bulk. -/
  | createdMany {js us u} (hurls : bulkUrls js = some us) (hu : u ∈ us) :
      LinkFrom h st r c (st.newLink u (h.clk 0) h.linkTtlMs)
  /-- It was changed. -/
  | updated {p u} {l : LinkRow} (hpatch : r.method = lit "PATCH") (hbody : jparse r.body = some p)
      (hurl : urlOf p = some u) (hl : st.inner.links c = some l) :
      LinkFrom h st r c { l with
        u, e := if (newTtl h p).isSome then expiry (h.clk 0) ((newTtl h p).getD 0) else l.e }

theorem Inner.Counts.links {s s' : Inner} (h : s.Counts s') : s'.links = s.links := by
  funext c
  rcases h c with heq | ⟨e, he, heq⟩
  · rw [Inner.links, Inner.links, heq]
  · rw [Inner.links, Inner.links, heq, he]
    rfl

theorem Inner.Adds.links {P : LinkRow → Prop} {s s' : Inner} (h : s.Adds P s') {c : Bytes}
    {l : LinkRow} (hl : s'.links c = some l) : s.links c = some l ∨ P l := by
  rw [Inner.links] at hl ⊢
  rcases h c with heq | ⟨-, e, he, hP⟩
  · exact .inl (heq ▸ hl)
  · rw [he] at hl
    obtain rfl := Option.some.inj hl
    exact .inr hP

/-- **Every link was there before, or was made by this request.** -/
theorem Serves.linkFrom {h : Host} {st st' : Store} {r : Request} {a : Reply} {c : Bytes}
    {l : LinkRow} (hserves : Serves h st r st' a) (hs : Alone st)
    (hl : st'.inner.links c = some l) : LinkFrom h st r c l := by
  cases hserves with
  | answer => exact .kept hl
  | redirect hget hcode hres => exact .kept ((hs.resolve_cases hres).1.links ▸ hl)
  | miss hget hcode hres => exact .kept ((hs.resolve_cases hres).1.links ▸ hl)
  | create hpost hpath hbody hurl hal httl hnew =>
    rcases (Store.adds_shorten hnew).links hl with hl | rfl
    · exact .kept hl
    · exact .created hpost hbody hurl httl
  | createMany hpost hpath hbody hlist hne hmax hurls hnew =>
    rcases (Store.adds_shortenMany hnew).links hl with hl | ⟨u, hu, rfl⟩
    · exact .kept hl
    · exact .createdMany hurls hu
  | @update code p u hmethod hpath hadmin hcode hbody hurl =>
    rcases st.update_cases code u ((newTtl h p).getD 0) (newTtl h p).isSome h.clk with
      ⟨m, -, heq⟩ | ⟨e, he, -, heq⟩
    · rw [heq] at hl
      exact .kept hl
    · rw [Inner.links, heq] at hl
      by_cases hc : c = code
      · have hold : st.inner.links c = some e.link := by
          rw [Inner.links, hc, he]
          rfl
        rw [if_pos hc] at hl
        obtain rfl := Option.some.inj hl
        exact .updated hmethod hbody hurl hold
      · rw [if_neg hc] at hl
        exact .kept hl
  | @remove code hmethod hpath hadmin hcode =>
    rcases st.remove_cases code with ⟨m, -, heq⟩ | ⟨-, -, heq⟩
    · rw [heq] at hl
      exact .kept hl
    · rw [Inner.links, heq] at hl
      split_ifs at hl with hc
      · contradiction
      · exact .kept hl

/-- A property that new and changed links have, and old ones keep, holds of all links in a run. -/
theorem forall_links_run {P : LinkRow → Prop} {ok : Request × Host → Prop} {st st' : Store}
    {ls : List (Request × Host)} (hs : Alone st) (h₀ : ∀ c l, st.inner.links c = some l → P l)
    (hstep : ∀ {st q c l}, (∀ c l, st.inner.links c = some l → P l) → ok q →
      LinkFrom q.2 st q.1 c l → P l)
    (hok : ∀ q ∈ ls, ok q) (hrun : run serve st ls = some st') :
    ∀ c l, st'.inner.links c = some l → P l := by
  refine (Transition.run_invariant (P := fun st : Store ↦
    Alone st ∧ ∀ c l, st.inner.links c = some l → P l) ?_ ⟨hs, h₀⟩
    (Transition.meets_of_forall hok st) hrun).2
  rintro st q st' ⟨hs, hall⟩ hq hserve
  obtain ⟨a, hserves⟩ := serves_of_serve hserve
  exact ⟨hserves.alone hs, fun c l hl ↦ hstep hall hq (hserves.linkFrom hs hl)⟩

/-- A store that is opened empty, in memory or on a directory of its own. -/
def OpenedEmpty (st : Store) : Prop := st = openMemory ∨ ∃ inst, st = openEmpty inst

theorem OpenedEmpty.alone {st : Store} (h : OpenedEmpty st) : Alone st := by
  rcases h with rfl | ⟨inst, rfl⟩
  · exact .inl rfl
  · exact .inr (solo_openEmpty inst)

theorem OpenedEmpty.links {st : Store} (h : OpenedEmpty st) (c : Bytes) :
    st.inner.links c = none := by
  rcases h with rfl | ⟨inst, rfl⟩
  · rw [Inner.links, Inner.find, openMemory, Shards.find_empty]
    rfl
  · exact congrFun ((soloDir_empty inst).links_openStore _) c

/-! ## Who can change a link -/

/-- The request was made with the administrator's token, to change or remove a code, and says that
this was done. -/
def Authorised (h : Host) (r : Request) (a : Reply) (c : Bytes) : Prop :=
  (r.method = lit "PATCH" ∨ r.method = lit "DELETE") ∧ r.pathname = lit "/api/links/" ++ c ∧
    (∃ want, h.adminToken = some want ∧ want ≠ [] ∧ r.token = want) ∧
    (a.status = 200 ∨ a.status = 204)

theorem adminOk_iff {h : Host} {token : Bytes} : h.adminOk token = true ↔
    ∃ want, h.adminToken = some want ∧ want ≠ [] ∧ token = want := by
  rw [Host.adminOk]
  split
  · simp_all
  · simp_all
  · rename_i want hne hwant
    simp only [decide_eq_true_eq]
    constructor
    · rintro rfl
      exact ⟨token, hwant, hne, rfl⟩
    · rintro ⟨want', hwant', -, rfl⟩
      exact Option.some.inj (hwant'.symm.trans hwant)

/-- What can become of a link: nothing, a hit, or what an administrator asked for. -/
theorem Serves.find {h : Host} {st st' : Store} {r : Request} {a : Reply} {c : Bytes} {e : Entry}
    (hserves : Serves h st r st' a) (hs : Alone st) (hfind : st.inner.find c = some e) :
    st'.inner.find c = some e ∨ st'.inner.find c = some (Store.bumped e) ∨
      Authorised h r a c := by
  have hcounts : st.inner.Counts st'.inner →
      st'.inner.find c = some e ∨ st'.inner.find c = some (Store.bumped e) := by
    intro hc
    rcases hc c with heq | ⟨e', he', heq⟩
    · exact .inl (heq.trans hfind)
    · obtain rfl := Option.some.inj (hfind.symm.trans he')
      exact .inr heq
  have hadds : ∀ {P}, st.inner.Adds P st'.inner → st'.inner.find c = some e := by
    intro P ha
    rcases ha c with heq | ⟨hnone, -⟩
    · exact heq.trans hfind
    · exact nomatch hnone.symm.trans hfind
  cases hserves with
  | answer => exact .inl hfind
  | redirect hget hcode hres => exact (hcounts (hs.resolve_cases hres).1).imp_right .inl
  | miss hget hcode hres => exact (hcounts (hs.resolve_cases hres).1).imp_right .inl
  | create hpost hpath hbody hurl hal httl hnew => exact .inl (hadds (Store.adds_shorten hnew))
  | createMany hpost hpath hbody hlist hne hmax hurls hnew =>
    exact .inl (hadds (Store.adds_shortenMany hnew))
  | @update code p u hmethod hpath hadmin hcode hbody hurl =>
    rcases st.update_cases code u ((newTtl h p).getD 0) (newTtl h p).isSome h.clk with
      ⟨m, -, heq⟩ | ⟨e', -, hok, heq⟩
    · rw [heq]
      exact .inl hfind
    · by_cases hc : c = code
      · subst hc
        refine .inr (.inr ⟨.inl hmethod, hpath, adminOk_iff.mp hadmin, ?_⟩)
        rw [hok]
        exact .inl rfl
      · rw [heq, if_neg hc]
        exact .inl hfind
  | @remove code hmethod hpath hadmin hcode =>
    rcases st.remove_cases code with ⟨m, -, heq⟩ | ⟨-, hok, heq⟩
    · rw [heq]
      exact .inl hfind
    · by_cases hc : c = code
      · subst hc
        refine .inr (.inr ⟨.inr hmethod, hpath, adminOk_iff.mp hadmin, ?_⟩)
        rw [hok]
        exact .inr rfl
      · rw [heq, if_neg hc]
        exact .inl hfind

/-- A store as it is opened, in memory or on a directory of its own, after any calls. -/
def Opened (st : Store) : Prop :=
  st = openMemory ∨ ∃ inst calls, run Call.run (openEmpty inst) calls = some st

theorem Opened.alone {st : Store} (h : Opened st) : Alone st := by
  rcases h with rfl | ⟨inst, calls, hrun⟩
  · exact .inl rfl
  · exact .inr (solo_run hrun)

/-- A link under the alias `a`. -/
def postA : Request where
  method := lit "POST"
  path := lit "/api/shorten"
  body := lit "\x7b\"url\":\"http://h/\",\"alias\":\"a\"\x7d"

/-- Its removal. -/
def deleteA : Request where
  method := lit "DELETE"
  path := lit "/api/links/a?x"
  token := lit "t"

/-- A host whose administrator's token is `t`. -/
def adminHost : Host := { adminToken := some (lit "t") }

end Shrt
