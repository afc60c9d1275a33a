import Shrt.App.Links
import Shrt.Cluster.Convergence
import Shrt.Cluster.Misses

/-!
# Codes that nobody asks for

An instance begins the codes it generates with the letter of its id, so that instances can give out
codes without talking to each other. What is that worth?

A code that nobody asks for as an alias is written by the instance of its letter alone
(`Followed.node_eq`). For such a code nobody has to take turns: the instances agree about it once
they have flushed and polled, whatever they did at the same time before (`unasked_converge`). An
instance that does not know it yet finds it as soon as it is in the log of its letter
(`resolve_generated`). And it is given out once in each of its lives: it has been given out as often
as it was removed, and once more exactly when it has a link now (`given_once_a_life`).
-/

namespace Shrt

open LastWrite (Write Silent replay)
open Transition (run Meets Reaches ghost withGhost)

/-! ## The letter -/

private theorem alphaIdx_letter : ∀ j : InstanceId, alphaIdx (ALPHABET.getD j 0) = some j.val := by
  decide +kernel

theorem genCode_inst_inj {i j : InstanceId} {r r' : Draw} (h : genCode i r = genCode j r') :
    i = j := by
  have hidx := congrArg alphaIdx (List.cons.inj h).1
  rw [alphaIdx_letter, alphaIdx_letter] at hidx
  exact Fin.ext (Option.some.inj hidx)

/-- Only one instance can generate a code. -/
theorem exists_home (c : Bytes) : ∃ j, ∀ i r, c = genCode i r → i = j := by
  by_cases h : ∃ j r, c = genCode j r
  · obtain ⟨j, r, rfl⟩ := h
    exact ⟨j, fun i r' hi ↦ (genCode_inst_inj hi).symm⟩
  · exact ⟨0, fun i r hi ↦ absurd ⟨i, r, hi⟩ h⟩

theorem freshCode_eq_genCode {sh : Shards} {inst : InstanceId} {rng rng' : List Draw} {c : Bytes}
    (h : freshCode sh inst rng = some (c, rng')) : ∃ r, c = genCode inst r := by
  induction rng with
  | nil => exact absurd h (by simp [freshCode])
  | cons r rs ih =>
    rw [freshCode] at h
    split_ifs at h with htaken
    · exact ih h
    · obtain ⟨rfl, -⟩ := Prod.mk.inj (Option.some.inj h)
      exact ⟨r, rfl⟩

/-- A miss looks into the log of the letter. -/
theorem sought_genCode {k j : InstanceId} (hkj : k ≠ j) (r : Draw) :
    sought k (genCode j r) = some j := by
  rw [sought, genCode, List.head?_cons, Option.bind_some, alphaIdx_letter, Option.bind_some,
    dif_pos ⟨fun h ↦ hkj (Fin.ext h.symm), j.2⟩]

/-- It does so at once, however short ago the last poll was. -/
theorem tailMissed_of_sought {ord : Order} {d : Dir} {s : Inner} {code : Bytes} {clk : Clock}
    {i : InstanceId} (haof : s.aof.isNone = false) (h : sought s.inst code = some i) :
    (tailMissed ord d s code clk).links = (readTail ord d s (logName i)).links := by
  obtain ⟨aof, haof⟩ := Option.isSome_iff_exists.mp (Option.isNone_eq_false_iff.mp haof)
  cases code with
  | nil => contradiction
  | cons b rest =>
    rw [sought, List.head?_cons, Option.bind_some] at h
    obtain ⟨owner, howner, hi⟩ := Option.bind_eq_some_iff.mp h
    obtain ⟨hown, heq⟩ := Option.dite_none_right_eq_some.mp hi
    obtain rfl := Option.some.inj heq
    unfold tailMissed
    simp only [haof, howner]
    rw [dif_pos hown]
    rfl

/-! ## What calls do to the codes they change -/

/-- Whether a code is taken, as a number. -/
def Store.taken (st : Store) (c : Bytes) : ℕ := (st.inner.links c).isSome.toNat

/-- Whether a call creates links. -/
def Call.makes : Call → Bool
  | shorten .. | shortenMany .. => true
  | _ => false

/-- Whether a call removes a link. -/
def Call.unmakes : Call → Bool
  | remove _ => true
  | _ => false

/-- The alias that a call asks for. -/
def Call.asks : Call → Option Bytes
  | shorten _ al _ _ => al.map Subtype.val
  | _ => none

namespace Store

variable {st : Store} {c : Bytes}

theorem taken_of_find_none (h : st.inner.find c = none) : st.taken c = 0 := by
  rw [taken, Inner.links, h]
  rfl

theorem taken_of_find_some {e : Entry} (h : st.inner.find c = some e) : st.taken c = 1 := by
  rw [taken, Inner.links, h]
  rfl

/-- A code that was free has a link. -/
theorem taken_bind {code : Bytes} (hfree : st.inner.find code = none) (url : Bytes)
    (now exp : Int64)
    (c : Bytes) : (st.bind code url now exp).taken c = [code].count c + st.taken c := by
  rw [taken, bind, mapInner, Inner.links_put, Function.update_apply, List.count_singleton]
  split_ifs with hc hb hb
  · rw [hc, taken_of_find_none hfree]
    rfl
  · exact absurd (beq_iff_eq.mpr hc.symm) hb
  · exact absurd (beq_iff_eq.mp hb).symm hc
  · rw [Nat.zero_add, taken]

/-- The loop of `shorten_many` counts up the codes it binds, and generates them. -/
theorem taken_shortenLoop {now exp : Int64} {urls : List Bytes} :
    ∀ {st : Store} {rng : List Draw} {lines : Bytes} {codes : List Bytes}
      {r : Store × Bytes × List Bytes}, st.shortenLoop now exp urls rng lines codes = some r →
      codes.count c + r.1.taken c = r.2.2.count c + st.taken c ∧
      (c ∈ r.2.2 → c ∈ codes ∨ ∃ r, c = genCode st.inner.inst r) := by
  induction urls with
  | nil =>
    intro st rng lines codes r h
    rw [← Option.some.inj h]
    exact ⟨rfl, .inl⟩
  | cons u us ih =>
    intro st rng lines codes r h
    rw [shortenLoop] at h
    cases hf : freshCode st.inner.shards st.inner.inst rng with
    | none =>
      rw [hf] at h
      contradiction
    | some p =>
      rw [hf] at h
      obtain ⟨hcount, hmem⟩ := ih h
      rw [taken_bind (freshCode_spec hf).1, List.count_append] at hcount
      refine ⟨by omega, fun hc ↦ ?_⟩
      rcases hmem hc with hc | hgen
      · rcases List.mem_append.mp hc with hc | hc
        · exact .inl hc
        · obtain ⟨r, hr⟩ := freshCode_eq_genCode hf
          exact .inr ⟨r, (List.mem_singleton.mp hc).trans hr⟩
      · exact .inr hgen

theorem taken_flushIfFull (st : Store) (c : Bytes) : st.flushIfFull.taken c = st.taken c := by
  rw [taken, taken, Inner.links, Inner.links, Inner.find, Inner.find, shards_flushIfFull]

/-- `shorten`: the code it returns was free. -/
theorem taken_shorten {url : Bytes} {al : Option Code} {ttl : Int64} {clk : Clock}
    {rng : List Draw} {r : Store × Option Bytes}
    (h : st.shorten url (al.map Subtype.val) ttl clk rng = some r) :
    r.1.taken c = r.2.toList.count c + st.taken c := by
  obtain ⟨pick, hpick, rfl⟩ := Option.map_eq_some_iff.mp h
  cases pick with
  | none => exact (Nat.zero_add _).symm
  | some code =>
    refine (taken_flushIfFull _ c).trans ?_
    exact taken_bind (pickCode_spec hpick).1 url (clk 0) (expiry (clk 0) ttl) c

/-- `shorten_many`: the codes it returns were free, and no two are the same. -/
theorem taken_shortenMany {urls : List Bytes} {ttl : Int64} {clk : Clock} {rng : List Draw}
    {r : Store × List Bytes} (h : st.shortenMany urls ttl clk rng = some r) :
    r.1.taken c = r.2.count c + st.taken c := by
  obtain ⟨p, hp, rfl⟩ := Option.map_eq_some_iff.mp h
  have hloop := (taken_shortenLoop (c := c) hp).1
  rw [List.count_nil, Nat.zero_add] at hloop
  exact (taken_flushIfFull _ c).trans hloop

theorem taken_update {code url : Bytes} {ttl : Int64} {hasTtl : Bool} {clk : Clock} :
    (st.update code url ttl hasTtl clk).1.taken c = st.taken c := by
  rcases st.update_cases code url ttl hasTtl clk with ⟨m, -, heq⟩ | ⟨e, hfind, -, heq⟩
  · rw [heq]
  · rw [taken, Inner.links, heq]
    by_cases hc : c = code
    · rw [if_pos hc, hc, taken_of_find_some hfind]
      rfl
    · rw [if_neg hc]
      rfl

/-- `remove`: the code it removes was taken. -/
theorem taken_remove {code : Bytes} :
    (if (st.remove code).2 = .ok then [code] else []).count c + (st.remove code).1.taken c
      = st.taken c := by
  rcases st.remove_cases code with ⟨m, hm, heq⟩ | ⟨hfind, hok, heq⟩
  · rw [heq, if_neg hm, List.count_nil, Nat.zero_add]
  · rw [if_pos hok, List.count_singleton, taken, Inner.links, heq]
    obtain ⟨e, he⟩ := Option.isSome_iff_exists.mp hfind
    split_ifs with hb hc hc
    · rw [hc, taken_of_find_some he]
      rfl
    · exact absurd (beq_iff_eq.mp hb).symm hc
    · exact absurd (beq_iff_eq.mpr hc.symm) hb
    · exact Nat.zero_add _

/-- An update and a removal of a code are refused alike. -/
theorem update_snd {code url : Bytes} {ttl : Int64} {hasTtl : Bool} {clk : Clock} :
    (st.update code url ttl hasTtl clk).2 = (st.remove code).2 := by
  rw [update, updateIndex, remove, removeIndex]
  cases st.inner.find code with
  | none => rfl
  | some e =>
    simp only
    split_ifs <;> rfl

/-- Only own links are removed. -/
theorem own_of_remove {code : Bytes} (h : (st.remove code).2 = .ok) :
    ∃ v, st.inner.links code = some v ∧ v.i = instInt st.inner.inst := by
  rw [remove, removeIndex] at h
  cases hf : st.inner.find code with
  | none =>
    rw [hf] at h
    contradiction
  | some e =>
    rw [hf] at h
    by_cases hi : e.i = instInt st.inner.inst
    · exact ⟨e.link, by rw [Inner.links, hf, Option.map_some], hi⟩
    · simp only [if_pos hi] at h
      contradiction

end Store

namespace Call

variable {st st' : Store} {c : Bytes} {call : Call}

/-- **What a call does to the codes it changes:** it binds free ones, or unbinds one that is
taken. -/
theorem taken_balance (hc : c ∈ call.codes st) (hrun : call.run st = some st') :
    (if call.makes then call.codes st else []).count c + st.taken c
      = (if call.unmakes then call.codes st else []).count c + st'.taken c := by
  cases call with
  | shorten url al ttl env =>
    obtain ⟨r, hr, rfl⟩ := Option.map_eq_some_iff.mp hrun
    simp only [makes, unmakes, codes, hr, if_true, Bool.false_eq_true, if_false]
    rw [List.count_nil, Nat.zero_add]
    exact (Store.taken_shorten hr).symm
  | shortenMany urls ttl env =>
    obtain ⟨r, hr, rfl⟩ := Option.map_eq_some_iff.mp hrun
    simp only [makes, unmakes, codes, hr, if_true, Bool.false_eq_true, if_false]
    rw [List.count_nil, Nat.zero_add]
    exact (Store.taken_shortenMany hr).symm
  | update code url ttl hasTtl env =>
    obtain rfl := Option.some.inj hrun
    exact congrArg _ Store.taken_update.symm
  | remove code =>
    obtain rfl := Option.some.inj hrun
    refine (Nat.zero_add _).trans Store.taken_remove.symm
  | resolve | flush | pollTails | compact | reopen => exact absurd hc List.not_mem_nil

/-- A call changes a code that it was asked for, that it has generated, or whose link is its own. -/
theorem mem_codes (hc : c ∈ call.codes st) : call.asks = some c ∨
    (∃ r, c = genCode st.inner.inst r) ∨
    ∃ v, st.inner.links c = some v ∧ v.i = instInt st.inner.inst := by
  cases call with
  | shorten url al ttl env =>
    obtain ⟨r, hr, hc⟩ := Option.bind_eq_some_iff.mp (Option.mem_toList.mp hc)
    obtain ⟨pick, hpick, rfl⟩ := Option.map_eq_some_iff.mp hr
    cases pick with
    | none => contradiction
    | some code =>
      obtain rfl : code = c := Option.some.inj hc
      cases al with
      | none =>
        obtain ⟨p, hp, hcode⟩ := Option.map_eq_some_iff.mp hpick
        obtain rfl : p.1 = code := Option.some.inj hcode
        exact .inr (.inl (freshCode_eq_genCode hp))
      | some al =>
        rw [Option.map_some, Store.pickCode, Option.some.injEq] at hpick
        split_ifs at hpick
        exact .inl hpick
  | shortenMany urls ttl env =>
    rw [codes] at hc
    cases hr : st.shortenMany urls ttl env.clk env.rng with
    | none =>
      rw [hr] at hc
      exact absurd hc List.not_mem_nil
    | some r =>
      rw [hr] at hc
      obtain ⟨p, hp, rfl⟩ := Option.map_eq_some_iff.mp hr
      exact .inr (.inl (((Store.taken_shortenLoop hp).2 hc).resolve_left List.not_mem_nil))
  | update code url ttl hasTtl env =>
    rw [codes] at hc
    split_ifs at hc with hok
    · rw [List.mem_singleton.mp hc]
      exact .inr (.inr (Store.own_of_remove (Store.update_snd ▸ hok)))
    · exact absurd hc List.not_mem_nil
  | remove code =>
    rw [codes] at hc
    split_ifs at hc with hok
    · rw [List.mem_singleton.mp hc]
      exact .inr (.inr (Store.own_of_remove hok))
    · exact absurd hc List.not_mem_nil
  | resolve | flush | pollTails | compact | reopen => exact absurd hc List.not_mem_nil

end Call

namespace Cluster

/-- The alias that a step asks for. -/
def Label.asks : Label → Option Bytes
  | call _ c => c.asks
  | _ => none

/-- The codes that a step gives out. -/
def created (s : Cluster) : Label → List Bytes
  | .call k c => if c.makes then s.codes (.call k c) else []
  | _ => []

/-- The codes that a step removes. -/
def removed (s : Cluster) : Label → List Bytes
  | .call k c => if c.unmakes then s.codes (.call k c) else []
  | _ => []

variable {s s' t : Cluster} {l : Label} {i j k : InstanceId} {c : Bytes}

/-! ## One writer -/

/-- Nobody but the instance of its letter changes a code that is not asked for. -/
theorem Followed.node_eq (h : Followed j c s) (hhome : ∀ i r, c = genCode i r → i = j)
    (hask : l.asks ≠ some c) (hc : c ∈ s.codes l) : l.node = j := by
  cases l with
  | call k call =>
    cases hk : s.nodes k with
    | none =>
      rw [codes, hk] at hc
      exact absurd hc List.not_mem_nil
    | some inner =>
      rw [codes, hk] at hc
      have hinst : inner.inst = k := (h.formed.member hk).inst
      rcases Call.mem_codes hc with hasked | ⟨r, hr⟩ | ⟨v, hv, hi⟩
      · exact absurd hasked hask
      · exact hhome k r (hinst ▸ hr)
      · have hview : s.abs.view k c = some v := (congrFun (links_eq hk) c).trans hv
        have howns : Owns k v := hinst ▸ hi
        exact owns_unique k j v howns (h.marked.owner k v hview)
  | boot | glimpse => exact absurd hc List.not_mem_nil

theorem Followed.of_unasked (h : Followed j c s) (hhome : ∀ i r, c = genCode i r → i = j)
    (hno : l.compacts = false) (hask : l.asks ≠ some c) (hstep : s.step l = some s') :
    Followed j c s' :=
  (h.of_step hno (h.node_eq hhome hask) hstep).1

theorem meets_unasked {ls : List Label} (hno : ∀ l ∈ ls, l.compacts = false)
    (hask : ∀ l ∈ ls, l.asks ≠ some c) :
    Meets step (fun _ l ↦ l.compacts = false ∧ l.asks ≠ some c) empty ls :=
  Transition.meets_of_forall (fun l hl ↦ ⟨hno l hl, hask l hl⟩) empty

/-- No one has to wait for a turn. -/
theorem Followed.takesTurn (h : Followed j c s) (hhome : ∀ i r, c = genCode i r → i = j)
    (hask : l.asks ≠ some c) : TakesTurn c s l := by
  have hother : ∀ i, ¬ Silent c (writesOf (s.log i) ++ writesOf (s.buf i)) → i = j := by
    intro i hi
    by_contra hij
    obtain ⟨-, hlog, hbuf, -⟩ := h.traced.silent i hij
    exact hi (LastWrite.silent_append.mpr ⟨hlog, hbuf⟩)
  refine ⟨fun hc _ i hi ↦ ?_, fun _ i k hi hk ↦ (hother i hi).trans (hother k hk).symm⟩
  rw [h.node_eq hhome hask hc] at hi
  obtain ⟨-, -, hbuf, hunread⟩ := h.traced.silent i hi
  exact ⟨hbuf, fun k _ _ ↦ hunread k⟩

/-- **Nobody has to take turns.** Take any run without compaction in which nobody asks for a code as
an alias. When after it only flushes and polls happen, first among them a flush by every instance
and then a poll by every instance, all instances have the same link for the code, or none. -/
theorem unasked_converge {ls ms ms' : List Label} (hrun : run step empty ls = some s)
    (hno : ∀ l ∈ ls, l.compacts = false) (hask : ∀ l ∈ ls, l.asks ≠ some c)
    (hms : ∀ l ∈ ms ++ ms', l.settles = true) (ht : run step s (ms ++ ms') = some t)
    (hflush : ∀ i, (t.nodes i).isSome = true → ∃ env, .call i (.flush env) ∈ ms)
    (hpoll : ∀ k, (t.nodes k).isSome = true → ∃ env, .call k (.pollTails env) ∈ ms')
    (hi : (t.nodes i).isSome = true) (hk : (t.nodes k).isSome = true) :
    t.links i c = t.links k c := by
  obtain ⟨j, hhome⟩ := exists_home c
  have hturn : Meets step (fun s l ↦ l.compacts = false ∧ TakesTurn c s l) empty ls :=
    (meets_unasked hno hask).imp_of_invariant
      (fun _ _ _ h hok hstep ↦ h.of_unasked hhome hok.1 hok.2 hstep)
      (fun _ _ h hok ↦ ⟨hok.1, h.takesTurn hhome hok.2⟩) followed_empty
  have h : Shared c s := Transition.run_invariant
    (fun _ _ _ h hok hstep ↦ h.of_step hok.1 hok.2 hstep) shared_empty hturn hrun
  obtain ⟨h', hdelivered⟩ := h.delivered hms ht hflush hpoll
  exact h'.agreeing.view_eq hdelivered hi hk

/-- **A generated code is found as soon as it is in the log.** Take any run without compaction in
which nobody asks for the code as an alias. When the last line about it in the log of its letter is
a row that has not expired, any other instance that does not know the code resolves it to the url of
the row, however short ago it polled. -/
theorem resolve_generated {ls : List Label} {r : Draw} {inner : Inner}
    (hrun : run step empty ls = some s) (hno : ∀ l ∈ ls, l.compacts = false)
    (hask : ∀ l ∈ ls, l.asks ≠ some (genCode j r)) (hkj : k ≠ j) (hk : s.nodes k = some inner)
    (hunknown : s.links k (genCode j r) = none) {v : LinkRow}
    (hrow : LastWrite.lastFor (genCode j r) (writesOf (s.log j)) = some (.put (genCode j r) v))
    {clk : Clock} (hlive : v.live (clk 3) = true) (track : Bool) (ord : Order) :
    ((⟨s.dir, inner⟩ : Store).resolve (genCode j r) clk track ord).2 = some v.u := by
  have h : Followed j (genCode j r) s := Transition.run_invariant (fun _ _ _ h hok hstep ↦
    h.of_unasked (fun i r' hi ↦ (genCode_inst_inj hi).symm) hok.1 hok.2 hstep)
    followed_empty (meets_unasked hno hask) hrun
  have hsought := sought_genCode hkj r
  generalize genCode j r = c at hunknown hrow h hsought ⊢
  have hm := h.formed.member hk
  have hinst : inner.inst = k := hm.inst
  have hlog : replay (fun _ ↦ none) (s.abs.snap j ++ s.abs.log j) c = some v := by
    have hlast : LastWrite.lastFor c (s.abs.log j) = some (.put c v) := hrow
    rw [LastWrite.replay_append, LastWrite.replay_apply, hlast]
    rfl
  -- Once nothing is left to read of the log, the link is the log's.
  have hread : (readTail ord s.dir inner (logName j)).links c = some v := by
    obtain ⟨-, -, ⟨n, habs⟩, hunread, -⟩ := sim_read h.formed hk (sees_dir s inner) ord hkj.symm
    have hreach : Reaches actStep (Reading k) s.abs
        (s.set k ⟨s.dir, readTail ord s.dir inner (logName j)⟩).abs := by
      rw [habs]
      exact Reaches.single rfl ⟨alive_of_node hk, j, n, hkj.symm, rfl⟩
    have hbehind := (sole_reading hreach h.traced.toSole).behind k hkj
      (alive_of_node (nodes_set_self s k _))
    have hnone : (s.set k ⟨s.dir, readTail ord s.dir inner (logName j)⟩).abs.unread k j = [] :=
      (congrArg writesOf (hunread rfl)).trans writesOf_nil
    rw [hnone] at hbehind
    exact (congrFun (links_eq (nodes_set_self s k _)).symm c).trans (hbehind.trans hlog)
  have hlinks : s.links k c = inner.links c := congrFun (links_eq hk) c
  rw [Store.resolve_snd hm.aof_isNone, ← hlinks, hunknown]
  simp only
  rw [tailMissed_of_sought hm.aof_isNone (hinst.symm ▸ hsought), hread, Option.bind_some,
    if_pos hlive]

/-! ## Lives of a code -/

/-- Whether an instance has a link for a code, as a number. -/
def taken (s : Cluster) (j : InstanceId) (c : Bytes) : ℕ := (s.links j c).isSome.toNat

/-- A step that does not change the code leaves the writer's link. -/
theorem Followed.links_of_quiet (h : Followed j c s) (hno : l.compacts = false)
    (hc : c ∉ s.codes l) (hstep : s.step l = some s') : s'.links j c = s.links j c := by
  obtain ⟨h', -⟩ := h.of_step hno (fun hmem ↦ absurd hmem hc) hstep
  obtain ⟨-, hreach, -⟩ := reaches_step h.formed (Label.io_of_not_compacts hno)
    (h.within.steady l) hstep
  -- The writer's link is what the entries of its log and buffer are worth.
  have hworth := hreach.invariant (P := fun σ ↦
    replay (fun _ ↦ none) (σ.snap j ++ σ.log j ++ σ.buffer j) c
      = replay (fun _ ↦ none) (s.abs.snap j ++ s.abs.log j ++ s.abs.buffer j) c)
    (fun σ a σ' hσ ha hact ↦ ?_) rfl
  · exact h'.traced.own.symm.trans (hworth.trans h.traced.own)
  · obtain rfl := Option.some.inj hact
    refine Eq.trans ?_ hσ
    cases a with
    | push m ws =>
      obtain ⟨-, -, hkeys⟩ := ha.2
      have hsilent : Silent c ws := fun w hw hkey ↦ hc (hkey ▸ hkeys w hw)
      simp only [Replication.act, Function.update_apply]
      split_ifs with hjm
      · rw [hjm, ← List.append_assoc, LastWrite.replay_append, hsilent.replay]
      · rfl
    | flush m =>
      simp only [Replication.act, Function.update_apply]
      split_ifs with hjm
      · rw [hjm, List.append_nil, List.append_assoc]
      · rfl
    | compact m rows => exact absurd (ha.compacts hno) Bool.noConfusion
    | read | join => rfl

theorem mem_of_mem_ite {b : Bool} {cs : List Bytes} (h : c ∈ if b then cs else []) : c ∈ cs := by
  split_ifs at h
  · exact h
  · exact absurd h List.not_mem_nil

theorem mem_codes_of (h : c ∈ s.created l ∨ c ∈ s.removed l) : c ∈ s.codes l := by
  cases l with
  | call k call => exact h.elim mem_of_mem_ite mem_of_mem_ite
  | boot | glimpse => exact absurd (h.elim id id) List.not_mem_nil

/-- One step: a code is given out when it is free, and removed when it is taken. -/
theorem Followed.taken_step (h : Followed j c s) (hno : l.compacts = false)
    (hsole : c ∈ s.codes l → l.node = j) (hstep : s.step l = some s') :
    (s.created l).count c + s.taken j c = (s.removed l).count c + s'.taken j c := by
  by_cases hc : c ∈ s.codes l
  · cases l with
    | call k call =>
      obtain rfl : k = j := hsole hc
      obtain ⟨inner, st', hk, -, hrun, rfl⟩ := step_call hstep
      have hcodes : s.codes (.call k call) = call.codes ⟨s.dir, inner⟩ := by
        rw [codes, hk]
        rfl
      rw [hcodes] at hc
      have hbalance := Call.taken_balance hc hrun
      have hbefore : s.taken k c = (⟨s.dir, inner⟩ : Store).taken c := by
        rw [taken, links_eq hk]
        rfl
      have hafter : (s.set k st').taken k c = st'.taken c := by
        rw [taken, links_set, if_pos rfl]
        rfl
      rw [created, removed, hcodes, hbefore, hafter]
      exact hbalance
    | boot | glimpse => exact absurd hc List.not_mem_nil
  · have hcreated : c ∉ s.created l := fun hmem ↦ hc (mem_codes_of (.inl hmem))
    have hremoved : c ∉ s.removed l := fun hmem ↦ hc (mem_codes_of (.inr hmem))
    rw [List.count_eq_zero_of_not_mem hcreated, List.count_eq_zero_of_not_mem hremoved, taken,
      taken, h.links_of_quiet hno hc hstep]

/-- The codes given out in a run. -/
def givenOut (ls : List Label) : List Bytes := ghost step (fun g s l ↦ g ++ s.created l) [] empty ls

/-- The codes removed in a run. -/
def takenBack (ls : List Label) : List Bytes :=
  ghost step (fun g s l ↦ g ++ s.removed l) [] empty ls

/-- **A generated code is given out once in each of its lives.** In any run without compaction in
which nobody asks for it as an alias, it has been given out, by whichever instance, as often as it
has been removed, and once more when it has a link with the instance of its letter. -/
theorem given_once_a_life {ls : List Label} {r : Draw} (hrun : run step empty ls = some s)
    (hno : ∀ l ∈ ls, l.compacts = false) (hask : ∀ l ∈ ls, l.asks ≠ some (genCode j r)) :
    (givenOut ls).count (genCode j r)
      = (takenBack ls).count (genCode j r) + (s.links j (genCode j r)).isSome.toNat := by
  have hhome : ∀ i r', genCode j r = genCode i r' → i = j :=
    fun i r' hi ↦ (genCode_inst_inj hi).symm
  generalize genCode j r = c at hask hhome ⊢
  obtain ⟨upd, hupd⟩ : ∃ upd : List Bytes × List Bytes → Cluster → Label → List Bytes × List Bytes,
      upd = fun g s l ↦ (g.1 ++ s.created l, g.2 ++ s.removed l) := ⟨_, rfl⟩
  have hghost : run (withGhost step upd) (empty, ([], [])) ls
      = some (s, (givenOut ls, takenBack ls)) := by
    rw [Transition.run_withGhost hrun, hupd]
    exact congrArg (fun g ↦ some (s, g))
      (Transition.ghost_prod (fun g (s : Cluster) l ↦ g ++ s.created l)
        fun g (s : Cluster) l ↦ g ++ s.removed l)
  refine (Transition.run_invariant (P := fun p : Cluster × List Bytes × List Bytes ↦
    Followed j c p.1 ∧ p.2.1.count c = p.2.2.count c + p.1.taken j c) ?_ ⟨followed_empty, rfl⟩
    (Transition.meets_withGhost (meets_unasked hno hask)) hghost).2
  rintro ⟨s, given, back⟩ l ⟨s', given', back'⟩ ⟨h, hcount⟩ ⟨hl, hunasked⟩ hstep
  obtain ⟨hstep, heq⟩ := Transition.withGhost_eq_some.mp hstep
  rw [hupd] at heq
  obtain ⟨rfl, rfl⟩ := Prod.mk.inj heq
  have hone : (s.created l).count c + s.taken j c = (s.removed l).count c + s'.taken j c :=
    h.taken_step hl (h.node_eq hhome hunasked) hstep
  refine ⟨h.of_unasked hhome hl hunasked hstep, ?_⟩
  simp only [List.count_append] at hcount ⊢
  omega

/-- Two instances with the same luck, each of which generates a code; one removes it, and generates
it again. -/
def sameLuck : List Label :=
  [.boot 0 fun _ ↦ 0, .boot 1 fun _ ↦ 0,
    .call 0 (.shorten (lit "u0") none 0 { rng := [fun _ ↦ 7] }),
    .call 1 (.shortenMany [lit "u1", lit "u2"] 0 { rng := [fun _ ↦ 7, fun _ ↦ 7, fun _ ↦ 8] }),
    .call 0 (.remove (genCode 0 fun _ ↦ 7)),
    .call 0 (.shorten (lit "u3") none 0 { rng := [fun _ ↦ 7] })]

theorem unasked_converge_sameLuck : ∃ s t, run step empty sameLuck = some s ∧
    run step s (flushAll [0, 1] ++ pollAll [1, 0]) = some t ∧
    t.links 0 (lit "17777777") = t.links 1 (lit "17777777") ∧
    (t.links 1 (lit "17777777")).map LinkRow.u = some (lit "u1") := by
  obtain ⟨t, ht, hopen, hlink⟩ : ∃ t, run step empty (sameLuck
      ++ (flushAll [0, 1] ++ pollAll [1, 0])) = some t ∧
      (∀ k, (t.nodes k).isSome = true ↔ k ∈ ([0, 1] : List InstanceId)) ∧
      (t.links 1 (lit "17777777")).map LinkRow.u = some (lit "u1") := by
    decide +kernel
  obtain ⟨s, hs, ht⟩ := Transition.run_append_eq_some.mp ht
  have hall : ∀ k ∈ ([0, 1] : List InstanceId), k ∈ ([1, 0] : List InstanceId) := by decide
  refine ⟨s, t, hs, ht, unasked_converge hs (by decide) (by decide +kernel) (by decide) ht
    (fun i hi ↦ ⟨{}, ?_⟩) (fun k hk ↦ ⟨{}, ?_⟩) ((hopen 0).mpr ?_) ((hopen 1).mpr ?_), hlink⟩
  · exact List.mem_map_of_mem ((hopen i).mp hi)
  · exact List.mem_map_of_mem (hall k ((hopen k).mp hk))
  · decide
  · decide

theorem resolve_generated_sameLuck : ∃ s inner,
    run step empty (sameLuck ++ flushAll [1]) = some s ∧ s.nodes 0 = some inner ∧
    ((⟨s.dir, inner⟩ : Store).resolve (genCode 1 fun _ ↦ 7) (fun _ ↦ 0) true fun _ ↦ 0).2
      = some (lit "u1") := by
  obtain ⟨s, hs, hrow, hunknown, hopen⟩ : ∃ s,
      run step empty (sameLuck ++ flushAll [1]) = some s ∧
      LastWrite.lastFor (genCode 1 fun _ ↦ 7) (writesOf (s.log 1))
        = some (.put (genCode 1 fun _ ↦ 7) { u := lit "u1", a := 0, e := 0, i := 1 }) ∧
      s.links 0 (genCode 1 fun _ ↦ 7) = none ∧ (s.nodes 0).isSome = true := by
    decide +kernel
  obtain ⟨inner, hk⟩ := Option.isSome_iff_exists.mp hopen
  have hne : (0 : InstanceId) ≠ 1 := by decide
  exact ⟨s, inner, hs, hk, resolve_generated hs (by decide) (by decide +kernel) hne hk hunknown hrow
    (by decide) true fun _ ↦ 0⟩

theorem given_once_a_life_sameLuck : ∃ s, run step empty sameLuck = some s ∧
    (givenOut sameLuck).count (genCode 0 fun _ ↦ 7) = 2 ∧
    (givenOut sameLuck).count (genCode 0 fun _ ↦ 7)
      = (takenBack sameLuck).count (genCode 0 fun _ ↦ 7)
        + (s.links 0 (genCode 0 fun _ ↦ 7)).isSome.toNat := by
  obtain ⟨s, hs, -⟩ : ∃ s, run step empty sameLuck = some s ∧ (s.nodes 0).isSome = true := by
    decide +kernel
  refine ⟨s, hs, by decide +kernel, given_once_a_life hs (by decide) (by decide +kernel)⟩

end Cluster

end Shrt
