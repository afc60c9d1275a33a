import Shrt.Lib.WriteBehind
import Shrt.Store.Cells
import Shrt.Machine.Conservation

/-!
# Hit counts across restarts

Seen from one code, the store is a counter written behind (`WriteBehind.Counter`): its entry counts
at once, pending hits wait in a map for the next flush, and the files hold rows that set the count
and hit lines that add to it. A sequential call is a step of that counter, whatever else it does,
with one exception. `update` logs a row with a hit count of zero, which a restart takes at its word.

So hit counts survive a restart as long as no link is updated after hits on it have reached the log,
and they do not survive it otherwise (`hits_reopen_iff`).
-/

namespace Shrt

open CounterLog (Touch Cell replay Settled)
open WriteBehind (Counter Counted Step)
open Transition (run Meets)

/-- A number of hits, as the counters of the store hold it. -/
def hitsHom : ℕ →+ Int64 where
  toFun := Int64.ofNat
  map_zero' := rfl
  map_add' := Int64.ofNat_add

@[simp] theorem hitsHom_one : hitsHom 1 = 1 := rfl

/-- The hit count of a code, in memory and in the files. -/
def Store.counter (st : Store) (c : Bytes) : Counter Int64 where
  present := (st.inner.find c).isSome
  own := st.ownHits c
  files := touches c st.snap ++ st.logTouches c
  pending := st.inner.shards.dirtyAt c

namespace Store

variable {st : Store} {c : Bytes}

/-- The counter is made of the entry, the lines in the files and the pending hits. -/
theorem counter_congr {st' : Store} (hfind : st'.inner.find c = st.inner.find c)
    (hsnap : st'.snap = st.snap) (hlog : st'.logTouches c = st.logTouches c)
    (hdirty : st'.inner.shards.dirtyAt c = st.inner.shards.dirtyAt c) :
    st'.counter c = st.counter c := by
  rw [counter, ownHits, hfind, hsnap, hlog, hdirty]
  rfl

theorem counter_onlyTail {f : Inner → Inner} (h : OnlyTail st.inner (f st.inner)) :
    (st.mapInner f).counter c = st.counter c := by
  refine counter_congr ?_ ?_ ?_ ?_
  · rw [Inner.find, mapInner, h.shards, Inner.find]
  · rw [snap, mapInner, h.inst, snap]
  · rw [logTouches, log, buf, mapInner, h.inst, h.aof, logTouches, log, buf]
  · rw [mapInner, h.shards]

theorem counter_pushRaw (ht : Tidy st) (b : Bytes) :
    (st.pushRaw b).counter c = (st.counter c).write (touches c b) := by
  rw [counter, Counter.write, ht.logTouches_pushRaw, ← List.append_assoc]
  rfl

theorem counter_flushIfFull (ht : Tidy st) : st.flushIfFull.counter c = st.counter c := by
  refine counter_congr ?_ ht.snap_flushIfFull (ht.logTouches_flushIfFull c) ?_
  · rw [Inner.find, shards_flushIfFull, Inner.find]
  · rw [shards_flushIfFull]

/-- A new link of a code. -/
theorem counter_bind (code url : Bytes) (now exp : Int64) :
    (st.bind code url now exp).counter c
      = if c = code then { st.counter c with present := true, own := 0 } else st.counter c := by
  have hfind : (st.bind code url now exp).inner.find c
      = if c = code then some (st.newEntry url now exp) else st.inner.find c := Inner.find_put ..
  have hdirty : (st.bind code url now exp).inner.shards.dirtyAt c = st.inner.shards.dirtyAt c :=
    Shards.dirtyAt_put ..
  rw [counter, ownHits, hfind, hdirty]
  split_ifs <;> rfl

/-- A link changed, with its counters kept. -/
theorem counter_put {code : Bytes} {e e' : Entry} (hfind : st.inner.find code = some e)
    (he : e'.oh = e.oh) : (st.mapInner (·.put code e')).counter c = st.counter c := by
  have hfind' : (st.mapInner (·.put code e')).inner.find c
      = if c = code then some e' else st.inner.find c := Inner.find_put ..
  have hdirty : (st.mapInner (·.put code e')).inner.shards.dirtyAt c = st.inner.shards.dirtyAt c :=
    Shards.dirtyAt_put ..
  rw [counter, ownHits, hfind', hdirty]
  split_ifs with hc
  · rw [counter, ownHits, hc, hfind, Option.map_some, Option.map_some, he]
    rfl
  · rfl

/-- A hit: both sections of a resolve. -/
theorem counter_hit {code : Bytes} {e : Entry} (hfind : st.inner.find code = some e) :
    ((st.mapInner (·.put code (bumped e))).markDirty code).counter c
      = if c = code then { st.counter c with
          own := (st.counter c).own + 1
          pending := some ((st.counter c).pending.getD 0 + 1) }
        else st.counter c := by
  have hfind' : ((st.mapInner (·.put code (bumped e))).markDirty code).inner.find c
      = if c = code then some (bumped e) else st.inner.find c :=
    (Shards.find_addDirty ..).trans (Inner.find_put ..)
  have hdirty : ((st.mapInner (·.put code (bumped e))).markDirty code).inner.shards.dirtyAt c
      = if c = code then some (st.inner.shards.dirtyOf code + 1)
        else st.inner.shards.dirtyAt c := by
    refine (Shards.dirtyAt_addDirty ..).trans ?_
    exact congrArg₂ (fun d o ↦ if c = code then some (d + 1) else o) (Shards.dirtyOf_put ..)
      (Shards.dirtyAt_put ..)
  rw [counter, ownHits, hfind', hdirty]
  split_ifs with hc
  · rw [hc, counter, ownHits, hfind]
    rfl
  · rfl

end Store

/-! ## Calls -/

section Create

variable {c : Bytes} {R : ℕ}

/-- A new link is counted from zero, once its row is logged. The rows logged before it are those of
the same call. -/
theorem counted_bind {st : Store} {code : Bytes} (hfree : st.inner.find code = none)
    (hcode : codeOk code = true)
    (url : Bytes) (now exp : Int64) {lines : Bytes} (hlines : IsLog st.inner.inst lines)
    (h : Counted hitsHom R ((st.counter c).write (touches c lines))) :
    Counted hitsHom R (((st.bind code url now exp).counter c).write
      (touches c (lines ++ st.rowFor code url now exp ++ [NL]))) := by
  rw [List.append_assoc, touches_append c hlines, touches_rowFor c st hcode, Store.counter_bind]
  by_cases hc : c = code
  · subst hc
    have habsent : ((st.counter c).write (touches c lines)).present = false := by
      rw [Counter.write, Store.counter, hfree]
      rfl
    have hstep := h.step (Step.create habsent)
    rw [if_pos rfl, if_pos rfl]
    rw [Counter.write, Counter.write, List.append_assoc] at hstep
    exact hstep
  · rw [if_neg hc, if_neg (Ne.symm hc), List.append_nil]
    exact h

/-- The loop of `shorten_many`. -/
theorem counted_shortenLoop {now exp : Int64} {urls : List Bytes} :
    ∀ {st : Store} {rng : List Draw} {lines : Bytes} {codes : List Bytes}
      {r : Store × Bytes × List Bytes}, Solo st → IsLog st.inner.inst lines →
      st.shortenLoop now exp urls rng lines codes = some r →
      Counted hitsHom R ((st.counter c).write (touches c lines)) →
      Tidy r.1 ∧ IsLog r.1.inner.inst r.2.1 ∧
        Counted hitsHom R ((r.1.counter c).write (touches c r.2.1)) := by
  induction urls with
  | nil =>
    intro st rng lines codes r hs hlines h hcount
    rw [← Option.some.inj h]
    exact ⟨hs.toTidy, hlines, hcount⟩
  | cons u us ih =>
    intro st rng lines codes r hs hlines h hcount
    rw [Store.shortenLoop] at h
    cases hf : freshCode st.inner.shards st.inner.inst rng with
    | none =>
      rw [hf] at h
      exact absurd h (by simp)
    | some p =>
      rw [hf] at h
      obtain ⟨hfree, hcode⟩ := freshCode_spec hf
      refine ih (hs.bind hcode u now exp) ?_ h (counted_bind hfree hcode u now exp hlines hcount)
      rw [List.append_assoc]
      exact hlines.append (Store.isLog_rowFor hcode u now exp)

end Create

namespace Tidy

variable {st : Store} (ht : Tidy st) {c : Bytes}
include ht

/-- What `shorten` does to the counters: that of the new code starts at zero, with a row. -/
theorem counter_shorten {url : Bytes} {al : Option Code} {ttl : Int64} {clk : Clock}
    {rng : List Draw} {p : Store × Option Bytes}
    (h : st.shorten url (al.map Subtype.val) ttl clk rng = some p) :
    (p.2 = some c ∧ (st.counter c).present = false ∧ p.1.counter c
      = { (st.counter c).write [.set 0] with present := true, own := 0 }) ∨
    (p.2 ≠ some c ∧ p.1.counter c = st.counter c) := by
  obtain ⟨pick, hpick, rfl⟩ := Option.map_eq_some_iff.mp h
  cases pick with
  | none => exact .inr ⟨Option.some_ne_none c ∘ Eq.symm, rfl⟩
  | some code =>
    obtain ⟨hfree, hcode⟩ := Store.pickCode_spec hpick
    have hbind : Tidy (st.bind code url (clk 0) (expiry (clk 0) ttl)) := ht.put code _
    have hlog : IsLog (st.bind code url (clk 0) (expiry (clk 0) ttl)).inner.inst
        (st.rowFor code url (clk 0) (expiry (clk 0) ttl) ++ [NL]) := Store.isLog_rowFor hcode ..
    have hpush := hbind.pushRaw hlog
    rw [← Machine.push_eq_pushRaw] at hpush
    have hcounter : (((st.bind code url (clk 0) (expiry (clk 0) ttl)).push
        (st.rowFor code url (clk 0) (expiry (clk 0) ttl))).flushIfFull).counter c
        = ((st.bind code url (clk 0) (expiry (clk 0) ttl)).counter c).write
          (touches c (st.rowFor code url (clk 0) (expiry (clk 0) ttl) ++ [NL])) := by
      rw [Store.counter_flushIfFull hpush, Machine.push_eq_pushRaw, Store.counter_pushRaw hbind]
    simp only
    rw [hcounter, Store.counter_bind, touches_rowFor c st hcode]
    by_cases hc : c = code
    · subst hc
      refine .inl ⟨rfl, ?_, ?_⟩
      · rw [Store.counter, hfree]
        rfl
      · rw [if_pos rfl, if_pos rfl]
        rfl
    · refine .inr ⟨fun hsome ↦ hc (Option.some.inj hsome).symm, ?_⟩
      rw [if_neg hc, if_neg (Ne.symm hc)]
      exact congrArg (fun l ↦ { st.counter c with files := l }) (List.append_nil _)

/-- What a flush does to a counter. -/
theorem counter_flushLocked (ord : Order) : (st.flushLocked ord).counter c
    = { (st.counter c).write (st.counter c).todo with pending := none } := by
  have hf := ht.flushed ord
  rw [Store.counter, Store.ownHits, hf.find, hf.snap, hf.touches, hf.dirty, ← List.append_assoc]
  rfl

/-- What a compaction does to a counter. -/
theorem counter_compacted (hown : OwnCodesOk st.inner) (ord : Order) : (st.compact ord {}).counter c
    = { st.counter c with files := st.snapRow c, pending := none } := by
  have hc := ht.compacted hown ord
  rw [Store.counter, Store.ownHits, hc.find, hc.snap, hc.dirty, Store.logTouches, hc.log, hc.buf,
    touches_nil, List.append_nil, List.append_nil]
  rfl

end Tidy

namespace Solo

variable {st : Store} (hs : Solo st) {c : Bytes} {R : ℕ}
include hs

/-- A resolve counts a hit on a link it finds, and nothing else. -/
theorem resolve_cases (code : Bytes) (clk : Clock) (track : Bool) (ord : Order) :
    (∃ e, st.inner.find code = some e ∧ track = true ∧ st.resolve code clk track ord
      = ((st.mapInner (·.put code (Store.bumped e))).markDirty code, some e.u)) ∨
    ∃ f r, OnlyTail st.inner (f st.inner) ∧ st.resolve code clk track ord = (st.mapInner f, r) ∧
      (track = true → r = none) := by
  have hsame : OnlyTail st.inner (id st.inner) := OnlyTail.refl _
  rw [Store.resolve]
  rcases st.lookup_cases code (clk 0) track with ⟨e, hfind, rfl, hl⟩ | ⟨r, hl, hurl, habsent⟩
  · rw [hl]
    exact .inl ⟨e, hfind, rfl, rfl⟩
  · rw [hl]
    cases r with
    | url u =>
      have htrack : track = false := Bool.eq_false_iff.mpr fun h ↦ hurl h u rfl
      subst htrack
      exact .inr ⟨id, some u, hsame, rfl, fun h ↦ absurd h Bool.false_ne_true⟩
    | expired => exact .inr ⟨id, none, hsame, rfl, fun _ ↦ rfl⟩
    | absent =>
      have haof := hs.aof_isNone
      have htail := hs.onlyTail_tailMissed ord code clk
      have hnone : (st.readTails code clk ord).inner.find code = none := by
        rw [Store.readTails, Inner.find, Store.mapInner, htail.shards]
        exact habsent.mp rfl
      have hmiss : (st.readTails code clk ord).lookup code (clk 3) track
          = (st.readTails code clk ord, .absent) := by
        rw [Store.lookup, hnone]
      simp only [haof, hmiss]
      exact .inr ⟨_, none, htail, rfl, fun _ ↦ rfl⟩

/-- What `resolve` does to the counters: it is a hit when it succeeds and hits are tracked. -/
theorem counter_resolve (code : Bytes) (clk : Clock) (track : Bool) (ord : Order) :
    ((code = c ∧ track = true ∧ (st.resolve code clk track ord).2.isSome = true) ∧
      (st.counter c).present = true ∧ (st.resolve code clk track ord).1.counter c
        = { st.counter c with
            own := (st.counter c).own + 1
            pending := some ((st.counter c).pending.getD 0 + 1) }) ∨
    (¬ (code = c ∧ track = true ∧ (st.resolve code clk track ord).2.isSome = true) ∧
      (st.resolve code clk track ord).1.counter c = st.counter c) := by
  rcases hs.resolve_cases code clk track ord with ⟨e, hfind, rfl, heq⟩ | ⟨f, r, hf, heq, hnone⟩
  · rw [heq, Store.counter_hit hfind]
    by_cases hc : c = code
    · subst hc
      refine .inl ⟨⟨rfl, rfl, rfl⟩, ?_, if_pos rfl⟩
      rw [Store.counter, hfind]
      rfl
    · exact .inr ⟨fun hcond ↦ hc hcond.1.symm, if_neg hc⟩
  · rw [heq]
    refine .inr ⟨?_, Store.counter_onlyTail hf⟩
    rintro ⟨-, ht, hsome⟩
    rw [hnone ht] at hsome
    exact Bool.false_ne_true hsome

/-- What `update` does to the counters: the row it logs sets that of its code to zero. -/
theorem counter_update (code url : Bytes) (ttl : Int64) (hasTtl : Bool) (clk : Clock) :
    (st.update code url ttl hasTtl clk).1.counter c
      = if c = code ∧ (st.inner.find code).isSome = true then (st.counter c).write [.set 0]
        else st.counter c := by
  rw [Store.update]
  cases hu : st.updateIndex code url ttl hasTtl (clk 0) with
  | error r =>
    have hnone : st.inner.find code = none := by
      cases hf : st.inner.find code with
      | none => rfl
      | some e => simp [Store.updateIndex, hf, hs.index.owner hf] at hu
    rw [if_neg (by rw [hnone]; simp)]
  | ok p =>
    obtain ⟨st', line⟩ := p
    have ht := (hs.updateIndex hu).toTidy
    obtain ⟨e, exp, hfind, -, rfl, rfl⟩ := Store.updateIndex_eq_ok hu
    have hput : (st.mapInner (·.put code { e with u := url, e := exp })).counter c = st.counter c :=
      Store.counter_put hfind rfl
    simp only
    rw [Machine.push_eq_pushRaw, Store.counter_pushRaw ht, hput,
      touches_rowFor c st (hs.index.codeOk hfind), hfind]
    by_cases hc : c = code
    · rw [if_pos hc.symm, if_pos ⟨hc, rfl⟩]
    · rw [if_neg (Ne.symm hc), if_neg fun h ↦ hc h.1]
      exact congrArg (fun l ↦ { st.counter c with files := l }) (List.append_nil _)

/-- What `remove` does to the counters: the tombstone it logs deletes that of its code. The pending
hits stay. -/
theorem counter_remove (code : Bytes) : (st.remove code).1.counter c
    = if c = code ∧ (st.inner.find code).isSome = true then
        { (st.counter c).write [.del] with present := false, own := 0 }
      else st.counter c := by
  rw [Store.remove]
  cases hr : st.removeIndex code with
  | error r =>
    have hnone : st.inner.find code = none := by
      cases hf : st.inner.find code with
      | none => rfl
      | some e => simp [Store.removeIndex, hf, hs.index.owner hf] at hr
    rw [if_neg (by rw [hnone]; simp)]
  | ok p =>
    obtain ⟨st', line⟩ := p
    have ht := (hs.removeIndex hr).toTidy
    obtain ⟨e, hfind, -, rfl, rfl⟩ := Store.removeIndex_eq_ok hr
    have hdel : touches c (delLine code ++ [NL]) = if code = c then [.del] else [] := by
      refine (touches_line c (.del ⟨code, hs.index.codeOk hfind⟩)).trans ?_
      rw [touch_del]
      split_ifs <;> rfl
    have hfind' : (st.mapInner (·.erase code)).inner.find c
        = if c = code then none else st.inner.find c := Inner.find_erase ..
    have hdirty : (st.mapInner (·.erase code)).inner.shards.dirtyAt c = st.inner.shards.dirtyAt c :=
      Shards.dirtyAt_erase ..
    simp only
    rw [Machine.push_eq_pushRaw, Store.counter_pushRaw ht, hdel, Store.counter, Store.ownHits, hfind',
      hdirty, hfind]
    by_cases hc : c = code
    · rw [if_pos hc, if_pos hc.symm, if_pos ⟨hc, rfl⟩]
      rfl
    · rw [if_neg hc, if_neg (Ne.symm hc), if_neg fun h ↦ hc h.1]
      exact congrArg (fun l ↦ { st.counter c with files := l }) (List.append_nil _)

/-- The snapshot takes the row of every link. -/
theorem snapRow_eq (c : Bytes) : st.snapRow c
    = if (st.counter c).present then [.set (st.counter c).own] else [] := by
  rw [Store.snapRow, Store.counter, Store.ownHits]
  cases hfind : st.inner.find c with
  | none => rfl
  | some e =>
    rw [Option.bind_some, if_pos (hs.index.owner hfind)]
    rfl

/-- What a compaction does to a counter, when all links are the own ones. -/
theorem counter_compact (ord : Order) : (st.compact ord {}).counter c
    = { st.counter c with
        files := if (st.counter c).present then [.set (st.counter c).own] else []
        pending := none } := by
  rw [hs.toTidy.counter_compacted fun h _ ↦ hs.index.codeOk h, hs.snapRow_eq]

/-- The lines about a code in the files that a close leaves. -/
theorem touches_close (ord : Order) (c : Bytes) :
    touches c ((st.close ord).dir.content (snapName st.inner.inst))
      ++ touches c ((st.close ord).dir.content (logName st.inner.inst))
      = (st.counter c).files ++ (st.counter c).todo := by
  have hf := hs.toTidy.flushed ord
  have hsnap : (st.close ord).dir.content (snapName st.inner.inst) = st.snap := by
    rw [hs.dir_close, ← hf.snap, Store.snap, hf.inst]
  have hlog : touches c ((st.close ord).dir.content (logName st.inner.inst))
      = st.logTouches c ++ (st.counter c).todo := by
    have htouches := hf.touches c
    rw [Store.logTouches, hf.buf, touches_nil, List.append_nil, Store.log, hf.inst] at htouches
    rw [hs.dir_close, htouches]
    rfl
  rw [hsnap, hlog, ← List.append_assoc]
  rfl

/-- What a restart does to the log of a counter: the pending hits are written. -/
theorem counter_reopen_files (ord : Order) (c : Bytes) : (st.reopen ord).counter c
    = { present := ((st.reopen ord).inner.find c).isSome
        own := (st.reopen ord).ownHits c
        files := (st.counter c).files ++ (st.counter c).todo
        pending := none } := by
  have hd := hs.soloDir_close ord
  rw [← hs.touches_close ord, Store.counter, Store.reopen, Store.logTouches, hd.snap_openStore,
    hd.log_openStore, hd.buf_openStore, hd.dirtyAt_openStore, touches_nil, List.append_nil]

/-- What a restart does to a counter that needs no parking. -/
theorem counter_reopen (ord : Order)
    (hset : Settled false ((st.counter c).files ++ (st.counter c).todo)) :
    (st.reopen ord).counter c
      = { present := (st.counter c).outcome.present
          own := if (st.counter c).outcome.present then (st.counter c).outcome.total else 0
          files := (st.counter c).files ++ (st.counter c).todo
          pending := none } := by
  have hd := hs.soloDir_close ord
  have hfiles := hs.touches_close ord c
  rw [← hfiles] at hset
  have hcell := hd.cell_openStore ord hset
  rw [hfiles] at hcell
  have hsolo := hd.solo_openStore ord
  have hown : (st.reopen ord).ownHits c
      = if (st.counter c).outcome.present then (st.counter c).outcome.total else 0 := by
    rw [Counter.outcome, ← hcell, Store.ownHits, Store.reopen]
    cases hfind : (openStore ord (st.close ord).dir st.inner.inst).inner.find c with
    | none =>
      rw [Inner.cell_of_find_eq_none hfind]
      rfl
    | some e =>
      rw [Inner.cell_of_find_eq_some hfind, hsolo.index.hits hfind]
      rfl
  have hpresent : ((st.reopen ord).inner.find c).isSome = (st.counter c).outcome.present := by
    rw [Counter.outcome, ← hcell, Store.reopen, Inner.cell]
    cases (openStore ord (st.close ord).dir st.inner.inst).inner.find c <;> rfl
  rw [hs.counter_reopen_files, hown, hpresent]

end Solo

/-! ## Runs -/

/-- The hits on a code that a call counts. -/
def Call.hits (c : Bytes) (st : Store) : Call → ℕ
  | resolve code env => if code = c ∧ env.track = true ∧
      (st.resolve code env.clk env.track env.ord).2.isSome = true then 1 else 0
  | _ => 0

/-- A call does not forget hits on a code: it does not remove it, and it does not update it unless
all hits on it are still pending. -/
def Call.Keeps (c : Bytes) (st : Store) : Call → Prop
  | update code .. => code = c →
      ∀ e, st.inner.find c = some e → e.h = st.inner.shards.dirtyOf c
  | remove code => code ≠ c
  | _ => True

/-- **One call.** A call that does not forget hits is a step of the counter. -/
theorem counted_call {call : Call} {st st' : Store} {c : Bytes} {R : ℕ} (hs : Solo st)
    (hio : call.io = {}) (hkeep : call.Keeps c st) (h : call.run st = some st')
    (hcount : Counted hitsHom R (st.counter c)) :
    Counted hitsHom (R + call.hits c st) (st'.counter c) := by
  have hstart : Counted hitsHom R ((st.counter c).write (touches c [])) := by
    rw [touches_nil, Counter.write, List.append_nil]
    exact hcount
  cases call with
  | shorten url al ttl env =>
    obtain ⟨p, hp, rfl⟩ := Option.map_eq_some_iff.mp h
    rcases hs.counter_shorten hp with ⟨-, habsent, heq⟩ | ⟨-, heq⟩
    · rw [heq]
      exact hcount.step (Step.create habsent)
    · rw [heq]
      exact hcount
  | shortenMany urls ttl env =>
    obtain ⟨p, hp, rfl⟩ := Option.map_eq_some_iff.mp h
    obtain ⟨r, hr, rfl⟩ := Option.map_eq_some_iff.mp hp
    obtain ⟨ht, hlog, hr⟩ := counted_shortenLoop hs isLog_nil hr hstart
    simp only
    rw [Store.counter_flushIfFull (ht.pushRaw hlog), Store.counter_pushRaw ht]
    exact hr
  | resolve code env =>
    obtain rfl := Option.some.inj h
    rw [Call.hits]
    rcases hs.counter_resolve code env.clk env.track env.ord with ⟨hcond, hp, heq⟩ | ⟨hcond, heq⟩
    · rw [if_pos hcond, heq]
      exact hcount.step (Step.hit hp)
    · rw [if_neg hcond, heq]
      exact hcount
  | update code url ttl hasTtl env =>
    obtain rfl := Option.some.inj h
    rw [hs.counter_update]
    split_ifs with hc
    · obtain ⟨rfl, hsome⟩ := hc
      obtain ⟨e, hfind⟩ := Option.isSome_iff_exists.mp hsome
      refine hcount.write_zero hsome ?_
      have hall := hkeep rfl e hfind
      rw [hs.index.hits hfind] at hall
      rw [← Machine.ownHits_of_find_eq_some hfind] at hall
      exact hall
    · exact hcount
  | remove code =>
    obtain rfl := Option.some.inj h
    rw [hs.counter_remove, if_neg fun hc ↦ hkeep hc.1.symm]
    exact hcount
  | flush env =>
    obtain rfl := Option.some.inj h
    rw [hs.counter_flushLocked]
    exact hcount.step Step.flush
  | pollTails env =>
    obtain rfl := Option.some.inj h
    have haof := hs.aof_isNone
    rw [Store.pollTails, haof, if_neg Bool.false_ne_true,
      Store.counter_onlyTail (hs.onlyTail_pollLocked env.ord (env.clk 0))]
    exact hcount
  | compact env =>
    obtain rfl := Option.some.inj h
    have henv : env.io = {} := hio
    rw [henv, hs.counter_compact]
    exact hcount.step Step.compact
  | reopen ord =>
    obtain rfl := Option.some.inj h
    rw [hs.counter_reopen ord hcount.settled_files_todo]
    exact hcount.step Step.restart

theorem counted_openEmpty (inst : InstanceId) (c : Bytes) :
    Counted hitsHom 0 ((openEmpty inst).counter c) := by
  have hd := soloDir_empty inst
  have hcounter : (openEmpty inst).counter c = ⟨false, 0, [], none⟩ := by
    have hfind : (openEmpty inst).inner.find c = none := by
      rw [openEmpty, hd.openStore_eq]
      rfl
    rw [Store.counter, Store.ownHits, hfind, openEmpty, hd.snap_openStore, Store.logTouches,
      hd.log_openStore, hd.buf_openStore, hd.dirtyAt_openStore]
    rfl
  rw [hcounter]
  exact ⟨trivial, fun _ ↦ ⟨rfl, rfl⟩, rfl, 0, 0, rfl, rfl, rfl⟩

/-- What `stats` reports is what the counter has in memory. -/
theorem Solo.hits_stats {st : Store} (hs : Solo st) (c : Bytes) : (st.stats c).map Store.Link.hits
    = if (st.counter c).present then some (st.counter c).own else none := by
  rw [Store.stats, Store.counter, Store.ownHits]
  cases hfind : st.inner.find c with
  | none => rfl
  | some e => exact congrArg some (hs.index.hits hfind)

/-- What `stats` reports after a restart. -/
theorem Solo.hits_stats_reopen {st : Store} (hs : Solo st) (ord : Order) {c : Bytes}
    (hset : Settled false ((st.counter c).files ++ (st.counter c).todo)) :
    ((st.reopen ord).stats c).map Store.Link.hits
      = if (st.counter c).outcome.present then some (st.counter c).outcome.total else none := by
  rw [(hs.reopen ord).hits_stats, hs.counter_reopen ord hset]
  split_ifs <;> rfl

/-- Whether a call is a removal. -/
def Call.removes : Call → Bool
  | remove _ => true
  | _ => false

/-- A call other than a removal, with file operations that succeed. -/
def Call.Lasting (call : Call) : Prop := call.io = {} ∧ call.removes = false

/-- An update comes while all hits on its link are still pending. -/
def Call.InTime (st : Store) : Call → Prop
  | update code .. => ∀ e ∈ st.inner.find code, e.h = st.inner.shards.dirtyOf code
  | _ => True

instance Call.decidableInTime (st : Store) : ∀ call : Call, Decidable (call.InTime st)
  | update code .. => inferInstanceAs (Decidable
      (∀ e ∈ st.inner.find code, e.h = st.inner.shards.dirtyOf code))
  | shorten .. | shortenMany .. | resolve .. | remove .. | flush .. | pollTails .. | compact ..
  | reopen .. => isTrue trivial

theorem Call.InTime.keeps {call : Call} {st : Store} (h : call.InTime st) (hl : call.Lasting)
    (c : Bytes) : call.Keeps c st := by
  cases call with
  | update code url ttl hasTtl env =>
    rintro rfl e hfind
    exact h e hfind
  | remove code => exact absurd hl.2.symm Bool.false_ne_true
  | _ => trivial

/-- An update that comes too late is seen after the next restart. -/
theorem Call.inTime_of_reopen {call : Call} {st st' : Store} (hs : Solo st)
    (hcount : ∀ c, ∃ R, Counted hitsHom R (st.counter c)) (h : call.run st = some st')
    (hreopen : ∀ ord c, ((st'.reopen ord).stats c).map Store.Link.hits
      = (st'.stats c).map Store.Link.hits) : call.InTime st := by
  cases call with
  | update code url ttl hasTtl env =>
    intro e hfind
    obtain ⟨R, hR⟩ := hcount code
    have hs' := solo_call hs h
    obtain rfl := Option.some.inj h
    have hsome : (st.inner.find code).isSome = true := by
      rw [hfind]
      rfl
    have hcounter : (st.update code url ttl hasTtl env.clk).1.counter code
        = (st.counter code).write [.set 0] := by
      rw [hs.counter_update, if_pos ⟨rfl, hsome⟩]
    have hsame := hreopen (fun _ ↦ 0) code
    rw [hs'.hits_stats_reopen _ (by rw [hcounter]; exact hR.settled_write_zero), hs'.hits_stats,
      hcounter, hR.outcome_write_zero hsome] at hsame
    have hpresent : ((st.counter code).write [.set 0]).present = true := hsome
    rw [if_pos rfl, if_pos hpresent] at hsame
    have hown : st.ownHits code = st.inner.shards.dirtyOf code := (Option.some.inj hsame).symm
    rw [hs.index.hits hfind, ← hown, Machine.ownHits_of_find_eq_some hfind]
  | _ => trivial

/-- **When hit counts survive restarts.** Take any sequence of calls other than removals. Closing
and opening again at whatever point of it leaves `stats` with the hits it reported before, for every
code, exactly when every update in the sequence comes while all hits on its link are pending: none
of them has reached the log before the row that the update logs with a count of zero. -/
theorem hits_reopen_iff {inst : InstanceId} {calls : List Call} {st : Store}
    (h : run Call.run (openEmpty inst) calls = some st) (hcalls : ∀ call ∈ calls, call.Lasting) :
    (∀ calls₁ st₁, calls₁ <+: calls → run Call.run (openEmpty inst) calls₁ = some st₁ →
      ∀ ord c, ((st₁.reopen ord).stats c).map Store.Link.hits
        = (st₁.stats c).map Store.Link.hits) ↔
    Meets Call.run (fun st call ↦ call.InTime st) (openEmpty inst) calls := by
  refine Transition.forall_passed_iff_meets
    (P := fun st ↦ Solo st ∧ ∀ c, ∃ R, Counted hitsHom R (st.counter c))
    (q := fun _ call ↦ call.Lasting) ?_ ?_ ?_
    ⟨solo_openEmpty inst, fun c ↦ ⟨0, counted_openEmpty inst c⟩⟩
    (Transition.meets_of_forall hcalls _) h
  · rintro st call st' ⟨hs, hcount⟩ hl hok hrun
    refine ⟨solo_call hs hrun, fun c ↦ ?_⟩
    obtain ⟨R, hR⟩ := hcount c
    exact ⟨_, counted_call hs hl.1 (hok.keeps hl c) hrun hR⟩
  · rintro st ⟨hs, hcount⟩ ord c
    obtain ⟨R, hR⟩ := hcount c
    rw [hs.hits_stats_reopen ord hR.settled_files_todo, hs.hits_stats, hR.outcome_eq]
  · rintro st call st' ⟨hs, hcount⟩ - hrun hreopen
    exact Call.inTime_of_reopen hs hcount hrun hreopen

/-- A link that is hit, and updated before the hit is flushed. -/
def updatedInTime : List Call :=
  [.shorten (lit "u0") (some ⟨lit "a", codeOk_a⟩) 0 {}, .resolve (lit "a") {},
    .update (lit "a") (lit "u1") 0 false {}, .flush {}, .resolve (lit "a") {}, .compact {},
    .resolve (lit "a") {}]

theorem hits_reopen_iff_updatedInTime :
    ∃ st, run Call.run (openEmpty 0) updatedInTime = some st ∧
      (st.stats (lit "a")).map Store.Link.hits = some 3 ∧
      ∀ ord c, ((st.reopen ord).stats c).map Store.Link.hits
        = (st.stats c).map Store.Link.hits := by
  obtain ⟨st, hrun, hhits⟩ : ∃ st, run Call.run (openEmpty 0) updatedInTime = some st ∧
      (st.stats (lit "a")).map Store.Link.hits = some 3 := by
    decide +kernel
  have hmeets : Meets Call.run (fun st call ↦ call.InTime st) (openEmpty 0) updatedInTime := by
    decide +kernel
  have hcalls : ∀ call ∈ updatedInTime, call.Lasting := by
    simp [updatedInTime, Call.Lasting, Call.io, Call.removes]
  exact ⟨st, hrun, hhits,
    (hits_reopen_iff hrun hcalls).mpr hmeets updatedInTime st List.prefix_rfl hrun⟩

/-- A link that is hit, flushed, and updated. -/
def updatedLate : List Call :=
  [.shorten (lit "u0") (some ⟨lit "a", codeOk_a⟩) 0 {}, .resolve (lit "a") {}, .flush {},
    .update (lit "a") (lit "u1") 0 false {}]

theorem hits_lost : ∃ st, run Call.run (openEmpty 0) updatedLate = some st ∧
    (st.stats (lit "a")).map Store.Link.hits = some 1 ∧
    ((st.reopen fun _ ↦ 0).stats (lit "a")).map Store.Link.hits = some 0 := by
  decide +kernel

end Shrt
