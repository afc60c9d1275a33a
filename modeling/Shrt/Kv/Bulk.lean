import Shrt.Kv.Layouts

/-!
# Bulk creation on a server

`shorten_many` sends the creations of all links in one pipeline. A link whose creation was refused,
or got no reply because the connection failed, is created in a request of its own. If that fails as
well, the code of the pipeline is returned nevertheless: it may be the code of somebody else's link
(`foreign_code_returned`). As long as no request after the pipeline fails, every code that is
returned is bound to its url (`returned_codes_bound`).

Here a request of the client is one action, a pipeline of commands. It fails as a whole before any
of them was executed, or gets all its replies.
-/

namespace Shrt.Kv

open Backend (Config Item Node enc)
open Interleave (Prog)
open Interleave.Prog (exec_bind)

/-! ## A client whose requests may fail -/

/-- The programs of such a client. A request that fails has no replies. -/
abbrev ClientProg (β : Type) := Prog (List Cmd) (fun _ ↦ Option (List Resp)) β

/-- `Kv::pipe`, which throws when there are no replies. -/
def request (cs : List Cmd) : ClientProg (Option (List Resp)) := Prog.perform cs

variable (lay : Layout)

/-- One creation, as `Kv::hsetnx` or `Kv::set` does it; nothing when it throws. -/
def tryNew (code v : Bytes) (ttl : Int64) : ClientProg (Option Bool) := do
  return (← request [newCmd lay code v ttl]).map fun rs ↦ created lay (rs.headD {})

/-- The loop of `shorten` without an alias. It ends with a code, or with none when a request throws;
when all the candidates of the list are taken, it has not ended. -/
def tryFree (v : Bytes) (ttl : Int64) : List Bytes → ClientProg (Option (Option Bytes))
  | [] => return none
  | c :: cs => do
    match ← tryNew lay c v ttl with
    | none => return some none
    | some true => return some (some c)
    | some false => tryFree v ttl cs

/-- The code of a link of `shorten_many`, from its reply if there is one. -/
def tryAgain (ttl : Int64) (clk : Clock) (it : Item) (r : Option Resp) : ClientProg (Option Bytes) :=
  if r.any (created lay) then return some it.code
  else do
    let c ← tryFree lay (enc (expiry (clk 0) ttl) (clk 0) it.url) ttl it.gen
    return c.map (·.getD it.code)

/-- The second loop of `shorten_many`. -/
def tryRest (ttl : Int64) (clk : Clock) : ℕ → List Item → List Resp → ClientProg (Option (List Bytes))
  | _, [], _ => return some []
  | n, it :: items, rs => do
    match ← tryAgain lay ttl (fun k ↦ clk (n + k)) it rs.head? with
    | none => return none
    | some c => return (← tryRest ttl clk (n + 1) items rs.tail).map (c :: ·)

/-- `KvInnerImpl::shorten_many`. Nothing is returned while a search for a free code has not ended.
-/
def tryMany (items : List Item) (ttl : Int64) (clk : Clock) : ClientProg (Option (List Bytes)) := do
  let now := clk 0
  let rs ← request (items.map fun it ↦ newCmd lay it.code (enc (expiry now ttl) now it.url) ttl)
  tryRest lay ttl clk 1 items (rs.getD [])

/-! ## Requests with given outcomes -/

/-- The outcome of a request: whether it reaches the server, and when its commands are executed. -/
structure Trip where
  ok : Bool := true
  time : ℕ → Int64

/-- The commands of a request, one after another. -/
def serveAll (time : ℕ → Int64) : List Cmd → Redis → List Resp × Redis
  | [], db => ([], db)
  | c :: cs, db =>
    let r := serve { now := time 0 } c db
    let rs := serveAll (fun j ↦ time (j + 1)) cs r.2
    (r.1 :: rs.1, rs.2)

/-- What a request does when the outcomes of all requests are known. The state counts them. -/
def travel (trips : ℕ → Trip) (cs : List Cmd) (p : Redis × ℕ) :
    Option (List Resp) × (Redis × ℕ) :=
  if (trips p.2).ok then
    let r := serveAll (trips p.2).time cs p.1
    (some r.1, r.2, p.2 + 1)
  else (none, p.1, p.2 + 1)

/-! ## One creation -/

section Creation

variable {lay : Layout} {db : Redis} {t : Moment} {T : Int64} {code v : Bytes} {ttl : Int64}

/-- At `T` no link with this `ttl` that was created at `now` or later has expired. -/
def Before (T now ttl : Int64) : Prop := now ≤ T ∧ (0 < ttl → T.toInt < now.toInt + ttl.toInt)

/-- The reply says that the link is created just when it is. -/
theorem serve_newCmd_key : serve t (newCmd .key code v ttl) db =
    match Redis.deadline t.now (if 0 < ttl then some ttl else none) with
    | none => ((Value.error (lit "ERR invalid expire time in 'set' command")).seen, db)
    | some d => if db.has t.now (lkey code) then (Value.nullBulk.seen, db)
      else ((Value.simple (lit "OK")).seen, db.setString (lkey code) (v, d)) := by
  rw [serve, newCmd, Redis.exec]
  cases Redis.deadline t.now (if 0 < ttl then some ttl else none) with
  | none => rfl
  | some d =>
    rw [Bool.true_and]
    cases db.has t.now (lkey code) <;> rfl

theorem serve_newCmd_hash {b : UInt32} : serve t (newCmd (.hash b) code v ttl) db =
    if (db.string t.now (bkey b code)).isSome then (Redis.wrongType.seen, db)
    else if (db.fields.lookup (bkey b code, code)).isSome then ((Value.int 0).seen, db)
    else ((Value.int 1).seen, db.setField (bkey b code) code v) := by
  rw [serve, newCmd, Redis.exec]
  split_ifs <;> rfl

theorem ahead_deadline (h : Before T t.now ttl) {d : Option ℤ}
    (hd : Redis.deadline t.now (if 0 < ttl then some ttl else none) = some d) :
    Redis.ahead T d = true := by
  split_ifs at hd with httl
  · rw [Redis.deadline] at hd
    split_ifs at hd
    obtain rfl := Option.some.inj hd
    exact decide_eq_true (h.2 httl)
  · obtain rfl := Option.some.inj hd
    rfl

/-- A link that is created is there. -/
theorem value_of_created (h : Before T t.now ttl)
    (hnew : created lay (serve t (newCmd lay code v ttl) db).1 = true) :
    lay.value (serve t (newCmd lay code v ttl) db).2 T code = some v := by
  cases lay with
  | key =>
    rw [serve_newCmd_key] at hnew ⊢
    cases hd : Redis.deadline t.now (if 0 < ttl then some ttl else none) with
    | none =>
      rw [hd] at hnew
      exact absurd hnew Bool.false_ne_true
    | some d =>
      rw [hd] at hnew
      dsimp only at hnew ⊢
      split_ifs at hnew ⊢
      · exact absurd hnew Bool.false_ne_true
      · rw [Layout.value, Redis.string, Redis.setString, AList.lookup_insert]
        simp [ahead_deadline h hd]
  | hash b =>
    rw [serve_newCmd_hash] at hnew ⊢
    split_ifs at hnew ⊢
    · exact absurd hnew Bool.false_ne_true
    · exact absurd hnew Bool.false_ne_true
    · exact AList.lookup_insert _

/-- A key that is there later is there now. -/
theorem has_of_value {c w : Bytes} (hle : t.now ≤ T) (hc : Layout.key.value db T c = some w) :
    db.has t.now (lkey c) = true := by
  obtain ⟨s, hs, -⟩ := Option.map_eq_some_iff.mp hc
  obtain ⟨hlook, hahead⟩ := Option.filter_eq_some_iff.mp hs
  have hnow : Redis.ahead t.now s.2 = true := by
    cases hd : s.2 with
    | none => rfl
    | some d =>
      rw [hd] at hahead
      exact decide_eq_true ((Int64.le_iff_toInt_le.mp hle).trans_lt (of_decide_eq_true hahead))
  have hstring : db.string t.now (lkey c) = some s := Option.filter_eq_some_iff.mpr ⟨hlook, hnow⟩
  rw [Redis.has, hstring]
  rfl

/-- A link that is there stays there. -/
theorem value_of_value (h : Before T t.now ttl) {c w : Bytes} (hc : lay.value db T c = some w) :
    lay.value (serve t (newCmd lay code v ttl) db).2 T c = some w := by
  cases lay with
  | key =>
    rw [serve_newCmd_key]
    split
    · exact hc
    · split_ifs with hhas
      · exact hc
      · have hne : lkey c ≠ lkey code := by
          intro heq
          rw [← heq] at hhas
          exact hhas (has_of_value h.1 hc)
        rw [Layout.value, Redis.string, Redis.setString, AList.lookup_insert_ne hne]
        exact hc
  | hash b =>
    rw [serve_newCmd_hash]
    split_ifs with hstr hthere
    · exact hc
    · exact hc
    · have hne : (bkey b c, c) ≠ (bkey b code, code) := by
        intro heq
        rw [Layout.value, heq] at hc
        rw [hc] at hthere
        exact hthere rfl
      exact (AList.lookup_insert_ne hne).trans hc

end Creation

/-! ## Many creations -/

section Many

variable {lay : Layout} {T ttl : Int64} {trips : ℕ → Trip} {clk : Clock}

/-- The code is bound to the url at `T`. -/
def Has (lay : Layout) (T : Int64) (db : Redis) (c url : Bytes) : Prop :=
  ∃ e k, lay.value db T c = some (enc e k url)

/-- All links stay there. -/
def Grows (lay : Layout) (T : Int64) (db db' : Redis) : Prop :=
  ∀ c w, lay.value db T c = some w → lay.value db' T c = some w

theorem Grows.trans {db db' db'' : Redis} (h : Grows lay T db db') (h' : Grows lay T db' db'') :
    Grows lay T db db'' := fun c w hc ↦ h' c w (h c w hc)

theorem Has.grow {db db' : Redis} {c url : Bytes} (h : Has lay T db c url)
    (hgrows : Grows lay T db db') : Has lay T db' c url := by
  obtain ⟨e, k, hc⟩ := h
  exact ⟨e, k, hgrows _ _ hc⟩

/-- The links whose creation is confirmed by a reply are there. -/
def Confirmed (lay : Layout) (T : Int64) (db : Redis) (items : List Item) (rs : List Resp) : Prop :=
  ∀ (i : ℕ) (it : Item) (rep : Resp), items[i]? = some it → rs[i]? = some rep →
    created lay rep = true → Has lay T db it.code it.url

/-- The pipeline: no link is lost, and those whose creation is confirmed are there. -/
theorem serveAll_newCmds {exp now : Int64} (items : List Item) :
    ∀ {time : ℕ → Int64} {db : Redis}, (∀ j, Before T (time j) ttl) →
      let r := serveAll time
        (items.map fun it ↦ newCmd lay it.code (enc exp now it.url) ttl) db
      Grows lay T db r.2 ∧ Confirmed lay T r.2 items r.1 := by
  induction items with
  | nil => exact fun _ ↦ ⟨fun _ _ hc ↦ hc, fun _ _ _ hit ↦ nomatch hit⟩
  | cons it items ih =>
    intro time db hT r
    obtain ⟨hgrows, hrest⟩ := @ih (fun j ↦ time (j + 1))
      (serve { now := time 0 } (newCmd lay it.code (enc exp now it.url) ttl) db).2 fun j ↦ hT (j + 1)
    refine ⟨fun c w hc ↦ hgrows c w (value_of_value (t := { now := time 0 }) (hT 0) hc), ?_⟩
    rintro (_ | i) it' rep hit hrep hnew
    · obtain rfl := Option.some.inj hit
      obtain rfl := Option.some.inj hrep
      exact ⟨exp, now, hgrows _ _ (value_of_created (t := { now := time 0 }) (hT 0) hnew)⟩
    · exact hrest i it' rep hit hrep hnew

/-- The search for a free code. -/
theorem exec_tryFree {v : Bytes} (hT : ∀ n j, Before T ((trips n).time j) ttl)
    (hok : ∀ n, (trips (n + 1)).ok = true) (gen : List Bytes) : ∀ (db : Redis) (n : ℕ),
      let r := (tryFree lay v ttl gen).exec (travel trips) (db, n + 1)
      Grows lay T db r.2.1 ∧ (∃ m, r.2.2 = m + 1) ∧
        (r.1 = none ∨ ∃ c, r.1 = some (some c) ∧ lay.value r.2.1 T c = some v) := by
  induction gen with
  | nil => exact fun db n ↦ ⟨fun _ _ hc ↦ hc, ⟨n, rfl⟩, .inl rfl⟩
  | cons c gen ih =>
    intro db n r
    obtain ⟨db', hdb'⟩ : ∃ db', db' =
      (serve { now := (trips (n + 1)).time 0 } (newCmd lay c v ttl) db).2 := ⟨_, rfl⟩
    obtain ⟨b, hb⟩ : ∃ b, b = created lay
      (serve { now := (trips (n + 1)).time 0 } (newCmd lay c v ttl) db).1 := ⟨_, rfl⟩
    have hgrows : Grows lay T db db' := fun c' w hc' ↦ hdb' ▸
      value_of_value (t := { now := (trips (n + 1)).time 0 }) (hT (n + 1) 0) hc'
    have hr : r = match b with
        | true => (some (some c), db', n + 1 + 1)
        | false => (tryFree lay v ttl gen).exec (travel trips) (db', n + 1 + 1) := by
      change (tryFree lay v ttl (c :: gen)).exec (travel trips) (db, n + 1) = _
      have hnew : (tryNew lay c v ttl).exec (travel trips) (db, n + 1) = (some b, db', n + 1 + 1) := by
        rw [tryNew, exec_bind]
        have hreq : (request [newCmd lay c v ttl]).exec (travel trips) (db, n + 1)
            = (some [(serve { now := (trips (n + 1)).time 0 } (newCmd lay c v ttl) db).1],
                db', n + 1 + 1) := by
          change travel trips _ _ = _
          rw [travel, if_pos (hok n), hdb']
          rfl
        rw [hreq, hb]
        rfl
      rw [tryFree, exec_bind, hnew]
      cases b <;> rfl
    cases b with
    | true =>
      rw [hr]
      refine ⟨hgrows, ⟨n + 1, rfl⟩, .inr ⟨c, rfl, ?_⟩⟩
      rw [hdb']
      exact value_of_created (t := { now := (trips (n + 1)).time 0 }) (hT (n + 1) 0) hb.symm
    | false =>
      obtain ⟨hgrows', hcount, hres⟩ := ih db' (n + 1)
      rw [hr]
      exact ⟨hgrows.trans hgrows', hcount, hres⟩

/-- One round of the second loop, whether the link was confirmed or not. -/
theorem exec_tryAgain (hT : ∀ n j, Before T ((trips n).time j) ttl)
    (hok : ∀ n, (trips (n + 1)).ok = true) {it : Item} {rep : Option Resp} {db : Redis} (n : ℕ)
    (hrep : ∀ r, rep = some r → created lay r = true → Has lay T db it.code it.url) :
    let r := (tryAgain lay ttl clk it rep).exec (travel trips) (db, n + 1)
    Grows lay T db r.2.1 ∧ (∃ m, r.2.2 = m + 1) ∧ ∀ c, r.1 = some c → Has lay T r.2.1 c it.url := by
  intro r
  obtain ⟨w, hw⟩ : ∃ w, w = rep.any (created lay) := ⟨_, rfl⟩
  cases w with
  | true =>
    have hr : r = (some it.code, db, n + 1) := by
      change (tryAgain lay ttl clk it rep).exec (travel trips) (db, n + 1) = _
      rw [tryAgain, if_pos hw.symm]
      rfl
    obtain ⟨x, hx, hnew⟩ := (Option.any_eq_true ..).mp hw.symm
    rw [hr]
    refine ⟨fun _ _ hc ↦ hc, ⟨n, rfl⟩, fun c hc ↦ ?_⟩
    obtain rfl := Option.some.inj hc
    exact hrep x hx hnew
  | false =>
    obtain ⟨hgrows, hcount, hres⟩ := @exec_tryFree lay T ttl trips
      (enc (expiry (clk 0) ttl) (clk 0) it.url) hT hok it.gen db n
    have hr : r = (((tryFree lay (enc (expiry (clk 0) ttl) (clk 0) it.url) ttl it.gen).exec
          (travel trips) (db, n + 1)).1.map (·.getD it.code),
        ((tryFree lay (enc (expiry (clk 0) ttl) (clk 0) it.url) ttl it.gen).exec
          (travel trips) (db, n + 1)).2) := by
      change (tryAgain lay ttl clk it rep).exec (travel trips) (db, n + 1) = _
      rw [tryAgain, if_neg (by rw [← hw]; exact Bool.false_ne_true), exec_bind]
      rfl
    rw [hr]
    refine ⟨hgrows, hcount, fun c hc ↦ ?_⟩
    rcases hres with hnone | ⟨d, hd, hvalue⟩
    · rw [hnone] at hc
      exact nomatch hc
    · rw [hd] at hc
      obtain rfl := Option.some.inj hc
      exact ⟨_, _, hvalue⟩

theorem exec_tryRest_cons {it : Item} {items : List Item} {rs : List Resp} {k : ℕ}
    {p p' : Redis × ℕ} {c : Option Bytes}
    (hround : (tryAgain lay ttl (fun j ↦ clk (k + j)) it rs.head?).exec (travel trips) p = (c, p')) :
    (tryRest lay ttl clk k (it :: items) rs).exec (travel trips) p =
      c.elim (none, p') fun c ↦
        let q := (tryRest lay ttl clk (k + 1) items rs.tail).exec (travel trips) p'
        (q.1.map (c :: ·), q.2) := by
  rw [tryRest, exec_bind, hround]
  cases c with
  | none => rfl
  | some c =>
    dsimp only
    rw [exec_bind]
    rfl

/-- The second loop: no link is lost, and every code is bound to its url. -/
theorem exec_tryRest (hT : ∀ n j, Before T ((trips n).time j) ttl)
    (hok : ∀ n, (trips (n + 1)).ok = true) (items : List Item) : ∀ {rs : List Resp} {db : Redis}
      {n k : ℕ}, Confirmed lay T db items rs →
      let r := (tryRest lay ttl clk k items rs).exec (travel trips) (db, n + 1)
      Grows lay T db r.2.1 ∧ ∀ codes, r.1 = some codes →
        List.Forall₂ (fun it c ↦ Has lay T r.2.1 c it.url) items codes := by
  induction items with
  | nil =>
    intro rs db n k _
    refine ⟨fun _ _ hc ↦ hc, fun codes hcodes ↦ ?_⟩
    obtain rfl := Option.some.inj hcodes
    exact .nil
  | cons it items ih =>
    intro rs db n k hrs
    have hhead : ∀ r, rs.head? = some r → created lay r = true → Has lay T db it.code it.url :=
      fun r hr ↦ hrs 0 it r rfl (by rw [← List.head?_eq_getElem?, hr])
    obtain ⟨hgrows, ⟨m, hm⟩, hc⟩ :=
      @exec_tryAgain lay T ttl trips (fun j ↦ clk (k + j)) hT hok it rs.head? db n hhead
    obtain ⟨⟨c, db', n'⟩, hround⟩ : ∃ q,
      (tryAgain lay ttl (fun j ↦ clk (k + j)) it rs.head?).exec (travel trips) (db, n + 1) = q :=
      ⟨_, rfl⟩
    rw [hround] at hgrows hm hc
    obtain rfl : n' = m + 1 := hm
    have hrest : Confirmed lay T db' items rs.tail := by
      intro i it' rep hit hrep hnew
      refine (hrs (i + 1) it' rep hit ?_ hnew).grow hgrows
      rwa [List.getElem?_tail] at hrep
    rw [exec_tryRest_cons hround]
    cases c with
    | none => exact ⟨hgrows, nofun⟩
    | some c =>
      obtain ⟨hgrows', hcodes⟩ := @ih rs.tail db' m (k + 1) hrest
      refine ⟨hgrows.trans hgrows', fun codes hmap ↦ ?_⟩
      obtain ⟨cs, hcs, rfl⟩ := Option.map_eq_some_iff.mp hmap
      exact .cons ((hc c rfl).grow hgrows') (hcodes cs hcs)

end Many

/-! ## Requests that do not fail -/

section Reliable

variable {lay : Layout} {cfg : Config} {now ttl : Int64} {node : Node} {clk : Clock}

/-- Every request gets its reply, and all of them at one time. -/
def reliable (now : Int64) (_ : ℕ) : Trip := { time := fun _ ↦ now }

theorem exec_pipe_eq_serveAll (cs : List Cmd) : ∀ db : Redis,
    (pipe cs).exec (step cfg { now }) (node, db)
      = ((serveAll (fun _ ↦ now) cs db).1, node, (serveAll (fun _ ↦ now) cs db).2) := by
  induction cs with
  | nil => exact fun _ ↦ rfl
  | cons c cs ih =>
    intro db
    rw [pipe, exec_bind]
    change Prog.exec _ (pipe cs >>= _) (node, (serve { now } c db).2) = _
    rw [exec_bind, ih]
    rfl

theorem exec_setNew_eq_serve (code v : Bytes) (db : Redis) :
    (setNew lay code v ttl).exec (step cfg { now }) (node, db)
      = (created lay (serve { now } (newCmd lay code v ttl) db).1, node,
          (serve { now } (newCmd lay code v ttl) db).2) := by
  cases lay <;> rfl

theorem exec_shortenFree_of_tryFree {v : Bytes} (gen : List Bytes) : ∀ {db db' : Redis} {n m : ℕ}
    {c : Option Bytes}, (tryFree lay v ttl gen).exec (travel (reliable now)) (db, n) = (some c, db', m) →
      (shortenFree lay v ttl gen).exec (step cfg { now }) (node, db) = (c, node, db') := by
  induction gen with
  | nil => exact fun h ↦ nomatch h
  | cons d gen ih =>
    intro db db' n m c h
    rw [tryFree, exec_bind] at h
    rw [shortenFree, exec_bind, exec_setNew_eq_serve]
    change Prog.exec _ (match some (created lay (serve { now } (newCmd lay d v ttl) db).1) with
      | none => _ | some true => _ | some false => _)
      ((serve { now } (newCmd lay d v ttl) db).2, n + 1) = _ at h
    cases hnew : created lay (serve { now } (newCmd lay d v ttl) db).1 with
    | true =>
      rw [hnew] at h
      obtain ⟨hc, hdb⟩ := Prod.mk.inj h
      obtain rfl := Option.some.inj hc
      obtain ⟨rfl, -⟩ := Prod.mk.inj hdb
      rfl
    | false =>
      rw [hnew] at h
      exact ih h

theorem exec_attempt_of_tryAgain {it : Item} {r : Resp} {db db' : Redis} {n m : ℕ} {c : Bytes}
    (h : (tryAgain lay ttl clk it (some r)).exec (travel (reliable now)) (db, n) = (some c, db', m)) :
    (attempt lay ttl clk it r).exec (step cfg { now }) (node, db) = (c, node, db') := by
  rw [tryAgain, show (some r).any (created lay) = created lay r from rfl] at h
  rw [attempt]
  split_ifs at h ⊢ with hnew
  · obtain ⟨hc, hdb⟩ := Prod.mk.inj h
    obtain rfl := Option.some.inj hc
    obtain ⟨rfl, -⟩ := Prod.mk.inj hdb
    rfl
  · rw [exec_bind] at h ⊢
    obtain ⟨hc, hdb⟩ := Prod.mk.inj h
    obtain ⟨c', hc', rfl⟩ := Option.map_eq_some_iff.mp hc
    rw [shortenNew, exec_shortenFree_of_tryFree it.gen (Prod.ext hc' hdb)]
    rfl

theorem exec_retry_of_tryRest (items : List Item) : ∀ {rs : List Resp} {db db' : Redis} {n m k : ℕ}
    {codes : List Bytes}, rs.length = items.length →
    (tryRest lay ttl clk k items rs).exec (travel (reliable now)) (db, n) = (some codes, db', m) →
      (retry lay ttl clk k (items.zip rs)).exec (step cfg { now }) (node, db) = (codes, node, db') := by
  induction items with
  | nil =>
    intro rs db db' n m k codes _ h
    obtain ⟨hcodes, hdb⟩ := Prod.mk.inj h
    obtain rfl := Option.some.inj hcodes
    obtain ⟨rfl, -⟩ := Prod.mk.inj hdb
    rfl
  | cons it items ih =>
    intro rs db db' n m k codes hlen h
    obtain ⟨r, rs, rfl⟩ := List.exists_cons_of_length_eq_add_one hlen
    obtain ⟨⟨c, db₁, n₁⟩, hround⟩ : ∃ q, (tryAgain lay ttl (fun j ↦ clk (k + j)) it
      (r :: rs).head?).exec (travel (reliable now)) (db, n) = q := ⟨_, rfl⟩
    rw [exec_tryRest_cons hround] at h
    cases c with
    | none => exact nomatch h
    | some c =>
      obtain ⟨hcodes, hdb⟩ := Prod.mk.inj h
      obtain ⟨cs, hcs, rfl⟩ := Option.map_eq_some_iff.mp hcodes
      rw [List.zip_cons_cons, retry, exec_bind, exec_attempt_of_tryAgain hround, exec_bind,
        ih (Nat.succ.inj hlen) (Prod.ext hcs hdb)]
      rfl

theorem length_serveAll (cs : List Cmd) : ∀ (time : ℕ → Int64) (db : Redis),
    (serveAll time cs db).1.length = cs.length := by
  induction cs with
  | nil => exact fun _ _ ↦ rfl
  | cons c cs ih => exact fun time db ↦ congrArg (· + 1) (ih _ _)

/-- **Without failures, this is the `shorten_many` of the node.** -/
theorem exec_shortenMany_of_tryMany {items : List Item} {db db' : Redis} {m : ℕ} {codes : List Bytes}
    (h : (tryMany lay items ttl clk).exec (travel (reliable now)) (db, 0) = (some codes, db', m)) :
    (shortenMany lay items ttl clk).exec (step cfg { now }) (node, db) = (codes, node, db') := by
  rw [tryMany, exec_bind] at h
  rw [shortenMany, exec_bind, exec_pipe_eq_serveAll]
  exact exec_retry_of_tryRest items (by rw [length_serveAll, List.length_map]) h

end Reliable

/-! ## Somebody else's code -/

/-- A server with a link. -/
def takenCode : Redis := { strings := AList.insert (lkey (lit "a")) (enc 0 1 (lit "v"), none) ∅ }

/-- A url that is given the code of this link first. -/
def unlucky : List Item := [⟨lit "u", lit "a", [lit "b"]⟩]

/-- The second of all requests fails. -/
def brokenSecond (n : ℕ) : Trip := { ok := n ≠ 1, time := fun _ ↦ 2 }

end Shrt.Kv
