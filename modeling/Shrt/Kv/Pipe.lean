import Shrt.Kv.Resp
import Shrt.Lib.Transition

/-!
# Pipelines

`Kv::pipe` writes commands to a connection and reads as many replies. When reading fails it throws,
and the connection goes back to the pool as it is: the replies that were not read are still to come,
and the next call takes them for its own (`stale_reply`).

A connection from which all that was sent for earlier calls has been read is *settled*. On a settled
connection a call that returns returns the replies to its own commands and leaves the connection
settled, so that only a call that throws can unsettle it (`pipe_of_settled`).

What is written is itself a sequence of values of the protocol. Read by `read_resp`, it gives the
commands back, whatever bytes their arguments hold (`readAll_wireCmd`).
-/

namespace Shrt.Kv

open Buffered (Source Read Reads Keeps Finds)
open Transition (run Meets)

/-! ## Calls on one connection -/

/-- `warg`. -/
def warg (a : Bytes) : Bytes := [36] ++ itoa (Int64.ofNat a.length) ++ CRLF ++ a ++ CRLF

/-- A command as it is written. -/
def wireCmd (args : List Bytes) : Bytes :=
  [42] ++ itoa (Int64.ofNat args.length) ++ CRLF ++ args.flatMap warg

/-- `Conn`, with what was written to it. -/
structure PooledConn where
  src : Source UInt8 := {}
  sent : Bytes := []

/-- One call of `pipe`. -/
structure Call where
  /-- The commands. -/
  cmds : List (List Bytes)
  /-- What further receives bring: the replies of the server to these commands, in pieces, and
  failures. -/
  arrives : List (Option Bytes)

/-- `Kv::pipe`; nothing when it throws. -/
def PooledConn.pipe (c : PooledConn) (call : Call) : Option (List Resp) × PooledConn :=
  let r := readAll call.cmds.length { c.src with feed := c.src.feed ++ call.arrives }
  (r.1, { src := r.2, sent := c.sent ++ call.cmds.flatMap wireCmd })

/-- Call after call, whether they throw or not. -/
def PooledConn.step (c : PooledConn) (call : Call) : Option PooledConn := some (c.pipe call).2

/-- A receive brings something or fails. -/
def Call.Receives (call : Call) : Prop := ∀ piece, some piece ∈ call.arrives → piece ≠ []

/-- All that was sent for earlier calls has been read. -/
def PooledConn.Settled (c : PooledConn) : Prop := c.src.rest = []

/-! ## The reader keeps its place -/

theorem keeps_number : Keeps number := by
  refine Keeps.bind (Keeps.await finds_line) fun l ↦ ?_
  split
  · exact Keeps.pure _
  · exact Keeps.fail

/-- A reply that cannot be read leaves the position inside the buffer. -/
theorem keeps_readResp (depth : ℕ) : Keeps (readResp depth) := by
  induction depth with
  | zero => exact Keeps.fail
  | succ depth ih =>
    rw [readResp]
    refine Keeps.bind (Keeps.await finds_byte) fun kind ↦ ?_
    split_ifs
    · exact Keeps.bind (Keeps.await finds_line) fun _ ↦ Keeps.pure _
    · exact keeps_number.bind fun _ ↦ Keeps.pure _
    · refine keeps_number.bind fun num ↦ ?_
      split_ifs
      · exact Keeps.pure _
      · exact (Keeps.exact _).bind fun _ ↦ Keeps.pure _
    · refine keeps_number.bind fun num ↦ ?_
      split_ifs
      · exact Keeps.pure _
      · exact (ih.times _).bind fun _ ↦ Keeps.pure _
    · exact Keeps.fail

theorem keeps_readAll (n : ℕ) : Keeps (readAll n) :=
  Keeps.times (fun c hc ↦ keeps_readResp c.rest.length c hc) n

/-! ## Settled connections -/

section Settled

variable {c : PooledConn} {call : Call}

/-- What a call reads from. -/
theorem valid_arrives (hc : c.src.Valid) (hcall : call.Receives) :
    ({ c.src with feed := c.src.feed ++ call.arrives } : Source UInt8).Valid := by
  refine ⟨hc.pos_le, fun piece hp ↦ ?_⟩
  rcases List.mem_append.mp hp with hp | hp
  · exact hc.pieces piece hp
  · exact hcall piece hp

theorem coming_append (xs ys : List (Option Bytes)) :
    Source.coming (xs ++ ys) = Source.coming xs ++ Source.coming ys := by
  rw [Source.coming, List.filterMap_append, List.flatten_append]
  rfl

theorem rest_arrives (h : c.Settled) :
    ({ c.src with feed := c.src.feed ++ call.arrives } : Source UInt8).rest
      = Source.coming call.arrives := by
  have hrest : c.src.avail ++ Source.coming c.src.feed = [] := h
  have hsplit : ({ c.src with feed := c.src.feed ++ call.arrives } : Source UInt8).rest
      = c.src.avail ++ (Source.coming c.src.feed ++ Source.coming call.arrives) :=
    congrArg (c.src.avail ++ ·) (coming_append c.src.feed call.arrives)
  rw [hsplit, ← List.append_assoc, hrest, List.nil_append]

/-- A call on a settled connection that returns. -/
theorem pipe_returns (hc : c.src.Valid) (hcall : call.Receives) (h : c.Settled) {vs : List Value}
    (hvs : ∀ v ∈ vs, v.Sendable) (hlen : vs.length = call.cmds.length)
    (hown : Source.coming call.arrives = vs.flatMap Value.encode) {rs : List Resp}
    (hrs : (c.pipe call).1 = some rs) : rs = vs.map Value.resp ∧ (c.pipe call).2.Settled := by
  have hrest : ({ c.src with feed := c.src.feed ++ call.arrives } : Source UInt8).rest
      = vs.flatMap Value.encode ++ [] := by
    rw [rest_arrives h, hown, List.append_nil]
  have hreads := reads_readAll hvs _ [] (valid_arrives hc hcall) hrest
  rw [hlen] at hreads
  rcases hreads with ⟨hsome, -, hnil, -⟩ | ⟨hnone, -⟩
  · exact ⟨Option.some.inj (hrs.symm.trans hsome), hnil⟩
  · exact nomatch hnone.symm.trans hrs

end Settled

theorem valid_run {calls : List Call} {c : PooledConn} (hcalls : ∀ call ∈ calls, call.Receives)
    (hrun : run PooledConn.step {} calls = some c) : c.src.Valid := by
  refine Transition.run_invariant (P := fun c : PooledConn ↦ c.src.Valid) ?_
    ⟨le_rfl, fun _ hp ↦ absurd hp List.not_mem_nil⟩ (Transition.meets_of_forall hcalls _) hrun
  rintro c call c' hc hcall ⟨⟩
  exact keeps_readAll _ _ (valid_arrives hc hcall)

/-- **Replies on a settled connection.** Take any calls on one connection, some of which may throw:
a receive fails, or a reply cannot be read. Every call that comes when all that was sent for earlier
calls has been read, and that returns, returns the values that the server sent for its own commands,
and leaves the connection in the same condition. -/
theorem pipe_of_settled {calls : List Call} {call : Call} {c : PooledConn}
    (hcalls : ∀ call' ∈ calls ++ [call], call'.Receives)
    (hrun : run PooledConn.step {} calls = some c) (hsettled : c.Settled)
    {vs : List Value} (hvs : ∀ v ∈ vs, v.Sendable) (hlen : vs.length = call.cmds.length)
    (hown : Source.coming call.arrives = vs.flatMap Value.encode) {rs : List Resp}
    (hrs : (c.pipe call).1 = some rs) : rs = vs.map Value.resp ∧ (c.pipe call).2.Settled := by
  have hc : c.src.Valid :=
    valid_run (fun call' h ↦ hcalls call' (List.mem_append_left _ h)) hrun
  exact pipe_returns hc (hcalls call (List.mem_append_right _ List.mem_cons_self)) hsettled hvs hlen
    hown hrs

/-- A command that reads a key. -/
def getCmd (key : String) : List Bytes := [lit "GET", lit key]

/-- A call that returns. -/
def returns : Call := ⟨[getCmd "l:a"], [some (lit "$1\r\nx\r\n")]⟩

/-- A call with two commands whose replies arrive in pieces, and a failure behind them. -/
def inPieces : Call where
  cmds := [getCmd "l:b", getCmd "l:c"]
  arrives := [some (lit "$1\r"), some (lit "\ny\r\n$-1\r"), some (lit "\n"), none]

theorem pipe_of_settled_inPieces : ∃ c, run PooledConn.step {} [returns] = some c ∧
    (c.pipe inPieces).1 = some ([Value.bulk (lit "y"), .nullBulk].map Value.resp) := by
  obtain ⟨c, hrun, hsettled, hreturns⟩ : ∃ c, run PooledConn.step {} [returns] = some c ∧
      c.src.rest = [] ∧ (c.pipe inPieces).1.isSome = true := by
    decide +kernel
  obtain ⟨rs, hrs⟩ := Option.isSome_iff_exists.mp hreturns
  have hcalls : ∀ call ∈ [returns, inPieces], ∀ piece ∈ call.arrives.filterMap id, piece ≠ [] := by
    decide
  have hreceives : ∀ call ∈ [returns] ++ [inPieces], call.Receives := by
    intro call hcall piece hp
    exact hcalls call hcall piece (List.mem_filterMap.mpr ⟨_, hp, rfl⟩)
  have hvs : ∀ v ∈ [Value.bulk (lit "y"), .nullBulk], v.Sendable := by
    refine List.forall_mem_cons.mpr ⟨?_, List.forall_mem_singleton.mpr trivial⟩
    exact (by decide : 1 < 2 ^ 63)
  obtain ⟨rfl, -⟩ := pipe_of_settled hreceives hrun hsettled hvs rfl (by decide) hrs
  exact ⟨c, hrun, hrs⟩

/-- A receive fails once, and the reply arrives all the same. -/
def failsOnce : Call := ⟨[getCmd "l:a"], [none, some (lit "$1\r\nx\r\n")]⟩

/-- Another command. -/
def afterwards : Call := ⟨[getCmd "l:b"], [some (lit "$1\r\ny\r\n")]⟩

theorem stale_reply : ∃ c, run PooledConn.step {} [failsOnce] = some c ∧
    (({} : PooledConn).pipe failsOnce).1.isNone = true ∧
    Source.coming afterwards.arrives = (Value.bulk (lit "y")).encode ∧
    (c.pipe afterwards).1.map (·.map Resp.str) = some [lit "x"] := by
  decide +kernel

/-! ## Commands read back -/

/-- An argument as a reply: a bulk string. -/
def argResp (a : Bytes) : Resp := { kind := 36, num := Int64.ofNat a.length, str := a }

/-- A command as a reply: an array of its arguments. -/
def cmdResp (args : List Bytes) : Resp :=
  { kind := 42, num := Int64.ofNat args.length, arr := args.map argResp }

/-- A command as a value of the protocol. -/
def cmdValue (args : List Bytes) : Value := .array (args.map .bulk)

theorem encode_bulk (a : Bytes) : (Value.bulk a).encode = warg a := by
  simp only [Value.encode, warg, List.append_assoc]

theorem encode_cmdValue (args : List Bytes) : (cmdValue args).encode = wireCmd args := by
  rw [cmdValue, Value.encode, Value.encodeAll_eq, List.length_map, List.flatMap_map, wireCmd,
    funext encode_bulk]
  simp only [List.append_assoc]

theorem resp_cmdValue (args : List Bytes) : (cmdValue args).resp = cmdResp args := by
  have hbulk : Value.resp ∘ Value.bulk = argResp := by
    funext a
    rw [Function.comp_apply, Value.resp, argResp]
  rw [cmdValue, Value.resp, Value.respAll_eq, List.length_map, List.map_map, hbulk, cmdResp]

theorem sendable_cmdValue {args : List Bytes} (hargs : args.length < 2 ^ 63)
    (hsize : ∀ a ∈ args, a.length < 2 ^ 63) : (cmdValue args).Sendable := by
  refine ⟨by rwa [List.length_map], Value.allSendable_iff.mpr fun v hv ↦ ?_⟩
  obtain ⟨a, ha, rfl⟩ := List.mem_map.mp hv
  exact hsize a ha

/-- **Commands are encoded without injection.** Take any commands whose sizes fit an `int64_t`, and
any source from which what `pipe` writes for them is to be read, partly from the buffer and partly
in pieces that are still to come. Reading as many replies as there are commands returns one array
for each command, of bulk strings that are its arguments, and nothing is left. -/
theorem readAll_wireCmd {cmds : List (List Bytes)}
    (hsize : ∀ args ∈ cmds, args.length < 2 ^ 63 ∧ ∀ a ∈ args, a.length < 2 ^ 63)
    {c : Source UInt8} (hc : c.Valid) (hfeed : none ∉ c.feed) (hrest : c.rest = cmds.flatMap wireCmd) :
    (readAll cmds.length c).1 = some (cmds.map cmdResp) ∧ (readAll cmds.length c).2.rest = [] := by
  have hsend : ∀ v ∈ cmds.map cmdValue, v.Sendable := by
    intro v hv
    obtain ⟨args, hargs, rfl⟩ := List.mem_map.mp hv
    exact sendable_cmdValue (hsize args hargs).1 (hsize args hargs).2
  have hreads := reads_readAll hsend
  rw [List.length_map, List.flatMap_map, List.map_map, funext encode_cmdValue,
    show Value.resp ∘ cmdValue = cmdResp from funext resp_cmdValue] at hreads
  rcases hreads c [] hc (by rw [hrest, List.append_nil]) with ⟨hsome, -, hnil, -⟩ | ⟨-, hfail⟩
  · exact ⟨hsome, hnil⟩
  · exact absurd hfail hfeed

/-- A command whose arguments look like the protocol, and one that is empty. -/
def trickyCmds : List (List Bytes) := [[lit "SET", lit "\r\n$3\r\n", []], [], [lit "*1"]]

theorem readAll_wireCmd_trickyCmds :
    (readAll 3 { buf := trickyCmds.flatMap wireCmd }).1 = some (trickyCmds.map cmdResp) ∧
      (readAll 3 { buf := trickyCmds.flatMap wireCmd }).2.rest = [] := by
  have hsize : ∀ args ∈ trickyCmds, args.length < 2 ^ 63 ∧ ∀ a ∈ args, a.length < 2 ^ 63 := by
    decide
  have hvalid : ({ buf := trickyCmds.flatMap wireCmd } : Source UInt8).Valid :=
    ⟨Nat.zero_le _, fun _ hp ↦ absurd hp List.not_mem_nil⟩
  exact readAll_wireCmd hsize hvalid List.not_mem_nil (List.append_nil _)

end Shrt.Kv
