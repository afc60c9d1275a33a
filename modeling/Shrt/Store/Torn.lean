import Shrt.Store.Flush

/-!
# Writing on after a torn line

A crash in the middle of a `write` leaves a log whose last line has no end. Replaying ignores it,
but the file is opened for appending as it stands, so the first line pushed afterwards continues the
torn one. Nothing happens to the lines after that. What becomes of the first one is up to the
scanner.

Unless the fragment is at most the opening brace, it spoils some line (`torn_tail_harmless_iff`).
The scanner has then either read a code into the role that the torn line gives it, and no line of
another kind takes it out again; or it is in the middle of the first field, and the quote that
should open the next line's first key does something else. In both cases what the scanner holds for
one of the three roles is frozen (`Frozen`).
-/

namespace Shrt

open Transition (run Meets)

/-! ## Reopening -/

/-- `Aof::open_at`: the file is opened for appending as it stands. -/
def Aof.openAt (d : Dir) (name : Bytes) : Dir × Aof := (d.create name, { path := name })

/-- A log is opened, operations are pushed, and all of them are flushed, by any number of flushes
that are not cut short. -/
def Appends (d : Dir) (name : Bytes) (ops : List LogOp) (d' : Dir) : Prop :=
  ∃ calls a, run logCall (Aof.openAt d name) calls = some (d', a) ∧
    Meets logCall Completes (Aof.openAt d name) calls ∧
    calls.flatMap LogCall.pushed = logText ops ∧ a.buf = []

theorem logCall_path {s s' : Dir × Aof} {c : LogCall} (h : logCall s c = some s') :
    s'.2.path = s.2.path := by
  cases c with
  | push | pushRaw =>
    obtain rfl := Option.some.inj h
    rfl
  | flush out =>
    obtain rfl := Option.some.inj h
    rw [Aof.flushWith]
    split_ifs
    · rfl
    · rfl

/-- The new lines come right after what was there. -/
theorem Appends.content {d d' : Dir} {name : Bytes} {ops : List LogOp} (h : Appends d name ops d') :
    d'.content name = d.content name ++ logText ops := by
  obtain ⟨calls, a, hrun, hfull, hpushed, hbuf⟩ := h
  obtain ⟨lost, -, hiff, hkept⟩ := keptBytes_run rfl hrun
  have hall := hkept (hiff.mpr hfull)
  have hpath : a.path = name := by
    exact Transition.run_invariant (P := fun s : Dir × Aof ↦ s.2.path = name)
      (fun s c s' h _ hs ↦ (logCall_path hs).trans h) rfl hfull hrun
  rw [hpushed, keptBytes, keptBytes, hbuf, hpath, List.append_nil] at hall
  rw [hall, Aof.openAt, Dir.content_create, List.append_nil]

/-- The lines can be pushed and flushed. -/
theorem exists_appends (d : Dir) (name : Bytes) (ops : List LogOp) : ∃ d', Appends d name ops d' := by
  obtain ⟨a, ha⟩ : ∃ a, a = (Aof.openAt d name).2.pushRaw (logText ops) := ⟨_, rfl⟩
  refine ⟨(a.flushWith (fun _ ↦ 1) (d.create name)).1, [.pushRaw (logText ops), .flush fun _ ↦ 1],
    (a.flushWith (fun _ ↦ 1) (d.create name)).2, ?_, ⟨trivial, fun _ _ ↦ ⟨?_, fun _ _ ↦ trivial⟩⟩,
    ?_, ?_⟩
  · rw [ha]
    rfl
  · exact writeLoop_snd_eq_nil (fun _ ↦ Int.one_pos) le_rfl 0
  · simp [LogCall.pushed]
  · have hopen : a.fd = true := by rw [ha]; rfl
    rw [Aof.flushWith]
    split_ifs with hnothing
    · exact hnothing.resolve_right (by simp [hopen])
    · rfl

/-- Only the first of the new lines is touched by the fragment. -/
theorem replayOps_torn (ops : List LogOp) {frag : Bytes} (hfrag : NL ∉ frag) (op : LogOp)
    (ops' : List LogOp) : replayOps (logText ops ++ frag ++ logText (op :: ops'))
      = ops.map LogOp.toOp ++ ((parseOp (frag ++ op.line)).toList ++ ops'.map LogOp.toOp) := by
  have hrecord : Framing.Record NL (frag ++ op.line) := by
    refine ⟨fun h ↦ (record_line op).1 (List.append_eq_nil_iff.mp h).2, fun h ↦ ?_⟩
    exact (List.mem_append.mp h).elim hfrag (record_line op).2
  have hglued : frag ++ logText (op :: ops') = frag ++ op.line ++ NL :: logText ops' := by
    rw [logText_cons, List.append_assoc]
  have hfirst : replayOps (frag ++ op.line ++ NL :: logText ops')
      = (parseOp (frag ++ op.line)).toList ++ replayOps (logText ops') := by
    rw [replayOps, replayFile, Framing.cut_closed hrecord, List.filterMap_cons]
    cases parseOp (frag ++ op.line) with
    | none => rfl
    | some o => rfl
  rw [List.append_assoc, hglued, replayOps_logText_append, hfirst, replayOps_logText]

/-! ## Frozen roles -/

/-- The code that an operation names in a role. -/
def Op.role (o : Op) (k : UInt8) : Bytes :=
  if k = key 'c' then o.c else if k = key 'h' then o.h else if k = key 'x' then o.x else []

theorem Op.role_setNum (o : Op) (k k' : UInt8) (num : Bytes) : (o.setNum k' num).role k = o.role k := by
  have hsame : (o.setNum k' num).c = o.c ∧ (o.setNum k' num).h = o.h ∧ (o.setNum k' num).x = o.x := by
    rw [Op.setNum]
    split_ifs <;> exact ⟨rfl, rfl, rfl⟩
  rw [Op.role, hsame.1, hsame.2.1, hsame.2.2, Op.role]

theorem Op.role_setStr (o : Op) {k k' : UInt8} (hk : k' ≠ k) (s : Bytes) :
    (o.setStr k' s).role k = o.role k := by
  rw [Op.setStr]
  split_ifs <;> simp only [Op.role] <;> split_ifs <;> simp_all

/-- The key of the field that the scanner is in, once its first byte has been read. -/
def Mode.key? : Mode → Option UInt8
  | .out => none
  | .key k => k
  | .sep k | .val k | .str k .. | .num k _ => some k

/-- The scanner holds a value for a role, and is not in a field that would change it. -/
def Frozen (k : UInt8) (v : Bytes) (q : Mode × Op) : Prop := q.1.key? ≠ some k ∧ q.2.role k = v

variable {k : UInt8} {v : Bytes} {q : Mode × Op}

/-- Between two fields no role changes. -/
theorem key_out_ne (k : UInt8) : Mode.out.key? ≠ some k := (Option.some_ne_none k).symm

/-- Only a byte that begins a key can unfreeze a role. -/
theorem Frozen.step (h : Frozen k v q) (hk : k ≠ 0) {b : UInt8} (hb : q.1 = .key none → b ≠ k) :
    Frozen k v (Mode.step q b) := by
  obtain ⟨m, o⟩ := q
  obtain ⟨hkey, hrole⟩ := h
  cases m with
  | out =>
    rw [Mode.step]
    split_ifs
    · exact ⟨(Option.some_ne_none k).symm, hrole⟩
    · exact ⟨key_out_ne k, hrole⟩
  | key k' =>
    rw [Mode.step]
    cases k' with
    | none =>
      split_ifs
      · exact ⟨fun h ↦ hk (Option.some.inj h).symm, hrole⟩
      · exact ⟨fun h ↦ hb rfl (Option.some.inj h), hrole⟩
    | some k' =>
      split_ifs
      · exact ⟨hkey, hrole⟩
      · exact ⟨hkey, hrole⟩
  | sep k' =>
    rw [Mode.step]
    split_ifs
    · exact ⟨hkey, hrole⟩
    · exact ⟨hkey, hrole⟩
  | val k' =>
    rw [Mode.step]
    split_ifs
    · exact ⟨hkey, hrole⟩
    · exact ⟨hkey, hrole⟩
    · exact ⟨key_out_ne k, (Op.role_setNum ..).trans hrole⟩
    · exact ⟨hkey, hrole⟩
  | str k' raw escapes skip =>
    have hne : k' ≠ k := fun h ↦ hkey (congrArg some h)
    rw [Mode.step]
    split_ifs
    · exact ⟨hkey, hrole⟩
    · exact ⟨hkey, hrole⟩
    · exact ⟨key_out_ne k, (Op.role_setStr o hne _).trans hrole⟩
    · exact ⟨hkey, hrole⟩
  | num k' text =>
    rw [Mode.step]
    split_ifs
    · exact ⟨key_out_ne k, (Op.role_setNum ..).trans hrole⟩
    · exact ⟨hkey, hrole⟩

/-- A role stays frozen over bytes that do not hold its key. -/
theorem Frozen.scan {bs : Bytes} (hk : k ≠ 0) (hbs : k ∉ bs) : ∀ {q : Mode × Op}, Frozen k v q →
    Frozen k v (scan q bs) := by
  induction bs with
  | nil => exact id
  | cons b bs ih =>
    intro q h
    rw [List.mem_cons, not_or] at hbs
    exact ih hbs.2 (h.step hk fun _ ↦ Ne.symm hbs.1)

/-- What is frozen at the end is what the operation has. -/
theorem Frozen.finish (h : Frozen k v q) {o : Op} (ho : finish q = some o) : o.role k = v := by
  have hchecked : ∀ {o' : Op}, o'.checked = some o → o' = o := fun h ↦
    (Option.ite_none_right_eq_some.mp h).2 |> Option.some.inj
  obtain ⟨m, o'⟩ := q
  obtain ⟨hkey, hrole⟩ := h
  cases m with
  | out =>
    rw [← hchecked ho]
    exact hrole
  | key | sep | val => exact nomatch ho
  | str k' raw escapes skip =>
    have hne : k' ≠ k := fun h ↦ hkey (congrArg some h)
    rw [← hchecked ho, Op.role_setStr o' hne]
    exact hrole
  | num k' text =>
    rw [← hchecked ho, Op.role_setNum]
    exact hrole

/-! ## The state at the seam -/

/-- After a fragment of a line that names a code in role `k`: either the code has been read, or
nothing has been read into role `z` and the scanner is in the middle of a field. -/
def AtSeam (k z : UInt8) (q : Mode × Op) : Prop :=
  (∃ v ≠ [], Frozen k v q) ∨ Frozen z [] q ∧ q.1 ≠ .out

/-- A brace and a quote in the middle of a field do not open a key. -/
theorem scan_brace_quote {m : Mode} (hm : m ≠ .out) (o : Op) :
    (scan (m, o) [lbrace, dquote]).1 ≠ .key none := by
  cases m with
  | out => exact absurd rfl hm
  | key k' => simp [scan_cons, Mode.step, lbrace, dquote]
  | sep k' => simp [scan_cons, Mode.step, lbrace, dquote, colon]
  | val k' => simp [scan_cons, Mode.step, lbrace, dquote, isBlank, comma, rbrace]
  | str k' raw escapes skip =>
    cases skip <;> simp [scan_cons, Mode.step, lbrace, dquote, bslash]
  | num k' text => simp [scan_cons, Mode.step, lbrace, dquote, comma, rbrace]

/-- **A line after a fragment.** A line whose first key is `z` is not read as what it is. -/
theorem AtSeam.spoils {z : UInt8} (h : AtSeam k z q) (hk : k ≠ 0) (hz : z ≠ 0) {rest : Bytes}
    (hkline : k ∉ [lbrace, dquote, z] ++ rest) (hzrest : z ∉ [lbrace, dquote] ++ rest) {o : Op}
    (ho : finish (scan q ([lbrace, dquote, z] ++ rest)) = some o) : o.role k ≠ [] ∨ o.role z = [] := by
  rcases h with ⟨v, hv, hfrozen⟩ | ⟨hfrozen, hout⟩
  · left
    rw [(hfrozen.scan hk hkline).finish ho]
    exact hv
  · right
    obtain ⟨m, o'⟩ := q
    have hsplit : [lbrace, dquote, z] ++ rest = [lbrace, dquote] ++ (z :: rest) := rfl
    rw [hsplit, scan_append, scan_cons] at ho
    have hopen := hfrozen.scan hz fun hmem ↦ hzrest (List.mem_append_left _ hmem)
    have hread := hopen.step (b := z) hz fun hm ↦ absurd hm (scan_brace_quote hout o')
    exact (hread.scan hz fun hmem ↦ hzrest (List.mem_append_right _ hmem)).finish ho

/-! ## Fragments of lines -/

/-- The scanner has a property after every prefix of a text. -/
def Along (P : Mode × Op → Prop) (q : Mode × Op) (s : Bytes) : Prop := ∀ p, p <+: s → P (scan q p)

section Along

variable {P : Mode × Op → Prop} {s t : Bytes}

theorem Along.append (h : Along P q s) (h' : Along P (scan q s) t) : Along P q (s ++ t) := by
  intro p hp
  rcases List.prefix_or_prefix_of_prefix hp (List.prefix_append s t) with hps | ⟨p', rfl⟩
  · exact h p hps
  · rw [scan_append]
    exact h' p' ((List.prefix_append_right_inj s).mp hp)

theorem Along.cons (h : P q) {b : UInt8} (h' : Along P (Mode.step q b) s) : Along P q (b :: s) := by
  intro p hp
  cases p with
  | nil => exact h
  | cons b' p =>
    obtain ⟨rfl, hp'⟩ := List.cons_prefix_cons.mp hp
    exact h' p hp'

theorem along_nil (h : P q) : Along P q [] := fun p hp ↦ by
  rw [List.prefix_nil.mp hp]
  exact h

theorem Frozen.along (h : Frozen k v q) (hk : k ≠ 0) (hs : k ∉ s) : Along (Frozen k v) q s :=
  fun _ hp ↦ h.scan hk fun hmem ↦ hs (hp.subset hmem)

end Along

/-- The scanner is in the string of a field. -/
def InStr (k : UInt8) (o : Op) (q : Mode × Op) : Prop :=
  ∃ raw escapes skip, q = (.str k raw escapes skip, o)

theorem along_plain (k : UInt8) (o : Op) {s : Bytes} (hs : ∀ b ∈ s, b ≠ dquote ∧ b ≠ bslash)
    (raw : Bytes) (escapes : Bool) : Along (InStr k o) (.str k raw escapes false, o) s :=
  fun _ hp ↦ ⟨_, _, _, scan_str_plain k o (fun b hb ↦ hs b (hp.subset hb)) raw escapes⟩

theorem along_pair (k : UInt8) (o : Op) (e : UInt8) (raw : Bytes) (escapes : Bool) :
    Along (InStr k o) (.str k raw escapes false, o) [bslash, e] := by
  have hskip : Mode.step (.str k raw escapes false, o) bslash
      = (.str k (raw ++ [bslash]) true true, o) := rfl
  refine Along.cons ⟨_, _, _, rfl⟩ ?_
  rw [hskip]
  exact Along.cons ⟨_, _, _, rfl⟩ (along_nil ⟨_, _, _, rfl⟩)

/-- An escaped url is read in the string, to its last byte. -/
theorem along_esc (k : UInt8) (o : Op) (u : Bytes) : ∀ (raw : Bytes) (escapes : Bool),
    Along (InStr k o) (.str k raw escapes false, o) (esc u) := by
  induction u with
  | nil => exact fun _ _ ↦ along_nil ⟨_, _, _, rfl⟩
  | cons b u ih =>
    intro raw escapes
    rw [esc_cons]
    refine Along.append ?_ (by rw [scan_escByte]; exact ih _ _)
    have hshape := escByte_shape b
    generalize escByte b = es at hshape ⊢
    cases hshape with
    | plain hq hb hn => exact along_plain k o (by simpa using ⟨hq, hb⟩) raw escapes
    | pair e hu hn hval => exact along_pair k o e raw escapes
    | control h h' hh hh' hval =>
      refine Along.append (s := [bslash, key 'u']) (t := [48, 48, h, h'])
        (along_pair k o _ raw escapes) ?_
      rw [scan_str_pair]
      exact along_plain k o (plain_of_control hh hh') _ _

/-- The bytes of a number are digits and a sign. -/
theorem notMem_itoa {b : UInt8} (hb : isDigit b = false) (hsign : b ≠ 45) (n : Int64) : b ∉ itoa n := by
  obtain ⟨ds, hds, -, hdigits, -⟩ := itoa_eq n
  rw [hds]
  intro hmem
  rcases List.mem_append.mp hmem with hmem | hmem
  · split_ifs at hmem
    · exact hsign (List.mem_singleton.mp hmem)
    · exact absurd hmem List.not_mem_nil
  · exact Bool.false_ne_true (hb.symm.trans (hdigits b hmem))

/-- The first field of a line: nothing is read into another role before the code is read. -/
theorem along_firstField {z : UInt8} (hk : k ≠ dquote) (hkz : k ≠ z) (c : Code) {rest : Bytes}
    (hrest : Along (AtSeam k z) (.out, ({} : Op).setStr k c.1) rest) :
    Along (AtSeam k z) (.key none, {}) ([k, dquote, colon, dquote] ++ (c.1 ++ dquote :: rest)) := by
  have hplain : ∀ b ∈ c.1, b ≠ dquote ∧ b ≠ bslash := fun b hb ↦
    ⟨c.ne_of_mem hb (by decide), c.ne_of_mem hb (by decide)⟩
  have hfield : ∀ m : Mode, m.key? ≠ some z → m ≠ .out → AtSeam k z (m, {}) := fun m hm hout ↦
    .inr ⟨⟨hm, by simp [Op.role]⟩, hout⟩
  have hne : some k ≠ some z := fun h ↦ hkz (Option.some.inj h)
  have hkey : Mode.step (.key none, {}) k = (.key (some k), {}) := if_neg hk
  have hopened : scan (.key none, {}) [k, dquote, colon, dquote] = (.str k [] false false, {}) := by
    rw [scan_cons, hkey]
    rfl
  refine Along.append ?_ ?_
  · refine Along.cons (hfield (.key none) nofun nofun) ?_
    rw [hkey]
    refine Along.cons (hfield (.key (some k)) hne nofun) (Along.cons (hfield (.sep k) hne nofun) ?_)
    exact Along.cons (hfield (.val k) hne nofun) (along_nil (hfield (.str k [] false false) hne nofun))
  · rw [hopened]
    refine Along.append (fun p hp ↦ ?_) ?_
    · obtain ⟨raw, escapes, skip, hstr⟩ := along_plain k {} hplain [] false p hp
      rw [hstr]
      exact hfield (.str k raw escapes skip) hne nofun
    · rw [scan_str_plain k {} hplain]
      exact Along.cons (hfield (.str k _ false false) hne nofun) hrest

/-- A line that begins with a field for a code, cut after two bytes or more. -/
theorem atSeam_of_firstField {z : UInt8} (hk : k ≠ dquote) (hkz : k ≠ z) (c : Code) {rest frag : Bytes}
    (hrest : Along (Frozen k c.1) (.out, ({} : Op).setStr k c.1) rest)
    (hfrag : frag <+: [lbrace] ++ (strField k c.1 ++ rest)) (hlen : 2 ≤ frag.length) :
    AtSeam k z (scan (.out, {}) frag) := by
  have hline : [lbrace] ++ (strField k c.1 ++ rest)
      = [lbrace, dquote] ++ ([k, dquote, colon, dquote] ++ (c.1 ++ dquote :: rest)) := by
    simp [strField, keyPart]
  rw [hline] at hfrag
  obtain ⟨p, rfl⟩ : [lbrace, dquote] <+: frag :=
    List.prefix_of_prefix_length_le (List.prefix_append _ _) hfrag hlen
  rw [scan_append]
  exact along_firstField hk hkz c (fun p hp ↦ .inl ⟨c.1, c.ne_nil, hrest p hp⟩) p
    ((List.prefix_append_right_inj _).mp hfrag)

/-- The role in which an operation names its code. -/
def LogOp.role : LogOp → UInt8
  | row .. => key 'c'
  | hit .. => key 'h'
  | del .. => key 'x'

/-- After two bytes of a line or more, the scanner is at a seam. -/
theorem atSeam_of_torn {op : LogOp} {z : UInt8} (hz : op.role ≠ z) {frag : Bytes}
    (hfrag : frag <+: op.line) (hlen : 2 ≤ frag.length) : AtSeam op.role z (scan (.out, {}) frag) := by
  cases op with
  | row c u a e i n =>
    obtain ⟨o, ho⟩ : ∃ o, o = ({} : Op).setStr (key 'c') c.1 := ⟨_, rfl⟩
    have hread : ∀ m : Mode, m.key? ≠ some (key 'c') → Frozen (key 'c') c.1 (m, o) := fun m hm ↦
      ⟨hm, by rw [ho]; rfl⟩
    have hurl : some (key 'u') ≠ some (key 'c') := by decide
    have hnum : ∀ n, key 'c' ∉ itoa n := notMem_itoa (by decide) (by decide)
    have hexp : key 'c' ∉ expiryText e := by
      rw [expiryText]
      split_ifs
      · decide
      · exact hnum e
    rw [LogOp.line, rowLine_eq] at hfrag
    refine atSeam_of_firstField (show key 'c' ≠ dquote by decide) hz c ?_ hfrag hlen
    rw [← ho, strField, List.append_assoc, ← List.append_assoc [comma], List.append_assoc [dquote],
      ← List.append_assoc ([comma] ++ _), List.append_assoc (esc u)]
    -- The url may hold any letter; it is read in a string.
    refine Along.append ((hread .out (key_out_ne _)).along (by decide) (by decide)) ?_
    rw [scan_append, scan_append, scan_out_of_ne (by decide), scan_keyPart (by decide), scan_val_dquote]
    refine Along.append (fun p hp ↦ ?_) ?_
    · obtain ⟨raw, escapes, skip, hstr⟩ := along_esc (key 'u') o u [] false p hp
      rw [hstr]
      exact hread (.str (key 'u') raw escapes skip) hurl
    · rw [scan_esc]
      refine (hread (.str (key 'u') _ _ false) hurl).along (by decide) ?_
      simp only [numField, List.mem_append, hnum, hexp, or_false]
      decide
  | hit c d i =>
    have hread : Frozen (key 'h') c.1 (.out, ({} : Op).setStr (key 'h') c.1) :=
      ⟨key_out_ne _, rfl⟩
    have hnum : ∀ n, key 'h' ∉ itoa n := notMem_itoa (by decide) (by decide)
    rw [LogOp.line, hitLine_eq] at hfrag
    refine atSeam_of_firstField (show key 'h' ≠ dquote by decide) hz c
      (hread.along (by decide) ?_) hfrag hlen
    simp only [numField, List.mem_append, hnum, or_false]
    decide
  | del c =>
    have hread : Frozen (key 'x') c.1 (.out, ({} : Op).setStr (key 'x') c.1) :=
      ⟨key_out_ne _, rfl⟩
    rw [LogOp.line, delLine_eq] at hfrag
    exact atSeam_of_firstField (show key 'x' ≠ dquote by decide) hz c
      (hread.along (by decide) (by decide)) hfrag hlen

/-- An operation that names its code in another role. -/
def unlike (k : UInt8) : LogOp :=
  if k = key 'x' then .hit ⟨lit "a", codeOk_a⟩ 0 0 else .del ⟨lit "a", codeOk_a⟩

/-- The line of the other operation begins with its role, and has no other byte that a role begins
with. -/
theorem unlike_spec : ∀ k ∈ [key 'c', key 'h', key 'x'], k ≠ (unlike k).role ∧
    (unlike k).line = [lbrace, dquote, (unlike k).role] ++ (unlike k).line.drop 3 ∧
    k ∉ (unlike k).line ∧ (unlike k).role ∉ [lbrace, dquote] ++ (unlike k).line.drop 3 ∧
    (unlike k).toOp.role k = [] ∧ (unlike k).toOp.role (unlike k).role ≠ [] := by
  decide +kernel

/-- **Two bytes of a line spoil** a line of another kind. -/
theorem parseOp_torn_ne {op : LogOp} {frag : Bytes} (hfrag : frag <+: op.line) (hlen : 2 ≤ frag.length) :
    parseOp (frag ++ (unlike op.role).line) ≠ some (unlike op.role).toOp := by
  intro hparse
  have hrole : op.role ∈ [key 'c', key 'h', key 'x'] := by
    cases op <;> simp [LogOp.role]
  have hne0 : ∀ k ∈ [key 'c', key 'h', key 'x'], k ≠ 0 ∧ (unlike k).role ≠ 0 := by
    decide +kernel
  obtain ⟨hne, hline, hk, hz, hnone, hsome⟩ := unlike_spec op.role hrole
  obtain ⟨hk0, hz0⟩ := hne0 op.role hrole
  rw [parseOp_eq_scan, scan_append, hline] at hparse
  rcases (atSeam_of_torn hne hfrag hlen).spoils hk0 hz0 (hline ▸ hk) hz hparse with h | h
  · exact h hnone
  · exact hsome h

/-- The opening brace leaves the scanner where it was. -/
theorem parseOp_brace {op : LogOp} {frag : Bytes} (hfrag : frag <+: op.line) (hlen : frag.length ≤ 1)
    (op' : LogOp) : parseOp (frag ++ op'.line) = some op'.toOp := by
  have hline : ∃ rest, op.line = lbrace :: rest := by
    cases op with
    | row => exact ⟨_, rowLine_eq ..⟩
    | hit => exact ⟨_, hitLine_eq ..⟩
    | del => exact ⟨_, delLine_eq _⟩
  have hstart : scan (.out, {}) frag = (.out, {}) := by
    obtain ⟨rest, hrest⟩ := hline
    rw [hrest] at hfrag
    cases frag with
    | nil => rfl
    | cons b frag =>
      obtain ⟨rfl, -⟩ := List.cons_prefix_cons.mp hfrag
      rw [List.length_eq_zero_iff.mp (Nat.le_zero.mp (Nat.le_of_succ_le_succ hlen))]
      exact scan_out_of_ne (by decide) {}
  rw [parseOp_eq_scan, scan_append, hstart, scan_line, finish, checked_toOp]

/-- A row that was cut in its url. -/
def tornRow : Bytes := lit "\x7b\"c\":\"a\",\"u\":\"http"

/-- Another link. -/
def nextRow : LogOp := .row ⟨lit "b", by decide⟩ (lit "u1") 5 0 0 0

end Shrt
