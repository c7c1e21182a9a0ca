/-
LibC.Server.DispatchTheorems — the message loop, over whole runs.

`Served` relates the server to everything that has arrived: what was handled and
what still waits are the messages that can be read, in order; each message that
parses was answered once, with its own `client_pos` and to its own `src`; and the
scores are what the requests among them have set, each once, in order.
`run_served` proves it for every run, and that no run faults. A message
that cannot be read is taken from the queue and dropped; it ends the round of
`OnProc` that takes it, and so `run_drains` counts the rounds by messages.

No `sorry`, no `axiom`, no `native_decide`.
-/
import LibC.Server.QueryTheorems
import LibC.Server.SaveTheorems

namespace LibC

open LibC.Lib

variable {α : Type}

/-! ## Messages -/

/-- `RecvMsg` answers a positive length. -/
def Readable (m : Bytes) : Prop := 0 < toInt m.length

instance (m : Bytes) : Decidable (Readable m) := inferInstanceAs (Decidable (_ < _))

/-- The envelope and the request in a message, if both parse and there is such a command. -/
def MsgCodecs.request? (c : MsgCodecs α) (data : Bytes) : Option (MsgTransApp × Req α) :=
  (c.transApp.parseFromString data).bind fun t => (c.parse t).map fun req => (t, req)

/-- Where the answers to some messages go: destination, and position of the client. -/
def MsgCodecs.addresses (c : MsgCodecs α) (msgs : List Bytes) : List (Bytes × Int32) :=
  msgs.filterMap fun m => (c.request? m).map fun r => (r.1.src, r.1.clientPos)

/-- What some messages set. -/
def MsgCodecs.entries (c : MsgCodecs α) (msgs : List Bytes) : List (Entry α) :=
  msgs.flatMap fun m => ((c.request? m).map fun r => r.2.entries).getD []

theorem MsgCodecs.addresses_append (c : MsgCodecs α) (ms ms' : List Bytes) :
    c.addresses (ms ++ ms') = c.addresses ms ++ c.addresses ms' := List.filterMap_append

theorem MsgCodecs.entries_append (c : MsgCodecs α) (ms ms' : List Bytes) :
    c.entries (ms ++ ms') = c.entries ms ++ c.entries ms' := List.flatMap_append

/-! ## The queues -/

namespace SvrMqMgr

/-- Sending leaves the PULL socket alone. -/
theorem sendMsg_pull (conn : ConnRet) (sendOk : Bool) (dest data : Bytes) (mq : SvrMqMgr) :
    (mq.sendMsg conn sendOk dest data).2.pull = mq.pull ∧
      (mq.sendMsg conn sendOk dest data).2.up = mq.up := by
  have hconn : (mq.addDestConn conn dest).2.pull = mq.pull ∧
      (mq.addDestConn conn dest).2.up = mq.up := by
    unfold addDestConn
    split
    · exact ⟨rfl, rfl⟩
    · cases conn <;> exact ⟨rfl, rfl⟩
  unfold sendMsg
  cases mq.findConn dest with
  | some sk => cases sendOk <;> exact ⟨rfl, rfl⟩
  | none =>
      cases hadd : mq.addDestConn conn dest with
      | mk sk mq' =>
          rw [hadd] at hconn
          cases sk with
          | none => exact hconn
          | some sk => cases sendOk <;> exact hconn

/-- The first message that waits. -/
theorem recvMsg_cons {mq : SvrMqMgr} {m : Bytes} {rest : List Bytes} (hup : mq.up = true)
    (hpull : mq.pull = m :: rest) :
    mq.recvMsg = (toInt m.length, m, { mq with pull := rest }) := by
  have hsk : mq.vpPullSk ≠ none := by
    intro hnone
    rw [up, hnone, Option.isSome_none, Bool.and_false] at hup
    cases hup
  rw [recvMsg, if_neg hsk, hpull]

/-- `RecvMsgs` takes a first part of what waits, and keeps what can be read of it. -/
theorem recvMsgs_spec : ∀ (n : ℕ) (mq : SvrMqMgr), mq.up = true →
    ∃ pre rest, mq.pull = pre ++ rest ∧
      mq.recvMsgs n = (pre.filter fun m => decide (Readable m), { mq with pull := rest }) ∧
      (n ≠ 0 → mq.pull ≠ [] → pre ≠ []) := by
  intro n
  induction n with
  | zero => intro mq _; exact ⟨[], mq.pull, rfl, rfl, fun h => absurd rfl h⟩
  | succ n ih =>
      intro mq hup
      cases hpull : mq.pull with
      | nil =>
          have hrecv : mq.recvMsg = (0, [], mq) := by
            rw [recvMsg, hpull]
            exact ite_self _
          have hsame : ({ mq with pull := [] } : SvrMqMgr) = mq := by rw [← hpull]
          refine ⟨[], [], rfl, ?_, fun _ h => absurd rfl h⟩
          rw [recvMsgs, hrecv, hsame]
          rfl
      | cons m ms =>
          have hrecv := recvMsg_cons hup hpull
          by_cases hm : Readable m
          · obtain ⟨pre, rest, hsplit, hrun, _⟩ := ih { mq with pull := ms } hup
            have hpos : ¬ toInt m.length ≤ 0 := not_le.mpr hm
            refine ⟨m :: pre, rest, congrArg (m :: ·) hsplit, ?_, fun _ _ => List.cons_ne_nil _ _⟩
            simp only [recvMsgs, hrecv, if_neg hpos, hrun, List.filter_cons, hm, decide_true,
              if_true]
          · have hneg : toInt m.length ≤ 0 := not_lt.mp hm
            refine ⟨[m], ms, rfl, ?_, fun _ _ => List.cons_ne_nil _ _⟩
            simp only [recvMsgs, hrecv, if_pos hneg, List.filter_cons, hm, decide_false,
              Bool.false_eq_true, if_false, List.filter_nil]

end SvrMqMgr

/-! ## Two messages -/

deriving instance DecidableEq for MsgTransApp, MsgSetBatchReq, MsgSetBatchRsp,
  MsgGetScoreBatchReq, MsgGetScoreBatchRsp, MsgRankBatchQueryReq, MsgTopQueryReq, MsgRangeQueryReq

/-- A member of one letter, with the two bytes of its score that are not `0`, on the wire. -/
def onWire (lo hi name : UInt8) : Bytes := [0x09, 0, 0, 0, 0, 0, 0, lo, hi, 0x12, 1, name]

/-- The member `o` with the score `2`. -/
def memberO : Bytes := onWire 0x00 0x40 0x6F

/-- A request that gives three members the scores `1`, `3` and `2`, under the key `k`. -/
def setThree : Bytes :=
  [0x0A, 1, 0x6B, 0x12, 12] ++ onWire 0xF0 0x3F 0x6D ++ [0x12, 12] ++ onWire 0x08 0x40 0x6E ++
    [0x12, 12] ++ memberO

/-- The question who is second under `k`. -/
def topTwo : Bytes := [0x0A, 1, 0x6B, 0x10, 2]

/-- The wire format of the two, and of the answers to them. -/
def setThenTop : MsgCodecs ℤ where
  transApp := .ofTable [(⟨0x1003, 7, ascii "p", setThree⟩,
      [0x08, 0x83, 0x20, 0x10, 7, 0x1A, 1, 0x70, 0x22, 45] ++ setThree),
    (⟨0x1017, 7, ascii "p", topTwo⟩,
      [0x08, 0x97, 0x20, 0x10, 7, 0x1A, 1, 0x70, 0x22, 5] ++ topTwo),
    (⟨0, 7, [], [0x18, 3]⟩, [0x10, 7, 0x22, 2, 0x18, 3]),
    (⟨0, 7, [], [0x1A, 12] ++ memberO⟩, [0x10, 7, 0x22, 14, 0x1A, 12] ++ memberO)] (by decide)
  setBatchReq := .ofTable [(⟨ascii "k", [⟨1, ascii "m"⟩, ⟨3, ascii "n"⟩, ⟨2, ascii "o"⟩]⟩,
    setThree)] (by decide)
  setBatchRsp := .ofTable [(⟨0, [], 3⟩, [0x18, 3])] (by decide)
  getScoreBatchReq := .ofTable [] (by decide)
  getScoreBatchRsp := .ofTable [] (by decide)
  rankBatchQueryReq := .ofTable [] (by decide)
  rankBatchQueryRsp := .ofTable [] (by decide)
  rangeQueryReq := .ofTable [] (by decide)
  rangeQueryRsp := .ofTable [] (by decide)
  rangeByScoreQueryReq := .ofTable [] (by decide)
  rangeByScoreQueryRsp := .ofTable [] (by decide)
  topQueryReq := .ofTable [(⟨ascii "k", 2⟩, topTwo)] (by decide)
  topQueryRsp := .ofTable [(⟨0, [], some ⟨2, ascii "o"⟩⟩, [0x1A, 12] ++ memberO)] (by decide)

/-- The request arrives, then the question, and then the main loop calls `OnProc`. -/
def setThenTopEvents : List (MsgLoop.Event ℤ) :=
  [.arrive (setThenTop.transApp.serializeAsString ⟨0x1003, 7, ascii "p", setThree⟩),
    .arrive (setThenTop.transApp.serializeAsString ⟨0x1017, 7, ascii "p", topTwo⟩),
    .onProc fun _ => ⟨fun _ => ⟨1, heightOne⟩, 0, .ok, true⟩]

/-! ## Handling messages -/

variable [LinearOrder α] [Neg α] [One α]

namespace MsgLoop

/-- Where the answers went: destination, and position of the client. -/
def addressed (s : MsgLoop α) : List (Bytes × Int32) := s.sent.map fun x => (x.1, x.2.clientPos)

/-- Some messages were handled between two states of the server. -/
structure Handles (c : MsgCodecs α) (msgs : List Bytes) (s s' : MsgLoop α) : Prop where
  live : s'.db.Live
  handled : s'.handled = s.handled ++ msgs
  addressed : s'.addressed = s.addressed ++ c.addresses msgs
  effect : s.db.After (c.entries msgs) s'.db
  pull : s'.mq.pull = s.mq.pull
  context : s'.mq.up = s.mq.up

theorem Handles.refl (c : MsgCodecs α) {s : MsgLoop α} (h : s.db.Live) : Handles c [] s s where
  live := h
  handled := (List.append_nil _).symm
  addressed := (List.append_nil _).symm
  effect _ _ := rfl
  pull := rfl
  context := rfl

theorem Handles.trans {c : MsgCodecs α} {ms ms' : List Bytes} {s s1 s' : MsgLoop α}
    (h : Handles c ms s s1) (h' : Handles c ms' s1 s') : Handles c (ms ++ ms') s s' where
  live := h'.live
  handled := by rw [h'.handled, h.handled, List.append_assoc]
  addressed := by rw [h'.addressed, h.addressed, c.addresses_append, List.append_assoc]
  effect := by rw [c.entries_append]; exact h.effect.trans h'.effect
  pull := h'.pull.trans h.pull
  context := h'.context.trans h.context

variable [Zero α]

/-- A message is handled without a fault. -/
theorem processMQMsg_handles (c : MsgCodecs α) (toScore : ToScore α) (env : MsgEnv α)
    (data : Bytes) {s : MsgLoop α} (h : s.db.Live) :
    ∃ s', s.processMQMsg c toScore env data = some s' ∧ Handles c [data] s s' := by
  -- a message that is not answered
  have hdrop : c.request? data = none →
      Handles c [data] s { s with handled := s.handled ++ [data] } := fun hnone =>
    ⟨h, rfl, by simp [MsgCodecs.addresses, hnone, MsgLoop.addressed],
      fun q r => by simp [MsgCodecs.entries, hnone, lastSet], rfl, rfl⟩
  unfold processMQMsg
  cases ht : c.transApp.parseFromString data with
  | none => exact ⟨_, rfl, hdrop (by simp [MsgCodecs.request?, ht])⟩
  | some t =>
      cases hreq : c.parse t with
      | none => exact ⟨_, by simp only [hreq], hdrop (by simp [MsgCodecs.request?, ht, hreq])⟩
      | some req =>
          have hask : c.request? data = some (t, req) := by simp [MsgCodecs.request?, ht, hreq]
          obtain ⟨rsp, d', hrun, h', hafter, _⟩ := handle_live h toScore env req
          obtain ⟨hpull, hctx⟩ := s.mq.sendMsg_pull env.conn env.sendOk t.src
            (c.transApp.serializeAsString (World.responseMsg t (c.serialize rsp)))
          refine ⟨{ s with db := d', handled := s.handled ++ [data] }.respond c env t rsp,
            by simp only [hreq, hrun, Option.bind_eq_bind, Option.bind_some],
            h', rfl, ?_, ?_, hpull, hctx⟩
          · simp [MsgCodecs.addresses, hask, MsgLoop.addressed, respond, World.responseMsg]
          · simpa [MsgCodecs.entries, hask, respond] using hafter

/-- The messages of a round are handled in order. -/
theorem processMsgs_handles (c : MsgCodecs α) (toScore : ToScore α) (env : ℕ → MsgEnv α) :
    ∀ (msgs : List Bytes) (i : ℕ) (s : MsgLoop α), s.db.Live →
      ∃ s', processMsgs c toScore env i msgs s = some s' ∧ Handles c msgs s s'
  | [], i, s, h => ⟨s, rfl, .refl c h⟩
  | m :: msgs, i, s, h => by
      obtain ⟨s1, hone, h1⟩ := processMQMsg_handles c toScore (env i) m h
      obtain ⟨s', hrest, h'⟩ := processMsgs_handles c toScore env msgs (i + 1) s1 h1.live
      exact ⟨s', by simp [processMsgs, hone, hrest], h1.trans h'⟩

/-- A round of `OnProc`: it takes a first part of what waits and handles what can be read of it;
it answers `-1` exactly when there is none. -/
theorem processMQRecv_spec (c : MsgCodecs α) (toScore : ToScore α) (env : ℕ → MsgEnv α)
    {s : MsgLoop α} (h : s.db.Live) (hctx : s.mq.up = true) :
    ∃ ret s' pre, s.processMQRecv c toScore env = some (ret, s') ∧
      s.mq.pull = pre ++ s'.mq.pull ∧ (s.mq.pull ≠ [] → pre ≠ []) ∧
      (ret = -1 ↔ pre.filter (fun m => decide (Readable m)) = []) ∧
      Handles c (pre.filter fun m => decide (Readable m))
        { s with mq := { s.mq with pull := s'.mq.pull } } s' := by
  obtain ⟨pre, rest, hsplit, hrecv, htakes⟩ := s.mq.recvMsgs_spec 10 hctx
  unfold processMQRecv
  rw [hrecv]
  by_cases hnone : pre.filter (fun m => decide (Readable m)) = []
  · refine ⟨-1, { s with mq := { s.mq with pull := rest } }, pre, by simp only [hnone, if_true],
      hsplit, htakes (by decide), by simp [hnone], ?_⟩
    rw [hnone]
    exact .refl c h
  · obtain ⟨s', hrun, h'⟩ := processMsgs_handles c toScore env
      (pre.filter fun m => decide (Readable m)) 0 { s with mq := { s.mq with pull := rest } } h
    refine ⟨0, s', pre, by simp only [hnone, if_false, hrun]; rfl, by rw [h'.pull]; exact hsplit,
      htakes (by decide), by simp [hnone], ?_⟩
    have hrest : s'.mq.pull = rest := h'.pull
    rwa [hrest]

/-! ## Runs -/

/-- The messages that arrive in a run. -/
def arrived : List (Event α) → List Bytes :=
  List.filterMap fun ev => match ev with
    | .arrive m => some m
    | .onProc _ => none

/-- What the server has done with what has arrived. -/
structure Served (c : MsgCodecs α) (d : Db α) (evs : List (Event α)) (s : MsgLoop α) : Prop where
  live : s.db.Live
  context : s.mq.up = true
  inOrder : s.handled ++ s.mq.pull.filter (fun m => decide (Readable m)) =
    (arrived evs).filter fun m => decide (Readable m)
  answered : s.addressed = c.addresses s.handled
  effect : d.After (c.entries s.handled) s.db

omit [Zero α] in
theorem served_init (c : MsgCodecs α) {d : Db α} (h : d.Live) : Served c d [] (init d) where
  live := h
  context := rfl
  inOrder := rfl
  answered := rfl
  effect _ _ := rfl

/-- One event. -/
theorem Served.step {c : MsgCodecs α} {d : Db α} {past : List (Event α)} {s : MsgLoop α}
    (h : Served c d past s) (toScore : ToScore α) (ev : Event α) :
    ∃ s', MsgLoop.step c toScore ev s = some s' ∧ Served c d (past ++ [ev]) s' ∧
      match ev with
      | .arrive m => s'.mq.pull = s.mq.pull ++ [m]
      | .onProc _ => s'.mq.pull.length ≤ s.mq.pull.length - 1 := by
  cases ev with
  | arrive m =>
      refine ⟨_, rfl, ⟨h.live, h.context, ?_, h.answered, h.effect⟩, rfl⟩
      simp only [arrived, List.filterMap_append, List.filter_append, ← List.append_assoc]
      rw [h.inOrder]
      rfl
  | onProc env =>
      obtain ⟨ret, s', pre, hrun, hsplit, htakes, _, h'⟩ :=
        processMQRecv_spec c toScore env h.live h.context
      refine ⟨s', by simp [MsgLoop.step, hrun], ⟨h'.live, h'.context.trans h.context, ?_, ?_, ?_⟩,
        ?_⟩
      · have harr : arrived (past ++ [.onProc env]) = arrived past := by
          simp [arrived]
        rw [harr, ← h.inOrder, hsplit, h'.handled, List.filter_append, List.append_assoc]
      · rw [h'.addressed, h'.handled, c.addresses_append, ← h.answered]
        rfl
      · rw [h'.handled, c.entries_append]
        exact h.effect.trans h'.effect
      · rw [hsplit, List.length_append]
        cases hpre : pre with
        | nil =>
            have hnil : s.mq.pull = [] := by_contra fun hne => htakes hne hpre
            rw [hpre, List.nil_append] at hsplit
            rw [← hsplit, hnil]
            exact Nat.zero_le _
        | cons m pre =>
            rw [List.length_cons]
            omega

/-- Every run keeps it, and none faults. -/
theorem Served.runs {c : MsgCodecs α} {d : Db α} {past : List (Event α)} {s : MsgLoop α}
    (h : Served c d past s) (toScore : ToScore α) (evs : List (Event α)) :
    ∃ s', run (MsgLoop.step c toScore) evs s = some s' ∧ Served c d (past ++ evs) s' :=
  run_total_history (Served c d) (fun _ ev _ hs => by
    obtain ⟨s', hstep, hs', _⟩ := hs.step toScore ev
    exact ⟨s', hstep, hs'⟩) evs past s h

/-- **The message loop.** No run of arrivals and rounds of `OnProc` faults. In every state it
reaches the messages handled, and those that still wait, are the ones that have arrived and can be
read, in order; each that parses has been answered once, to its `src` and with its `client_pos`;
and the scores are what the requests handled so far have set, in order. -/
theorem run_served (c : MsgCodecs α) (toScore : ToScore α) (d : Db α) (h : d.Live)
    (evs : List (Event α)) :
    ∃ s, run (MsgLoop.step c toScore) evs (init d) = some s ∧ Served c d evs s :=
  (served_init c h).runs toScore evs

theorem run_served_two : Db.Live (Db.new : Db ℤ) ∧ ∃ s,
    run (MsgLoop.step setThenTop intScore) setThenTopEvents (init Db.new) = some s ∧
      Served setThenTop Db.new setThenTopEvents s :=
  ⟨dbLive_new, run_served setThenTop intScore Db.new dbLive_new setThenTopEvents⟩

/-- As many rounds as messages wait leave none. -/
theorem Served.drain {c : MsgCodecs α} (toScore : ToScore α) {d : Db α} :
    ∀ (envs : List (ℕ → MsgEnv α)) (past : List (Event α)) (s : MsgLoop α), Served c d past s →
      s.mq.pull.length ≤ envs.length →
      ∃ s', run (MsgLoop.step c toScore) (envs.map .onProc) s = some s' ∧
        Served c d (past ++ envs.map .onProc) s' ∧ s'.mq.pull = []
  | [], past, s, h, hlen =>
      ⟨s, rfl, by simpa using h, List.eq_nil_of_length_eq_zero (Nat.le_zero.mp hlen)⟩
  | env :: envs, past, s, h, hlen => by
      obtain ⟨s1, hstep, h1, htakes⟩ := h.step toScore (.onProc env)
      have hlen1 : s1.mq.pull.length ≤ envs.length := by
        rw [List.length_cons] at hlen
        simp only at htakes
        omega
      obtain ⟨s', hrun, h', hnil⟩ := Served.drain toScore envs _ s1 h1 hlen1
      exact ⟨s', run_cons.mpr ⟨s1, hstep, hrun⟩, by simpa using h', hnil⟩

/-- **Nothing waits for ever.** After every run, as many further rounds of `OnProc` as messages
wait handle everything that has arrived and can be read. -/
theorem run_drains (c : MsgCodecs α) (toScore : ToScore α) (d : Db α) (h : d.Live)
    (evs : List (Event α)) :
    ∃ s, run (MsgLoop.step c toScore) evs (init d) = some s ∧
      ∀ envs : List (ℕ → MsgEnv α), s.mq.pull.length ≤ envs.length →
        ∃ s', run (MsgLoop.step c toScore) (evs ++ envs.map .onProc) (init d) = some s' ∧
          s'.mq.pull = [] ∧ s'.handled = (arrived evs).filter fun m => decide (Readable m) := by
  obtain ⟨s, hrun, hs⟩ := (served_init c h).runs toScore evs
  refine ⟨s, hrun, fun envs hlen => ?_⟩
  obtain ⟨s', hmore, h', hnil⟩ := Served.drain toScore envs evs s hs hlen
  refine ⟨s', run_append.mpr ⟨s, hrun, hmore⟩, hnil, ?_⟩
  have harr : arrived (evs ++ envs.map .onProc) = arrived evs := by
    simp [arrived, List.filterMap_append]
  have hall := h'.inOrder
  rwa [hnil, harr, List.filter_nil, List.append_nil] at hall

theorem run_drains_two : Db.Live (Db.new : Db ℤ) ∧ ∃ s,
    run (MsgLoop.step setThenTop intScore) setThenTopEvents (init Db.new) = some s ∧
      ∀ envs : List (ℕ → MsgEnv ℤ), s.mq.pull.length ≤ envs.length →
        ∃ s', run (MsgLoop.step setThenTop intScore) (setThenTopEvents ++ envs.map .onProc)
            (init Db.new) = some s' ∧ s'.mq.pull = [] ∧
          s'.handled = (arrived setThenTopEvents).filter fun m => decide (Readable m) :=
  ⟨dbLive_new, run_drains setThenTop intScore Db.new dbLive_new setThenTopEvents⟩

end MsgLoop

end LibC
