/-
LibC.Proxy.RoutingTheorems — responses reach only the connection that asked.

Positions are handed out in turn and start over after `2 ^ 32 - 1` connections
(`posOf`), so a position says which connection is meant up to that many. What a
message carries, in flight or in `transApp`, is the position of the connection
its request was read from (`Addressed`). The numbers of the requests are tokens:
one is issued when a request is forwarded, and it travels with the request and
its response until it is recorded or lost, so no response is enqueued twice.

`WorldOk` is the invariant. One lemma per function of the model says that it
keeps it, `step_ok` puts them together, and `run_routing` is what follows for
every run.

No `sorry`, no `axiom`, no `native_decide`.
-/
import LibC.Lib.Run
import LibC.Lib.Tokens
import LibC.Proxy.Routing
import LibC.Proxy.SendTheorems
import Mathlib.Algebra.Order.Ring.Int
import Mathlib.Data.List.Perm.Basic

namespace LibC

open LibC.Lib

namespace World

/-! ## Positions -/

/-- How many positions there are. -/
def positions : ℕ := 2 ^ 32 - 1

/-- The position of the connection with number `id`. -/
def posOf (id : ℕ) : UInt32 := UInt32.ofNat (id % positions + 1)

/-- `iPosCnt` after `n` connections. -/
def cntOf : ℕ → UInt32
  | 0 => 0
  | n + 1 => posOf n

theorem toNat_posOf (id : ℕ) : (posOf id).toNat = id % positions + 1 := by
  have hlt : id % positions < positions := Nat.mod_lt _ (by decide)
  rw [posOf, UInt32.toNat_ofNat', Nat.mod_eq_of_lt]
  simp only [positions] at hlt ⊢
  omega

/-- Two connections share a position only when a whole round lies between them. -/
theorem posOf_eq {a b : ℕ} (h : posOf a = posOf b) : a % positions = b % positions := by
  have h' := congrArg UInt32.toNat h
  rw [toNat_posOf, toNat_posOf] at h'
  exact Nat.succ_inj.mp h'

/-- Within one round positions are not reused. -/
theorem posOf_inj {n a b : ℕ} (hn : n ≤ positions) (ha : a < n) (hb : b < n)
    (h : posOf a = posOf b) : a = b := by
  have h' := posOf_eq h
  rwa [Nat.mod_eq_of_lt (Nat.lt_of_lt_of_le ha hn), Nat.mod_eq_of_lt (Nat.lt_of_lt_of_le hb hn)]
    at h'

/-- The counter skips `LISTEN_TASK_POS`. -/
theorem nextPos_cntOf (n : ℕ) : nextPos (cntOf n) = posOf n := by
  cases n with
  | zero => decide
  | succ n =>
      have hlt : n % positions < positions := Nat.mod_lt _ (by decide)
      have hcnt : (cntOf (n + 1)).toNat = n % positions + 1 := toNat_posOf n
      have hadd : (cntOf (n + 1) + 1).toNat = (n % positions + 2) % 2 ^ 32 := by
        rw [UInt32.toNat_add, hcnt]
        rfl
      have hmod : (n + 1) % positions = (n % positions + 1) % positions := by
        rw [Nat.add_mod, Nat.mod_eq_of_lt (show 1 < positions by decide)]
      apply UInt32.toNat_inj.mp
      rw [toNat_posOf, hmod, nextPos]
      by_cases hwrap : n % positions + 1 = positions
      · have hzero : cntOf (n + 1) + 1 = listenTaskPos := by
          apply UInt32.toNat_inj.mp
          rw [hadd]
          simp only [positions] at hwrap ⊢
          rw [show n % (2 ^ 32 - 1) + 2 = 2 ^ 32 by omega]
          rfl
        rw [if_pos hzero, hzero, hwrap, Nat.mod_self]
        rfl
      · have hlt' : n % positions + 2 < 2 ^ 32 := by
          simp only [positions] at hwrap hlt ⊢
          omega
        have hne : cntOf (n + 1) + 1 ≠ listenTaskPos := by
          intro h
          have h' := congrArg UInt32.toNat h
          rw [hadd, Nat.mod_eq_of_lt hlt'] at h'
          cases h'
        have hlt'' : n % positions + 1 < positions := Nat.lt_of_le_of_ne hlt hwrap
        rw [if_neg hne, hadd, Nat.mod_eq_of_lt hlt', Nat.mod_eq_of_lt hlt'']

/-! ## The invariant -/

/-- A connection in the map: it was accepted, it stands at its position, and its send
queue is in order. -/
structure ConnOk (accepted : ℕ) (pos : UInt32) (conn : Conn) : Prop where
  lt : conn.id < accepted
  eq_posOf : pos = posOf conn.id
  uPos : conn.task.uPos = pos
  sends : ∃ frames, Task.SendOk frames conn.task conn.wire

/-- A message carries the position of the connection that asked. -/
structure Addressed (accepted : ℕ) (forwarded : List Tag) (tag : Tag) (msg : MsgTransApp) :
    Prop where
  lt : tag.conn < accepted
  issued : forwarded[tag.req]? = some tag
  pos : msg.clientPos.toUInt32 = posOf tag.conn

/-- The record of a response: it went to a connection at the position of the one that
asked. -/
structure Logged (accepted : ℕ) (forwarded : List Tag) (e : ℕ × Tag) : Prop where
  lt : e.1 < accepted
  lt_conn : e.2.conn < accepted
  issued : forwarded[e.2.req]? = some e.2
  pos : posOf e.1 = posOf e.2.conn

/-- The requests that are in flight, either way, or answered. -/
def loose (w : World) : List ℕ :=
  (w.toBackends.map fun f => f.tag.req) ++
    ((w.toProxy.map fun f => f.tag.req) ++ w.enqueued.map fun e => e.2.req)

/-- The request a server is handling. -/
def held (w : World) (k : ℕ) : Option ℕ := (w.backends k).handling.map Tag.req

/-- The invariant. -/
structure WorldOk (w : World) : Prop where
  cnt : w.iPosCnt = cntOf w.accepted
  conns : ∀ pos conn, w.findTask pos = some conn → ConnOk w.accepted pos conn
  requests : ∀ f ∈ w.toBackends, Addressed w.accepted w.forwarded f.tag f.msg
  responses : ∀ f ∈ w.toProxy, Addressed w.accepted w.forwarded f.tag f.msg
  busy : ∀ k tag, (w.backends k).handling = some tag →
    Addressed w.accepted w.forwarded tag (w.backends k).transApp
  log : ∀ e ∈ w.enqueued, Logged w.accepted w.forwarded e
  tokens : Tokens w.loose w.held w.forwarded.length

theorem init_ok : WorldOk init where
  cnt := rfl
  conns pos conn h := by cases h
  requests f hf := by cases hf
  responses f hf := by cases hf
  busy k tag h := by cases h
  log e he := by cases he
  tokens := Tokens.init

/-- What an operation leads to: no fault, the invariant, and no new connection. -/
def Keeps (w : World) (o : Option World) : Prop :=
  ∃ w', o = some w' ∧ WorldOk w' ∧ w'.accepted = w.accepted

theorem WorldOk.keeps {w : World} (h : WorldOk w) : Keeps w (some w) := ⟨w, rfl, h, rfl⟩

/-! ## The map -/

/-- Any map of connections that are in order. -/
theorem WorldOk.withMap {w : World} (h : WorldOk w) {m : Dict UInt32 Conn}
    (hm : ∀ pos conn, m.find pos = some conn → ConnOk w.accepted pos conn) :
    WorldOk { w with objTaskMap := m } :=
  ⟨h.cnt, hm, h.requests, h.responses, h.busy, h.log, h.tokens⟩

theorem removeTask_ok {w : World} (h : WorldOk w) (pos : UInt32) : WorldOk (w.removeTask pos) := by
  refine h.withMap fun q conn hq => h.conns q conn ?_
  rw [Dict.find_erase] at hq
  split at hq
  · cases hq
  · exact hq

theorem putTask_ok {w : World} (h : WorldOk w) {pos : UInt32} {c : Conn}
    (hc : ConnOk w.accepted pos c) : WorldOk (w.putTask pos c) := by
  refine h.withMap fun q conn hq => ?_
  rw [Dict.find_modify] at hq
  split at hq
  · next heq =>
      obtain ⟨_, _, rfl⟩ := Option.map_eq_some_iff.mp hq
      exact heq ▸ hc
  · exact h.conns q conn hq

theorem settle_ok {w : World} (h : WorldOk w) {pos : UInt32} {conn : Conn}
    (hc : ConnOk w.accepted pos conn) : WorldOk (w.settle pos conn) := by
  rw [settle]
  split
  · exact removeTask_ok h pos
  · exact putTask_ok h hc

theorem accepted_settle (w : World) (pos : UInt32) (conn : Conn) :
    (w.settle pos conn).accepted = w.accepted := by
  rw [settle]
  split <;> rfl

/-! ## Accepting -/

theorem ConnOk.mono {n m : ℕ} {pos : UInt32} {conn : Conn} (h : ConnOk n pos conn) (hnm : n ≤ m) :
    ConnOk m pos conn :=
  ⟨Nat.lt_of_lt_of_le h.lt hnm, h.eq_posOf, h.uPos, h.sends⟩

theorem Addressed.mono {n m : ℕ} {fw : List Tag} {tag : Tag} {msg : MsgTransApp}
    (h : Addressed n fw tag msg) (hnm : n ≤ m) : Addressed m fw tag msg :=
  ⟨Nat.lt_of_lt_of_le h.lt hnm, h.issued, h.pos⟩

theorem Logged.mono {n m : ℕ} {fw : List Tag} {e : ℕ × Tag} (h : Logged n fw e) (hnm : n ≤ m) :
    Logged m fw e :=
  ⟨Nat.lt_of_lt_of_le h.lt hnm, Nat.lt_of_lt_of_le h.lt_conn hnm, h.issued, h.pos⟩

theorem acceptTask_ok {w : World} (h : WorldOk w) (ret : AcceptRet) :
    WorldOk (w.acceptTask ret) := by
  have hpos : nextPos w.iPosCnt = posOf w.accepted := by rw [h.cnt, nextPos_cntOf]
  have hle := Nat.le_succ w.accepted
  have hcount : WorldOk { w with iPosCnt := nextPos w.iPosCnt, accepted := w.accepted + 1 } :=
    ⟨hpos, fun pos conn hc => (h.conns pos conn hc).mono hle,
      fun f hf => (h.requests f hf).mono hle, fun f hf => (h.responses f hf).mono hle,
      fun k tag hk => (h.busy k tag hk).mono hle, fun e he => (h.log e he).mono hle, h.tokens⟩
  cases ret with
  | fail => exact hcount
  | ok fd mask =>
      refine hcount.withMap fun q conn hq => ?_
      rcases Dict.find_insert_cases hq with hq | ⟨rfl, rfl⟩
      · exact hcount.conns q conn hq
      · exact ⟨Nat.lt_succ_self _, hpos, rfl, [], Task.sendOk_new _ _ _⟩

/-! ## Forwarding -/

/-- An earlier request keeps its number. -/
theorem issued_append {fw : List Tag} {i : ℕ} {tag : Tag} (h : fw[i]? = some tag)
    (fw' : List Tag) : (fw ++ fw')[i]? = some tag := by
  obtain ⟨hi, -⟩ := List.getElem?_eq_some_iff.mp h
  rw [List.getElem?_append_left hi, h]

/-- A message of `DoCmd` carries the position of its connection. -/
theorem doCmd_clientPos {getKeyId : Bytes → UInt16 → Bytes} {pullAddr : Bytes} {cmd : Cmd}
    {t : Task} {msg : MsgTransApp} (h : t.doCmd getKeyId pullAddr cmd = some msg) :
    msg.clientPos = t.uPos.toInt32 := by
  rw [Task.doCmd] at h
  split at h <;> cases h
  rfl

/-- A request of a connection is sent. -/
theorem forward_ok {w : World} (h : WorldOk w) {pos : UInt32} {conn : Conn}
    (hc : ConnOk w.accepted pos conn) {msg : MsgTransApp}
    (hmsg : msg.clientPos = conn.task.uPos.toInt32) :
    WorldOk { w with
      toBackends := w.toBackends ++ [⟨⟨conn.id, w.forwarded.length⟩, msg⟩]
      forwarded := w.forwarded ++ [⟨conn.id, w.forwarded.length⟩] } := by
  have hold : ∀ {tag m}, Addressed w.accepted w.forwarded tag m →
      Addressed w.accepted (w.forwarded ++ [⟨conn.id, w.forwarded.length⟩]) tag m :=
    fun ha => ⟨ha.lt, issued_append ha.issued _, ha.pos⟩
  refine ⟨h.cnt, h.conns, fun f hf => ?_, fun f hf => hold (h.responses f hf),
    fun k tag hk => hold (h.busy k tag hk), fun e he => ?_, ?_⟩
  · rcases List.mem_append.mp hf with hf | hf
    · exact hold (h.requests f hf)
    · obtain rfl := List.mem_singleton.mp hf
      refine ⟨hc.lt, List.getElem?_concat_length, ?_⟩
      rw [hmsg, UInt32.toUInt32_toInt32, hc.uPos, hc.eq_posOf]
  · have hl := h.log e he
    exact ⟨hl.lt, hl.lt_conn, issued_append hl.issued _, hl.pos⟩
  · rw [List.length_append]
    refine h.tokens.issue.perm ?_
    simp only [loose, List.map_append, List.map_cons, List.map_nil, List.append_assoc,
      List.singleton_append]
    exact List.perm_middle.symm

theorem doCmds_ok (cfg : Config) {pos : UInt32} {conn : Conn} : ∀ (cmds : List Cmd)
    (sent : List Bool) {w : World}, WorldOk w → ConnOk w.accepted pos conn →
      WorldOk (doCmds cfg conn cmds sent w) ∧ (doCmds cfg conn cmds sent w).accepted = w.accepted
  | [], _, _, h, _ => ⟨h, rfl⟩
  | cmd :: cmds, sent, w, h, hc => by
      cases hmsg : conn.task.doCmd cfg.getKeyId cfg.pullAddr cmd with
      | none =>
          simp only [doCmds, hmsg]
          exact doCmds_ok cfg cmds sent h hc
      | some msg =>
          simp only [doCmds, hmsg]
          split
          · exact doCmds_ok cfg cmds sent.tail (forward_ok h hc (doCmd_clientPos hmsg)) hc
          · exact doCmds_ok cfg cmds sent.tail h hc

/-! ## Messages in flight -/

/-- Taking an element out of a list. -/
theorem perm_eraseIdx {α β : Type} {l : List α} {i : ℕ} {a : α} (h : l[i]? = some a) (f : α → β) :
    (l.map f).Perm (f a :: (l.eraseIdx i).map f) := by
  obtain ⟨hi, rfl⟩ := List.getElem?_eq_some_iff.mp h
  exact ((List.getElem_cons_eraseIdx_perm hi).map f).symm

/-- A request leaves the network: its number is free. -/
theorem tokens_takeRequest {w : World} (h : WorldOk w) {i : ℕ} {f : Flight}
    (hf : w.toBackends[i]? = some f) :
    Tokens (f.tag.req :: loose { w with toBackends := w.toBackends.eraseIdx i }) w.held
      w.forwarded.length :=
  h.tokens.perm ((perm_eraseIdx hf _).append_right _)

/-- A response leaves the network: its number is free. -/
theorem tokens_takeResponse {w : World} (h : WorldOk w) {i : ℕ} {f : Flight}
    (hf : w.toProxy[i]? = some f) :
    Tokens (f.tag.req :: loose { w with toProxy := w.toProxy.eraseIdx i }) w.held
      w.forwarded.length :=
  h.tokens.perm ((((perm_eraseIdx hf _).append_right _).append_left _).trans List.perm_middle)

theorem loseRequest_ok {w : World} (h : WorldOk w) (i : ℕ) :
    WorldOk { w with toBackends := w.toBackends.eraseIdx i } := by
  cases hf : w.toBackends[i]? with
  | none => rwa [List.eraseIdx_of_length_le (List.getElem?_eq_none_iff.mp hf)]
  | some f =>
      exact ⟨h.cnt, h.conns, fun g hg => h.requests g (List.mem_of_mem_eraseIdx hg), h.responses,
        h.busy, h.log, (tokens_takeRequest h hf).drop⟩

theorem loseResponse_ok {w : World} (h : WorldOk w) (i : ℕ) :
    WorldOk { w with toProxy := w.toProxy.eraseIdx i } := by
  cases hf : w.toProxy[i]? with
  | none => rwa [List.eraseIdx_of_length_le (List.getElem?_eq_none_iff.mp hf)]
  | some f =>
      exact ⟨h.cnt, h.conns, h.requests, fun g hg => h.responses g (List.mem_of_mem_eraseIdx hg),
        h.busy, h.log, (tokens_takeResponse h hf).drop⟩

/-- A response is dropped, or enqueued on the connection at its position. -/
theorem deliver_ok {w : World} (h : WorldOk w) (p : Pick) {f : Flight}
    (hf : Addressed w.accepted w.forwarded f.tag f.msg)
    (htok : Tokens (f.tag.req :: w.loose) w.held w.forwarded.length) :
    Keeps w (deliver p f w) := by
  rw [deliver]
  cases hfind : findTask f.msg.clientPos.toUInt32 w with
  | none => exact h.keeps
  | some conn =>
      have hc := h.conns _ conn hfind
      obtain ⟨frames, hsend⟩ := hc.sends
      obtain ⟨task, wire, hrun, hpos, hsend'⟩ := Task.onMQRecv_spec hsend p.junk p.rets f.msg
      have hput := putTask_ok h (c := { conn with task, wire })
        ⟨hc.lt, hc.eq_posOf, hpos.trans hc.uPos, _, hsend'⟩
      simp only [hrun]
      refine ⟨_, rfl, ⟨hput.cnt, hput.conns, hput.requests, hput.responses, hput.busy,
        fun e he => ?_, ?_⟩, rfl⟩
      · rcases List.mem_append.mp he with he | he
        · exact h.log e he
        · obtain rfl := List.mem_singleton.mp he
          exact ⟨hc.lt, hf.lt, hf.issued, hc.eq_posOf.symm.trans hf.pos⟩
      · refine htok.perm ?_
        simp only [loose, putTask, List.map_append, List.map_cons, List.map_nil,
          ← List.append_assoc]
        exact (List.perm_append_singleton _ _).symm

theorem onMqRecv_ok : ∀ (picks : List Pick) {w : World}, WorldOk w → Keeps w (onMqRecv picks w)
  | [], _, h => h.keeps
  | p :: picks, w, h => by
      rw [onMqRecv]
      cases hf : w.toProxy[p.index]? with
      | none => exact onMqRecv_ok picks h
      | some f =>
          obtain ⟨w', hrun, hok, hacc⟩ := deliver_ok (loseResponse_ok h p.index) p
            (h.responses f (List.mem_of_getElem? hf)) (tokens_takeResponse h hf)
          obtain ⟨w'', hrest, hok', hacc'⟩ := onMqRecv_ok picks hok
          exact ⟨w'', by simp [hrun, hrest], hok', hacc'.trans hacc⟩

/-! ## Events of a descriptor -/

theorem hldOut_ok {w : World} (h : WorldOk w) {pos : UInt32} {conn : Conn}
    (hc : ConnOk w.accepted pos conn) (out : Option (UInt32 × List WritevRet)) :
    ∃ conn' w', hldOut pos conn w out = some (conn', w') ∧ WorldOk w' ∧
      w'.accepted = w.accepted ∧ ConnOk w'.accepted pos conn' := by
  cases out with
  | none => exact ⟨conn, w, rfl, h, rfl, hc⟩
  | some o =>
      obtain ⟨junk, rets⟩ := o
      obtain ⟨frames, hsend⟩ := hc.sends
      obtain ⟨task, wire, hrun, hpos, hsend'⟩ := Task.onSockWriteHdl_spec hsend junk rets
      have hc' : ConnOk w.accepted pos { conn with task, wire } :=
        ⟨hc.lt, hc.eq_posOf, hpos.trans hc.uPos, _, hsend'⟩
      have hacc := accepted_settle w pos { conn with task, wire }
      exact ⟨{ conn with task, wire }, _, by simp [hldOut, hrun], settle_ok h hc', hacc,
        by rwa [hacc]⟩

theorem hldIn_ok (cfg : Config) {w : World} (h : WorldOk w) {pos : UInt32} {conn : Conn}
    (hc : ConnOk w.accepted pos conn) (inp : Option (List RecvRet × List Bool × List Pick)) :
    Keeps w (hldIn cfg pos conn w inp) := by
  cases inp with
  | none => exact h.keeps
  | some i =>
      obtain ⟨rets, sent, picks⟩ := i
      obtain ⟨frames, hsend⟩ := hc.sends
      have hc' : ConnOk w.accepted pos { conn with task := (conn.task.onSockReadHdl rets).1 } :=
        ⟨hc.lt, hc.eq_posOf, (Task.onSockReadHdl_frame rets conn.task).uPos.trans hc.uPos, _,
          Task.onSockReadHdl_spec hsend rets⟩
      obtain ⟨hcmds, hacc⟩ := doCmds_ok cfg (conn.task.onSockReadHdl rets).2 sent h hc
      rw [← hacc] at hc'
      obtain ⟨w', hrun, hok, hacc'⟩ := onMqRecv_ok picks (settle_ok hcmds hc')
      exact ⟨w', hrun, hok, hacc'.trans ((accepted_settle _ _ _).trans hacc)⟩

theorem hldEv_ok (cfg : Config) {w : World} (h : WorldOk w) (pos : UInt32) (ev : EpollEv) :
    Keeps w (hldEv cfg pos ev w) := by
  rw [hldEv]
  cases hfind : findTask pos w with
  | none => exact h.keeps
  | some conn =>
      obtain ⟨conn', w1, hout, hok1, hacc1, hc1⟩ := hldOut_ok h (h.conns pos conn hfind) ev.out
      obtain ⟨w2, hin, hok2, hacc2⟩ := hldIn_ok cfg hok1 hc1 ev.inp
      refine ⟨if ev.err then removeTask pos w2 else w2, by simp [hout, hin], ?_, ?_⟩
      · split
        · exact removeTask_ok hok2 pos
        · exact hok2
      · split <;> exact hacc2.trans hacc1

/-! ## The back-end servers -/

/-- What is held when one server changes. -/
theorem held_update (w : World) (k : ℕ) (b : Backend) :
    held { w with backends := Function.update w.backends k b } =
      Function.update w.held k (b.handling.map Tag.req) :=
  funext fun j =>
    Function.apply_update (fun _ (b : Backend) => b.handling.map Tag.req) w.backends k b j

theorem busy_update {w : World} (h : WorldOk w) (k : ℕ) {b : Backend}
    (hb : ∀ tag, b.handling = some tag → Addressed w.accepted w.forwarded tag b.transApp) :
    ∀ j tag, (Function.update w.backends k b j).handling = some tag →
      Addressed w.accepted w.forwarded tag (Function.update w.backends k b j).transApp := by
  intro j tag hj
  by_cases hjk : j = k
  · subst hjk
    rw [Function.update_self] at hj ⊢
    exact hb tag hj
  · rw [Function.update_of_ne hjk] at hj ⊢
    exact h.busy j tag hj

theorem processMQMsg_ok {w : World} (h : WorldOk w) (k i : ℕ) : WorldOk (w.processMQMsg k i) := by
  rw [processMQMsg]
  cases hf : w.toBackends[i]? with
  | none => exact h
  | some f =>
      have hl := loseRequest_ok h i
      refine ⟨hl.cnt, hl.conns, hl.requests, hl.responses,
        busy_update h k fun tag htag => ?_, hl.log, ?_⟩
      · cases htag
        exact h.requests f (List.mem_of_getElem? hf)
      · exact held_update w k ⟨f.msg, some f.tag⟩ ▸ (tokens_takeRequest h hf).take k

/-- The response carries the position of the request that is handled. -/
theorem respone_ok {w : World} (h : WorldOk w) (k : ℕ) (data : Bytes) :
    WorldOk (w.respone k data) := by
  rw [respone]
  cases htag : (w.backends k).handling with
  | none => exact h
  | some tag =>
      refine ⟨h.cnt, h.conns, h.requests, fun f hf => ?_, busy_update h k (fun _ h => nomatch h),
        h.log, ?_⟩
      · rcases List.mem_append.mp hf with hf | hf
        · exact h.responses f hf
        · obtain rfl := List.mem_singleton.mp hf
          have hb := h.busy k tag htag
          exact ⟨hb.lt, hb.issued, hb.pos⟩
      · have hk : w.held k = some tag.req := by rw [held, htag]; rfl
        have hrel := held_update w k { w.backends k with handling := none } ▸ h.tokens.release hk
        refine hrel.perm ?_
        simp only [loose, List.map_append, List.map_cons, List.map_nil, List.append_assoc,
          List.singleton_append]
        exact List.perm_middle.symm.trans (List.perm_middle.symm.append_left _)

/-! ## Runs -/

theorem step_ok (cfg : Config) (ev : Event) {w : World} (h : WorldOk w) :
    ∃ w', step cfg ev w = some w' ∧ WorldOk w' := by
  have hkeeps : ∀ {o}, Keeps w o → ∃ w', o = some w' ∧ WorldOk w' :=
    fun ⟨w', hrun, hok, _⟩ => ⟨w', hrun, hok⟩
  cases ev with
  | accept ret => exact ⟨_, rfl, acceptTask_ok h ret⟩
  | epoll pos ev => exact hkeeps (hldEv_ok cfg h pos ev)
  | mqRecv picks => exact hkeeps (onMqRecv_ok picks h)
  | request k index => exact ⟨_, rfl, processMQMsg_ok h k index⟩
  | respone k data => exact ⟨_, rfl, respone_ok h k data⟩
  | loseRequest index => exact ⟨_, rfl, loseRequest_ok h index⟩
  | loseResponse index => exact ⟨_, rfl, loseResponse_ok h index⟩

/-- A response whose connection is gone is dropped. -/
theorem deliver_gone {w : World} (h : WorldOk w) (hfew : w.accepted ≤ positions) {f : Flight}
    (hf : f ∈ w.toProxy) (hgone : ∀ pos conn, w.findTask pos = some conn → conn.id ≠ f.tag.conn)
    (p : Pick) : deliver p f w = some w := by
  have ha := h.responses f hf
  rw [deliver]
  cases hfind : findTask f.msg.clientPos.toUInt32 w with
  | none => rfl
  | some conn =>
      have hc := h.conns _ conn hfind
      exact absurd (posOf_inj hfew hc.lt ha.lt (hc.eq_posOf.symm.trans ha.pos)) (hgone _ conn hfind)

/-- **Routing.** Every run of the proxy and the servers ends without a fault. When fewer
than `2 ^ 32 - 1` connections have been accepted, every response that was enqueued was
enqueued on the connection its request was read from; no request has been answered twice;
and a response whose connection is gone is dropped. -/
theorem run_routing (cfg : Config) (evs : List Event) :
    ∃ w, run (step cfg) evs init = some w ∧
      (w.accepted < 2 ^ 32 - 1 →
        (∀ conn tag, (conn, tag) ∈ w.enqueued →
          conn = tag.conn ∧ w.forwarded[tag.req]? = some tag) ∧
        (w.enqueued.map fun e => e.2.req).Nodup ∧
        ∀ f ∈ w.toProxy, (∀ pos conn, w.findTask pos = some conn → conn.id ≠ f.tag.conn) →
          ∀ p, deliver p f w = some w) := by
  obtain ⟨w, hrun, h⟩ := run_total WorldOk (fun ev _ => step_ok cfg ev) evs init init_ok
  refine ⟨w, hrun, fun hfew => ⟨fun conn tag he => ?_, ?_, fun f hf hgone p => ?_⟩⟩
  · have hl := h.log _ he
    exact ⟨posOf_inj (Nat.le_of_lt hfew) hl.lt hl.lt_conn hl.pos, hl.issued⟩
  · exact (List.nodup_append.mp (List.nodup_append.mp h.tokens.nodup).2.1).2.1
  · exact deliver_gone h (Nat.le_of_lt hfew) hf hgone p

/-- Two clients ask; the first one is closed, and a third one accepted, before the
responses are read. Only the second one gets a response. -/
def lateRun : List Event :=
  let request := Cmd.serialize ⟨7, 0, 0, ⟨[42], 0⟩⟩
  [.accept (.ok 5 epollIn), .accept (.ok 6 epollIn),
    .epoll 1 ⟨none, some ([.got request], [true], []), false⟩,
    .epoll 2 ⟨none, some ([.got request], [true], []), false⟩,
    .request 0 1, .request 1 0, .respone 0 [1], .respone 1 [2],
    .epoll 1 ⟨none, none, true⟩, .accept (.ok 5 epollIn), .mqRecv [⟨1, 0, []⟩, ⟨0, 0, []⟩]]

example : (run (step ⟨fun _ _ => [1], []⟩) lateRun init).map (fun w => w.enqueued) =
    some [(1, ⟨1, 1⟩)] := by decide +kernel

end World

end LibC
