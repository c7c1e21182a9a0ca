/-
LibC.Proxy.LoopTheorems — which connections are in `objTaskMap` when the main
loop starts over.

`HldAllEvs` asks `IsTerminate` after each handler it calls, and removes the
connection. `OnMqRecv` does not ask: a response that cannot be written
terminates its connection, and the connection stays in the table
(`failed_response_stays`). It is the only way in which one gets there:
`run_noDead` says for every run in which no such `writev` fails that the table
never holds a terminated connection.

No `sorry`, no `axiom`, no `native_decide`.
-/
import LibC.Proxy.RoutingTheorems

namespace LibC

open LibC.Lib

/-! ## Sending a response -/

/-- Without a failing `writev` a flush ends well. -/
theorem flushLoop_zero {app : AppData} {Q : List BufferSequence → List Bytes → Prop}
    (hQ : FlushInv app Q) (rets : List WritevRet) (queue : List BufferSequence) (accepted : Bytes) :
    ∀ ds, Q queue ds → .fail ∉ rets → ∃ queue' accepted',
      Task.flushLoop app rets queue accepted = some (0, queue', accepted') := by
  fun_induction Task.flushLoop app rets queue accepted with
  | case1 => exact fun _ _ _ => ⟨_, _, rfl⟩
  | case2 rets bs queue accepted hempty ih =>
      intro ds h hrets
      obtain ⟨d, ds, rfl, _⟩ := hQ.cons h
      exact ih ds (hQ.tail h) hrets
  | case3 rets bs queue accepted hempty hvec =>
      intro ds h _
      obtain ⟨d, ds, rfl, hd⟩ := hQ.cons h
      obtain ⟨vec, hvec', _⟩ := hd.initIoVec
      rw [hvec] at hvec'
      cases hvec'
  | case4 => exact fun _ _ _ => ⟨_, _, rfl⟩
  | case5 => exact fun _ _ _ => ⟨_, _, rfl⟩
  | case6 => exact fun _ _ hrets => absurd List.mem_cons_self hrets
  | case7 bs queue accepted hempty n0 rets vec hvec n hn =>
      -- a sequence that is not empty has bytes to write
      intro ds h _
      obtain ⟨d, ds, rfl, hd⟩ := hQ.cons h
      obtain ⟨_, hvec', hflat⟩ := hd.initIoVec
      obtain rfl := Option.some.inj (hvec.symm.trans hvec')
      have hnil : d = [] := by
        refine List.eq_nil_of_length_eq_zero ?_
        rw [← hflat]
        simp only [n] at hn
        omega
      exact absurd (hd.empty_iff.mpr hnil) hempty
  | case8 bs queue accepted hempty n0 rets vec hvec n hn hdone ih =>
      intro ds h hrets
      obtain ⟨d, ds, rfl, _⟩ := hQ.cons h
      exact ih ds (hQ.tail h) fun hmem => hrets (List.mem_cons_of_mem _ hmem)
  | case9 bs queue accepted hempty n0 rets vec hvec n hn hmore ih =>
      intro ds h hrets
      obtain ⟨d, ds, rfl, hd⟩ := hQ.cons h
      obtain ⟨_, hvec', hflat⟩ := hd.initIoVec
      obtain rfl := Option.some.inj (hvec.symm.trans hvec')
      have hle : n ≤ d.length := hflat ▸ Nat.min_le_right _ _
      exact ih _ (hQ.advance h hle) fun hmem => hrets (List.mem_cons_of_mem _ hmem)

namespace Task

/-- Without a failing `writev` the connection stays alive. -/
theorem response_live {enqueued d : Bytes} {t : Task} {w : Wire} {bs : BufferSequence}
    (h : SendOk enqueued t w) (hlive : t.isTerminate = false)
    (hbs : bs.Holds t.objCmd.strAppData d) {junk : UInt32} {rets : List WritevRet}
    (hrets : .fail ∉ rets) {t' : Task} {w' : Wire}
    (hrun : response junk rets bs t w = some (t', w')) : t'.isTerminate = false := by
  obtain ⟨ds, hsolid, _⟩ := h.live hlive
  obtain ⟨queue', accepted', hloop⟩ := flushLoop_zero (flushInv_backed t.objCmd.strAppData) rets
    (t.sendQueue ++ [bs]) w.accepted _ (hsolid.backed hbs) hrets
  have hflush : flushSendQueue rets { t with sendQueue := t.sendQueue ++ [bs] } w =
      some (0, { t with sendQueue := queue' }, { w with accepted := accepted' }) := by
    have hnot : ¬ ({ t with sendQueue := t.sendQueue ++ [bs] } : Task).isTerminate = true := by
      change ¬ t.isTerminate = true
      simp [hlive]
    rw [flushSendQueue, if_neg hnot, hloop]
    rfl
  rw [response, hflush] at hrun
  simp only [Option.bind_eq_bind, Option.bind_some, Int.lt_irrefl, if_false] at hrun
  cases hlast : queue'.getLast? with
  | none =>
      rw [hlast] at hrun
      cases hrun
      exact hlive
  | some back =>
      rw [hlast] at hrun
      obtain ⟨back', _, heq⟩ := Option.bind_eq_some_iff.mp hrun
      cases heq
      exact hlive

/-- The same for `OnMQRecv`. -/
theorem onMQRecv_live {enqueued : Bytes} {t : Task} {w : Wire} (h : SendOk enqueued t w)
    (hlive : t.isTerminate = false) {junk : UInt32} {rets : List WritevRet}
    (hrets : .fail ∉ rets) {msg : MsgTransApp} {t' : Task} {w' : Wire}
    (hrun : onMQRecv junk rets msg t w = some (t', w')) : t'.isTerminate = false := by
  obtain ⟨bs, hser, hbs⟩ := (responseCmd msg t).serializeBs_spec
  have hser' : ((t.objCmd.clear.setCmdId msg.cmdId.toUInt32.toUInt16).setAppData
      msg.appData).serializeBs = some bs := hser
  rw [onMQRecv, hser'] at hrun
  exact response_live (t := { t with objCmd := responseCmd msg t }) ⟨h.pre, h.live⟩ hlive hbs hrets
    hrun

end Task

namespace World

/-! ## The table -/

/-- No terminated connection is in the table. -/
def NoDead (w : World) : Prop :=
  ∀ pos conn, w.findTask pos = some conn → conn.task.isTerminate = false

/-- No `writev` of the response fails. -/
def Pick.Sends (p : Pick) : Prop := .fail ∉ p.rets

/-- No `writev` of a response fails, and no socket is accepted with the descriptor of the
standard input. -/
def Event.Safe : Event → Prop
  | .accept (.ok fd _) => 0 < fd
  | .epoll _ ev => ∀ i, ev.inp = some i → ∀ p ∈ i.2.2, p.Sends
  | .mqRecv picks => ∀ p ∈ picks, p.Sends
  | _ => True

/-- The same of all that happens in an iteration. -/
def Iteration.Safe (it : Iteration) : Prop :=
  (∀ ev ∈ it.evs.val, ev.Safe) ∧ ∀ p ∈ it.picks, p.Sends

theorem noDead_init : NoDead init := by
  intro pos conn h
  cases h

theorem NoDead.removeTask {w : World} (h : NoDead w) (pos : UInt32) :
    NoDead (w.removeTask pos) := by
  intro q conn hq
  rw [findTask, World.removeTask, Dict.find_erase] at hq
  split at hq
  · cases hq
  · exact h q conn hq

theorem NoDead.putTask {w : World} (h : NoDead w) {pos : UInt32} {c : Conn}
    (hc : c.task.isTerminate = false) : NoDead (w.putTask pos c) := by
  intro q conn hq
  rw [findTask, World.putTask, Dict.find_modify] at hq
  split at hq
  · obtain ⟨_, _, rfl⟩ := Option.map_eq_some_iff.mp hq
    exact hc
  · exact h q conn hq

/-- The end of a handler removes the connection that the handler has terminated. -/
theorem NoDead.settle {w : World} (h : NoDead w) (pos : UInt32) (conn : Conn) :
    NoDead (w.settle pos conn) := by
  rw [World.settle]
  split
  · exact h.removeTask pos
  · next hlive => exact h.putTask (by simpa using hlive)

theorem NoDead.acceptTask {w : World} (h : NoDead w) {ret : AcceptRet}
    (hsafe : (Event.accept ret).Safe) : NoDead (w.acceptTask ret) := by
  cases ret with
  | fail => exact h
  | ok fd mask =>
      intro q conn hq
      rcases Dict.find_insert_cases hq with hq | ⟨_, rfl⟩
      · exact h q conn hq
      · exact decide_eq_false (Int.not_le.mpr hsafe)

theorem objTaskMap_doCmds (cfg : Config) (conn : Conn) : ∀ (cmds : List Cmd) (sent : List Bool)
    (w : World), (doCmds cfg conn cmds sent w).objTaskMap = w.objTaskMap
  | [], _, _ => rfl
  | cmd :: cmds, sent, w => by
      rw [doCmds]
      split
      · exact objTaskMap_doCmds cfg conn cmds sent w
      · split
        · exact objTaskMap_doCmds cfg conn cmds sent.tail _
        · exact objTaskMap_doCmds cfg conn cmds sent.tail w

theorem NoDead.doCmds {w : World} (h : NoDead w) (cfg : Config) (conn : Conn) (cmds : List Cmd)
    (sent : List Bool) : NoDead (doCmds cfg conn cmds sent w) := by
  intro pos c hc
  rw [findTask, objTaskMap_doCmds] at hc
  exact h pos c hc

/-! ## Responses -/

theorem NoDead.deliver {w w' : World} (h : NoDead w) (hok : WorldOk w) {p : Pick} (hp : p.Sends)
    {f : Flight} (hrun : deliver p f w = some w') : NoDead w' := by
  rw [World.deliver] at hrun
  cases hfind : findTask f.msg.clientPos.toUInt32 w with
  | none =>
      rw [hfind] at hrun
      cases hrun
      exact h
  | some conn =>
      rw [hfind] at hrun
      obtain ⟨⟨task, wire⟩, hresp, heq⟩ := Option.bind_eq_some_iff.mp hrun
      cases heq
      obtain ⟨frames, hsend⟩ := (hok.conns _ conn hfind).sends
      have hlive := Task.onMQRecv_live hsend (h _ conn hfind) hp hresp
      exact h.putTask (c := { conn with task, wire }) hlive

theorem NoDead.onMqRecv : ∀ (picks : List Pick) {w w' : World}, NoDead w → WorldOk w →
    (∀ p ∈ picks, p.Sends) → onMqRecv picks w = some w' → NoDead w'
  | [], _, _, h, _, _, hrun => by
      cases hrun
      exact h
  | p :: picks, w, w', h, hok, hsafe, hrun => by
      have hrest : ∀ q ∈ picks, q.Sends := fun q hq => hsafe q (List.mem_cons_of_mem _ hq)
      rw [World.onMqRecv] at hrun
      cases hf : w.toProxy[p.index]? with
      | none =>
          rw [hf] at hrun
          exact NoDead.onMqRecv picks h hok hrest hrun
      | some f =>
          rw [hf] at hrun
          obtain ⟨w1, hdel, hrun'⟩ := Option.bind_eq_some_iff.mp hrun
          have hlose := loseResponse_ok hok p.index
          obtain ⟨_, hdel', hok1, _⟩ := deliver_ok hlose p
            (hok.responses f (List.mem_of_getElem? hf)) (tokens_takeResponse hok hf)
          obtain rfl := Option.some.inj (hdel.symm.trans hdel')
          have h0 : NoDead { w with toProxy := w.toProxy.eraseIdx p.index } := h
          exact NoDead.onMqRecv picks (h0.deliver hlose (hsafe p List.mem_cons_self) hdel) hok1
            hrest hrun'

/-! ## The main loop -/

theorem NoDead.hldEv {w w' : World} (h : NoDead w) (hok : WorldOk w) {cfg : Config} {pos : UInt32}
    {ev : EpollEv} (hsafe : (Event.epoll pos ev).Safe) (hrun : hldEv cfg pos ev w = some w') :
    NoDead w' := by
  rw [World.hldEv] at hrun
  cases hfind : findTask pos w with
  | none =>
      rw [hfind] at hrun
      cases hrun
      exact h
  | some conn =>
      rw [hfind] at hrun
      obtain ⟨⟨conn1, w1⟩, hout, hrun⟩ := Option.bind_eq_some_iff.mp hrun
      obtain ⟨w2, hin, heq⟩ := Option.bind_eq_some_iff.mp hrun
      cases heq
      obtain ⟨_, _, hout', hok1, _, hc1⟩ := hldOut_ok hok (hok.conns pos conn hfind) ev.out
      obtain ⟨rfl, rfl⟩ := Prod.mk.inj (Option.some.inj (hout.symm.trans hout'))
      -- after `OnSockWriteHdl`
      have h1 : NoDead w1 := by
        cases hev : ev.out with
        | none =>
            rw [hev] at hout
            cases hout
            exact h
        | some o =>
            rw [hev] at hout
            obtain ⟨⟨task, wire⟩, _, heq⟩ := Option.bind_eq_some_iff.mp hout
            cases heq
            exact h.settle pos _
      -- after `OnSockReadHdl` and the responses
      have h2 : NoDead w2 := by
        cases hev : ev.inp with
        | none =>
            rw [hev] at hin
            cases hin
            exact h1
        | some i =>
            rw [hev] at hin
            obtain ⟨frames, hsend⟩ := hc1.sends
            obtain ⟨hcmds, hacc⟩ := doCmds_ok cfg (conn1.task.onSockReadHdl i.1).2 i.2.1 hok1 hc1
            have huPos := (Task.onSockReadHdl_frame i.1 conn1.task).uPos.trans hc1.uPos
            have hc2 : ConnOk w1.accepted pos
                { conn1 with task := (conn1.task.onSockReadHdl i.1).1 } :=
              ⟨hc1.lt, hc1.eq_posOf, huPos, _, Task.onSockReadHdl_spec hsend i.1⟩
            rw [← hacc] at hc2
            exact NoDead.onMqRecv i.2.2 ((h1.doCmds cfg conn1 _ _).settle pos _)
              (settle_ok hcmds hc2) (hsafe i hev) hin
      split
      · exact h2.removeTask pos
      · exact h2

theorem NoDead.step {w w' : World} (h : NoDead w) (hok : WorldOk w) {cfg : Config} {ev : Event}
    (hsafe : ev.Safe) (hrun : step cfg ev w = some w') : NoDead w' := by
  cases ev with
  | accept ret => cases hrun; exact h.acceptTask hsafe
  | epoll pos ev => exact h.hldEv hok hsafe hrun
  | mqRecv picks => exact NoDead.onMqRecv picks h hok hsafe hrun
  | request k index =>
      cases hrun
      rw [processMQMsg]
      split <;> exact h
  | respone k data =>
      cases hrun
      rw [World.respone]
      split <;> exact h
  | loseRequest index => cases hrun; exact h
  | loseResponse index => cases hrun; exact h

/-- A run of events that are safe. -/
theorem run_safe (cfg : Config) : ∀ (evs : List Event) {w : World}, WorldOk w → NoDead w →
    (∀ ev ∈ evs, ev.Safe) → ∃ w', run (step cfg) evs w = some w' ∧ WorldOk w' ∧ NoDead w'
  | [], w, hok, h, _ => ⟨w, rfl, hok, h⟩
  | ev :: evs, w, hok, h, hsafe => by
      obtain ⟨w1, hstep, hok1⟩ := step_ok cfg ev hok
      have h1 := h.step hok (hsafe ev List.mem_cons_self) hstep
      obtain ⟨w2, hrun, h2⟩ :=
        run_safe cfg evs hok1 h1 fun e he => hsafe e (List.mem_cons_of_mem _ he)
      exact ⟨w2, run_cons.mpr ⟨w1, hstep, hrun⟩, h2⟩

theorem iterate_safe (cfg : Config) {it : Iteration} (hsafe : it.Safe) {w : World} (hok : WorldOk w)
    (h : NoDead w) : ∃ w', iterate cfg it w = some w' ∧ WorldOk w' ∧ NoDead w' := by
  obtain ⟨w1, hrun, hok1, h1⟩ := run_safe cfg it.evs.val hok h hsafe.1
  obtain ⟨w2, hmq, hok2, _⟩ := onMqRecv_ok it.picks hok1
  exact ⟨w2, by simp [iterate, hrun, hmq], hok2, NoDead.onMqRecv it.picks h1 hok1 hsafe.2 hmq⟩

theorem iterations_safe (cfg : Config) : ∀ (its : List Iteration) {w : World}, WorldOk w →
    NoDead w → (∀ it ∈ its, it.Safe) →
      ∃ w', run (iterate cfg) its w = some w' ∧ WorldOk w' ∧ NoDead w'
  | [], w, hok, h, _ => ⟨w, rfl, hok, h⟩
  | it :: its, w, hok, h, hsafe => by
      obtain ⟨w1, hit, hok1, h1⟩ := iterate_safe cfg (hsafe it List.mem_cons_self) hok h
      obtain ⟨w2, hrun, h2⟩ :=
        iterations_safe cfg its hok1 h1 fun e he => hsafe e (List.mem_cons_of_mem _ he)
      exact ⟨w2, run_cons.mpr ⟨w1, hit, hrun⟩, h2⟩

/-- **Dead connections.** When no `writev` of a response fails, and no socket is accepted
with the descriptor of the standard input, no terminated connection is in the table at the
start of an iteration, nor after any of the events of the iteration. -/
theorem run_noDead (cfg : Config) (its : List Iteration) (hits : ∀ it ∈ its, it.Safe)
    (evs : List Event) (hevs : ∀ ev ∈ evs, ev.Safe) :
    ∃ w w', run (iterate cfg) its init = some w ∧ NoDead w ∧
      run (step cfg) evs w = some w' ∧ NoDead w' := by
  obtain ⟨w, hrun, hok, h⟩ := iterations_safe cfg its init_ok noDead_init hits
  obtain ⟨w', hrun', _, h'⟩ := run_safe cfg evs hok h hevs
  exact ⟨w, w', hrun, h, hrun', h'⟩

/-- A client asks, and the response comes back in the next iteration. -/
def askingRun (rets : List WritevRet) : List Iteration :=
  let request := Cmd.serialize ⟨7, 0, 0, ⟨[42], 0⟩⟩
  [⟨⟨[.accept (.ok 5 epollIn)], by decide⟩, []⟩,
    ⟨⟨[.epoll 1 ⟨none, some ([.got request], [true], []), false⟩, .request 0 0, .respone 0 [1]],
      by decide⟩, []⟩,
    ⟨⟨[], by decide⟩, [⟨0, 0, rets⟩]⟩]

/-- The response is written, and the client hangs up. -/
theorem run_noDead_asking :
    (∀ it ∈ askingRun [.wrote 8], it.Safe) ∧ ∃ w w',
      run (iterate ⟨fun _ _ => [1], []⟩) (askingRun [.wrote 8]) init = some w ∧ NoDead w ∧
        run (step ⟨fun _ _ => [1], []⟩) [.epoll 1 ⟨none, none, true⟩] w = some w' ∧ NoDead w' := by
  have hsafe : ∀ it ∈ askingRun [.wrote 8], it.Safe := by
    simp only [askingRun, Iteration.Safe, Event.Safe, Pick.Sends, List.forall_mem_cons]
    simp
  refine ⟨hsafe, run_noDead _ _ hsafe _ ?_⟩
  simp [Event.Safe]

/-- The response cannot be written: the connection is terminated, and is in the table at the
start of the next iteration. -/
theorem failed_response_stays :
    ∃ w, run (iterate ⟨fun _ _ => [1], []⟩) (askingRun [.fail]) init = some w ∧ ¬ NoDead w := by
  have hrun : ((run (iterate ⟨fun _ _ => [1], []⟩) (askingRun [.fail]) init).bind fun w =>
      (w.findTask 1).map fun conn => conn.task.isTerminate) = some true := by decide +kernel
  obtain ⟨w, hw, hfind⟩ := Option.bind_eq_some_iff.mp hrun
  obtain ⟨conn, hconn, hdead⟩ := Option.map_eq_some_iff.mp hfind
  refine ⟨w, hw, fun h => ?_⟩
  rw [h 1 conn hconn] at hdead
  cases hdead

end World

end LibC
