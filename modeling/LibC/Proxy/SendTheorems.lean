/-
LibC.Proxy.SendTheorems — the send path of a connection.

A response that is put into the queue borrows the application data of the
command object. Every handler leaves a queue whose bytes no longer depend on it
(`Solid`); while a response is being sent, only the last sequence of the queue
does (`Backed`), and that is the one `Response` solidifies.

`flushLoop_spec` follows the bytes through a flush: what the socket accepts and
what is left in the queue are what was in the queue before. `run_send` says for
every run of the handlers that nothing is lost, repeated or put in another order,
and that a queue which is not empty is waiting for `EPOLLOUT`.

No `sorry`, no `axiom`, no `native_decide`.
-/
import LibC.Lib.Run
import LibC.Proxy.BufferTheorems
import LibC.Proxy.RecvTheorems

namespace LibC

open LibC.Lib

/-! ## Frames -/

/-- The checksum of a command: of its head with checksum `0`, and its application data. -/
def Cmd.sum (c : Cmd) : UInt16 :=
  (([Cmd.msgHead (UInt32.ofNat (sizeofMsgHead + c.strAppData.bytes.length)) c.uCmdId 0,
    c.strAppData.bytes].filter fun d => d ≠ []).foldl BufferSequence.sumBuffer (0, none)).1

/-- The frame of a command, with its checksum. -/
def Cmd.frame (c : Cmd) : Bytes := { c with uCheck := c.sum }.serialize

/-- The sequence of a head and the application data. -/
def Cmd.sequence (c : Cmd) (check : UInt16) : BufferSequence :=
  ⟨[.ofDynamic (Cmd.msgHead (UInt32.ofNat (sizeofMsgHead + c.strAppData.bytes.length)) c.uCmdId
    check), .ofApp c.strAppData], 0 + 8 + c.strAppData.bytes.length⟩

theorem Cmd.forall₂_sequence (c : Cmd) (check : UInt16) :
    List.Forall₂ (StaticBuffer.Holds c.strAppData) (c.sequence check).buffers
      [Cmd.msgHead (UInt32.ofNat (sizeofMsgHead + c.strAppData.bytes.length)) c.uCmdId check,
        c.strAppData.bytes] :=
  .cons (StaticBuffer.holds_ofDynamic _ _) (.cons (StaticBuffer.holds_ofApp _) .nil)

/-- A sequence holds the frame with its checksum. -/
theorem Cmd.holds_sequence (c : Cmd) (check : UInt16) :
    (c.sequence check).Holds c.strAppData { c with uCheck := check }.serialize := by
  refine ⟨_, c.forall₂_sequence check, by simp [Cmd.serialize], ?_⟩
  rw [Cmd.length_serialize]
  rfl

/-- `CheckSum` of the sequence. -/
theorem Cmd.checkSum_sequence (c : Cmd) :
    (c.sequence 0).checkSum c.strAppData = some c.sum := by
  have hpos : (c.sequence 0).totalSize ≠ 0 := by
    rw [Cmd.sequence]
    simp only
    omega
  rw [BufferSequence.checkSum, if_neg hpos, BufferSequence.initIoVec,
    BufferSequence.mapM_str (c.forall₂_sequence 0)]
  rfl

/-- `Serialize` into a sequence gives the frame. -/
theorem Cmd.serializeBs_spec (c : Cmd) :
    ∃ bs, c.serializeBs = some bs ∧ bs.Holds c.strAppData c.frame := by
  refine ⟨c.sequence c.sum, ?_, c.holds_sequence c.sum⟩
  have hrun : c.serializeBs = ((c.sequence 0).checkSum c.strAppData).bind fun check =>
      some (c.sequence check) := rfl
  rw [hrun, c.checkSum_sequence, Option.bind_some]

/-! ## The queue -/

/-- Every sequence of the queue holds its bytes whatever the application data. -/
def Solid (queue : List BufferSequence) (ds : List Bytes) : Prop :=
  List.Forall₂ (fun bs d => ∀ app, bs.Holds app d) queue ds

/-- Every sequence of the queue but the last one holds its bytes whatever the application
data; the last one holds them as long as it is `app`. -/
def Backed (app : AppData) : List BufferSequence → List Bytes → Prop
  | [], [] => True
  | [bs], [d] => bs.Holds app d
  | bs :: queue, d :: ds => (∀ app', bs.Holds app' d) ∧ Backed app queue ds
  | _, _ => False

theorem not_backed_nil {app : AppData} {bs : BufferSequence} {queue : List BufferSequence} :
    ¬ Backed app (bs :: queue) [] := by
  cases queue <;> exact id

theorem Solid.backed : ∀ {queue : List BufferSequence} {ds : List Bytes}, Solid queue ds →
    ∀ {app : AppData} {bs : BufferSequence} {d : Bytes}, bs.Holds app d →
      Backed app (queue ++ [bs]) (ds ++ [d])
  | [], _, h, _, _, _, hb => by cases h; exact hb
  | [q], _, .cons hq h, _, _, _, hb => by cases h; exact ⟨hq, hb⟩
  | q :: q' :: queue, _, .cons hq (.cons hq' h), _, _, _, hb =>
      ⟨hq, Solid.backed (.cons hq' h) hb⟩

/-- The first sequence of the queue. -/
theorem Backed.head {app : AppData} : ∀ {bs : BufferSequence} {queue : List BufferSequence}
    {d : Bytes} {ds : List Bytes}, Backed app (bs :: queue) (d :: ds) → bs.Holds app d
  | _, [], _, [], h => h
  | _, _ :: _, _, [], h => absurd h.2 not_backed_nil
  | _, _ :: _, _, _ :: _, h => h.1 app

/-- The queue without its first sequence. -/
theorem Backed.tail {app : AppData} : ∀ {bs : BufferSequence} {queue : List BufferSequence}
    {d : Bytes} {ds : List Bytes}, Backed app (bs :: queue) (d :: ds) → Backed app queue ds
  | _, [], _, [], _ => trivial
  | _, _ :: _, _, [], h => absurd h.2 not_backed_nil
  | _, _ :: _, _, _ :: _, h => h.2

/-- `Advance` of the first sequence. -/
theorem Backed.advance {app : AppData} : ∀ {bs : BufferSequence} {queue : List BufferSequence}
    {d : Bytes} {ds : List Bytes}, Backed app (bs :: queue) (d :: ds) → ∀ {n : ℕ}, n ≤ d.length →
      Backed app (bs.advance n :: queue) (d.drop n :: ds)
  | _, [], _, [], h, _, hn => BufferSequence.Holds.advance h hn
  | _, _ :: _, _, [], h, _, _ => absurd h.2 not_backed_nil
  | _, _ :: _, _, _ :: _, h, _, hn => ⟨fun app' => (h.1 app').advance hn, h.2⟩

/-- `Solidify` of the last sequence. -/
theorem Backed.solidify {app : AppData} : ∀ {queue : List BufferSequence} {ds : List Bytes},
    Backed app queue ds → queue ≠ [] → ∃ back back', queue.getLast? = some back ∧
      back.solidify app = some back' ∧ Solid (queue.dropLast ++ [back']) ds
  | [], _, _, hne => absurd rfl hne
  | [bs], [d], h, _ => by
      obtain ⟨bs', hsolid, h'⟩ := BufferSequence.Holds.solidify h
      exact ⟨bs, bs', rfl, hsolid, .cons h' .nil⟩
  | _ :: _ :: _, [_], h, _ => absurd h.2 not_backed_nil
  | bs :: bs2 :: queue, d :: d2 :: ds, h, _ => by
      obtain ⟨back, back', hlast, hsolid, h'⟩ := Backed.solidify h.2 (List.cons_ne_nil _ _)
      exact ⟨back, back', by rw [List.getLast?_cons_cons]; exact hlast, hsolid, .cons h.1 h'⟩

/-- What a flush may rely on and keeps: the first sequence can be read, and dropping or
advancing it is allowed. -/
structure FlushInv (app : AppData) (Q : List BufferSequence → List Bytes → Prop) : Prop where
  nil : ∀ {ds}, Q [] ds → ds = []
  cons : ∀ {bs queue ds}, Q (bs :: queue) ds → ∃ d ds', ds = d :: ds' ∧ bs.Holds app d
  tail : ∀ {bs queue d ds}, Q (bs :: queue) (d :: ds) → Q queue ds
  advance : ∀ {bs queue d ds}, Q (bs :: queue) (d :: ds) → ∀ {n}, n ≤ d.length →
    Q (bs.advance n :: queue) (d.drop n :: ds)

theorem flushInv_solid (app : AppData) : FlushInv app Solid where
  nil h := by cases h; rfl
  cons h := by cases h with | cons hd _ => exact ⟨_, _, rfl, hd app⟩
  tail h := by cases h with | cons _ ht => exact ht
  advance h _ hn := by
    cases h with | cons hd ht => exact .cons (fun app' => (hd app').advance hn) ht

theorem flushInv_backed (app : AppData) : FlushInv app (Backed app) where
  nil {ds} h := by cases ds with
    | nil => rfl
    | cons d ds => exact absurd h id
  cons {bs queue ds} h := by cases ds with
    | nil => exact absurd h not_backed_nil
    | cons d ds => exact ⟨d, ds, rfl, h.head⟩
  tail h := h.tail
  advance h _ hn := h.advance hn

/-- The loop of `FlushSendQueue`: what was accepted and what is left is what there was. -/
theorem flushLoop_spec {app : AppData} {Q : List BufferSequence → List Bytes → Prop}
    (hQ : FlushInv app Q) (rets : List WritevRet) (queue : List BufferSequence) (accepted : Bytes) :
    ∀ ds, Q queue ds → ∃ ret queue' accepted' ds',
      Task.flushLoop app rets queue accepted = some (ret, queue', accepted') ∧ Q queue' ds' ∧
        accepted' ++ ds'.flatten = accepted ++ ds.flatten := by
  fun_induction Task.flushLoop app rets queue accepted with
  | case1 rets accepted =>
      intro ds h
      obtain rfl := hQ.nil h
      exact ⟨0, [], accepted, [], rfl, h, rfl⟩
  | case2 rets bs queue accepted hempty ih =>
      intro ds h
      obtain ⟨d, ds, rfl, hd⟩ := hQ.cons h
      obtain ⟨ret, queue', accepted', ds', hrun, h', hbytes⟩ := ih ds (hQ.tail h)
      refine ⟨ret, queue', accepted', ds', hrun, h', ?_⟩
      rw [hbytes, List.flatten_cons, hd.empty_iff.mp hempty, List.nil_append]
  | case3 rets bs queue accepted hempty hvec =>
      -- no sequence of the queue dangles
      intro ds h
      obtain ⟨d, ds, rfl, hd⟩ := hQ.cons h
      obtain ⟨vec, hvec', _⟩ := hd.initIoVec
      rw [hvec] at hvec'
      cases hvec'
  | case4 => exact fun ds h => ⟨_, _, _, ds, rfl, h, rfl⟩
  | case5 => exact fun ds h => ⟨_, _, _, ds, rfl, h, rfl⟩
  | case6 => exact fun ds h => ⟨_, _, _, ds, rfl, h, rfl⟩
  | case7 => exact fun ds h => ⟨_, _, _, ds, rfl, h, rfl⟩
  | case8 bs queue accepted hempty n0 rets vec hvec n hn hdone ih =>
      -- the first sequence is sent to its end
      intro ds h
      obtain ⟨d, ds, rfl, hd⟩ := hQ.cons h
      obtain ⟨_, hvec', hflat⟩ := hd.initIoVec
      obtain rfl := Option.some.inj (hvec.symm.trans hvec')
      have hle : n ≤ d.length := hflat ▸ Nat.min_le_right _ _
      obtain ⟨ret, queue', accepted', ds', hrun, h', hbytes⟩ := ih ds (hQ.tail h)
      refine ⟨ret, queue', accepted', ds', hrun, h', ?_⟩
      have hrest := (hd.advance hle).empty_iff.mp hdone
      have htake := List.take_append_drop n d
      rw [hrest, List.append_nil] at htake
      rw [hbytes, hflat, htake, List.flatten_cons, List.append_assoc]
  | case9 bs queue accepted hempty n0 rets vec hvec n hn hmore ih =>
      -- some bytes of it are left
      intro ds h
      obtain ⟨d, ds, rfl, hd⟩ := hQ.cons h
      obtain ⟨_, hvec', hflat⟩ := hd.initIoVec
      obtain rfl := Option.some.inj (hvec.symm.trans hvec')
      have hle : n ≤ d.length := hflat ▸ Nat.min_le_right _ _
      obtain ⟨ret, queue', accepted', ds', hrun, h', hbytes⟩ :=
        ih (d.drop n :: ds) (hQ.advance h hle)
      refine ⟨ret, queue', accepted', ds', hrun, h', ?_⟩
      rw [hbytes, hflat, List.flatten_cons, List.flatten_cons, List.append_assoc,
        ← List.append_assoc (d.take n), List.take_append_drop]

namespace Task

/-- The state between two handlers, when the frames `enqueued` have been put into the
queue. -/
structure SendOk (enqueued : Bytes) (t : Task) (w : Wire) : Prop where
  pre : w.accepted <+: enqueued
  live : t.isTerminate = false → ∃ ds, Solid t.sendQueue ds ∧ w.accepted ++ ds.flatten = enqueued ∧
    (t.sendQueue ≠ [] → w.mask &&& epollOut ≠ 0)

theorem isTerminate_terminate (t : Task) : t.terminate.isTerminate = true := by
  rw [terminate]
  split
  · assumption
  · rfl

@[simp] theorem sendQueue_terminate (t : Task) : t.terminate.sendQueue = t.sendQueue := by
  rw [terminate]
  split <;> rfl

@[simp] theorem uPos_terminate (t : Task) : t.terminate.uPos = t.uPos := by
  rw [terminate]
  split <;> rfl

@[simp] theorem objCmd_terminate (t : Task) : t.terminate.objCmd = t.objCmd := by
  rw [terminate]
  split <;> rfl

/-- A connection that has been terminated: nothing is written any more. -/
theorem SendOk.of_dead {enqueued : Bytes} {t : Task} {w : Wire} (hpre : w.accepted <+: enqueued)
    (hdead : t.isTerminate = true) : SendOk enqueued t w :=
  ⟨hpre, fun hlive => by rw [hdead] at hlive; cases hlive⟩

/-- A new connection. -/
theorem sendOk_new (uPos : UInt32) (iSock : Int) (mask : UInt32) :
    SendOk [] (Task.new uPos iSock) ⟨[], mask⟩ :=
  ⟨List.prefix_refl _, fun _ => ⟨[], .nil, rfl, fun hne => absurd rfl hne⟩⟩

/-- `FlushSendQueue`. -/
theorem flushSendQueue_spec {Q : List BufferSequence → List Bytes → Prop} {t : Task}
    (hQ : FlushInv t.objCmd.strAppData Q) (rets : List WritevRet) (w : Wire)
    (hlive : t.isTerminate = false) {ds : List Bytes} (h : Q t.sendQueue ds) :
    ∃ ret t' w' ds', flushSendQueue rets t w = some (ret, t', w') ∧ Q t'.sendQueue ds' ∧
      w'.accepted ++ ds'.flatten = w.accepted ++ ds.flatten ∧ w'.mask = w.mask ∧
      t'.objCmd = t.objCmd ∧ t'.uPos = t.uPos := by
  obtain ⟨ret, queue', accepted', ds', hrun, h', hbytes⟩ :=
    flushLoop_spec hQ rets t.sendQueue w.accepted ds h
  have hflush : flushSendQueue rets t w = some (ret,
      if ret = -1 then ({ t with sendQueue := queue' } : Task).terminate
      else { t with sendQueue := queue' }, { w with accepted := accepted' }) := by
    rw [flushSendQueue, if_neg (by rw [hlive]; decide), hrun]
    rfl
  by_cases hret : ret = -1
  · rw [if_pos hret] at hflush
    exact ⟨ret, _, _, ds', hflush, by rwa [sendQueue_terminate], hbytes, rfl, objCmd_terminate _,
      uPos_terminate _⟩
  · rw [if_neg hret] at hflush
    exact ⟨ret, _, _, ds', hflush, h', hbytes, rfl, rfl, rfl⟩

/-- Registering for `EPOLLOUT`, whatever was in the event before. -/
theorem epollMod_epollOut (junk mask : UInt32) (w : Wire) :
    (epollMod junk (mask ||| epollOut) w).mask &&& epollOut ≠ 0 := by
  have hself : (junk ||| (mask ||| epollOut ||| epollEt)) &&& epollOut = epollOut := by
    apply UInt32.toBitVec_inj.mp
    ext i hi
    simp only [UInt32.toBitVec_and, UInt32.toBitVec_or, BitVec.getElem_and, BitVec.getElem_or]
    cases epollOut.toBitVec[i] <;> simp
  rw [epollMod, hself]
  decide

/-- `Response`. -/
theorem response_spec {enqueued d : Bytes} {t : Task} {w : Wire} {bs : BufferSequence}
    (h : SendOk enqueued t w) (hbs : bs.Holds t.objCmd.strAppData d) (junk : UInt32)
    (rets : List WritevRet) :
    ∃ t' w', response junk rets bs t w = some (t', w') ∧ t'.uPos = t.uPos ∧
      SendOk (enqueued ++ d) t' w' := by
  by_cases hdead : t.isTerminate = true
  · -- the flush fails at once
    refine ⟨({ t with sendQueue := t.sendQueue ++ [bs] } : Task).terminate, w, ?_,
      uPos_terminate _, .of_dead (h.pre.trans (List.prefix_append _ _)) (isTerminate_terminate _)⟩
    have hflush : flushSendQueue rets { t with sendQueue := t.sendQueue ++ [bs] } w =
        some (-1, { t with sendQueue := t.sendQueue ++ [bs] }, w) := if_pos hdead
    rw [response, hflush]
    rfl
  · have hlive : t.isTerminate = false := by simpa using hdead
    obtain ⟨ds, hsolid, hbytes, _⟩ := h.live hlive
    obtain ⟨ret, t', w', ds', hflush, hback, hbytes', hmask, hcmd, hpos⟩ :=
      flushSendQueue_spec (t := { t with sendQueue := t.sendQueue ++ [bs] })
        (flushInv_backed t.objCmd.strAppData) rets w hlive (hsolid.backed hbs)
    have hall : w'.accepted ++ ds'.flatten = enqueued ++ d := by
      rw [hbytes', List.flatten_append, ← List.append_assoc, hbytes]
      simp
    have hpre : w'.accepted <+: enqueued ++ d := ⟨_, hall⟩
    by_cases hret : ret < 0
    · exact ⟨t'.terminate, w', by simp [response, hflush, hret], (uPos_terminate _).trans hpos,
        .of_dead hpre (isTerminate_terminate _)⟩
    · by_cases hnil : t'.sendQueue = []
      · have hds : ds' = [] := (flushInv_backed _).nil (hnil ▸ hback)
        refine ⟨t', w', by simp [response, hflush, hret, hnil], hpos, hpre, fun _ => ?_⟩
        exact ⟨[], by rw [hnil]; exact .nil, by rw [← hall, hds], fun hne => absurd hnil hne⟩
      · obtain ⟨back, back', hlast, hsol, hsolid'⟩ := hback.solidify hnil
        rw [← hcmd] at hsol
        refine ⟨{ t' with sendQueue := t'.sendQueue.dropLast ++ [back'] },
          epollMod junk (epollIn ||| epollOut) w', ?_, hpos, hpre, fun _ => ?_⟩
        · simp [response, hflush, hret, hlast, hsol]
        · exact ⟨ds', hsolid', hall, fun _ => epollMod_epollOut _ _ _⟩

/-- `OnMQRecv` puts the frame of the response behind the others. -/
def responseCmd (msg : MsgTransApp) (t : Task) : Cmd :=
  (t.objCmd.clear.setCmdId msg.cmdId.toUInt32.toUInt16).setAppData msg.appData

theorem onMQRecv_spec {enqueued : Bytes} {t : Task} {w : Wire} (h : SendOk enqueued t w)
    (junk : UInt32) (rets : List WritevRet) (msg : MsgTransApp) :
    ∃ t' w', onMQRecv junk rets msg t w = some (t', w') ∧ t'.uPos = t.uPos ∧
      SendOk (enqueued ++ (responseCmd msg t).frame) t' w' := by
  obtain ⟨bs, hser, hbs⟩ := (responseCmd msg t).serializeBs_spec
  obtain ⟨t', w', hrun, hpos, h'⟩ := response_spec (t := { t with objCmd := responseCmd msg t })
    ⟨h.pre, h.live⟩ hbs junk rets
  refine ⟨t', w', ?_, hpos, h'⟩
  have hser' : ((t.objCmd.clear.setCmdId msg.cmdId.toUInt32.toUInt16).setAppData
      msg.appData).serializeBs = some bs := hser
  rw [onMQRecv, hser']
  exact hrun

/-- `OnSockWriteHdl`. -/
theorem onSockWriteHdl_spec {enqueued : Bytes} {t : Task} {w : Wire} (h : SendOk enqueued t w)
    (junk : UInt32) (rets : List WritevRet) :
    ∃ t' w', onSockWriteHdl junk rets t w = some (t', w') ∧ t'.uPos = t.uPos ∧
      SendOk enqueued t' w' := by
  by_cases hdead : t.isTerminate = true
  · have hflush : flushSendQueue rets t w = some (-1, t, w) := if_pos hdead
    refine ⟨t.terminate, w, ?_, uPos_terminate t, .of_dead h.pre (isTerminate_terminate _)⟩
    rw [onSockWriteHdl, hflush]
    rfl
  · have hlive : t.isTerminate = false := by simpa using hdead
    obtain ⟨ds, hsolid, hbytes, hout⟩ := h.live hlive
    obtain ⟨ret, t', w', ds', hflush, hsolid', hbytes', hmask, _, hpos⟩ :=
      flushSendQueue_spec (flushInv_solid t.objCmd.strAppData) rets w hlive hsolid
    have hall : w'.accepted ++ ds'.flatten = enqueued := hbytes'.trans hbytes
    have hpre : w'.accepted <+: enqueued := ⟨_, hall⟩
    by_cases hret : ret < 0
    · exact ⟨t'.terminate, w', by simp [onSockWriteHdl, hflush, hret],
        (uPos_terminate _).trans hpos, .of_dead hpre (isTerminate_terminate _)⟩
    · by_cases hnil : t'.sendQueue = []
      · refine ⟨t', epollMod junk epollIn w', by simp [onSockWriteHdl, hflush, hret, hnil], hpos,
          hpre, fun _ => ⟨ds', hsolid', hall, fun hne => absurd hnil hne⟩⟩
      · refine ⟨t', w', by simp [onSockWriteHdl, hflush, hret, hnil], hpos, hpre,
          fun _ => ⟨ds', hsolid', hall, fun _ => ?_⟩⟩
        -- a queue that is not empty now was not empty before
        rw [hmask]
        refine hout fun hempty => hnil ?_
        have hidle : flushSendQueue rets t w = some (0, { t with sendQueue := [] }, w) := by
          simp [flushSendQueue, hlive, hempty, flushLoop]
        rw [hidle] at hflush
        cases hflush
        rfl

/-! ## Reading -/

/-- What reading leaves alone: the position, the queue; and it revives no connection. -/
structure ReadFrame (t t' : Task) : Prop where
  uPos : t'.uPos = t.uPos
  sendQueue : t'.sendQueue = t.sendQueue
  live : t'.isTerminate = false → t.isTerminate = false

theorem ReadFrame.refl (t : Task) : ReadFrame t t := ⟨rfl, rfl, id⟩

theorem ReadFrame.trans {t u v : Task} (h : ReadFrame t u) (h' : ReadFrame u v) :
    ReadFrame t v :=
  ⟨h'.uPos.trans h.uPos, h'.sendQueue.trans h.sendQueue, fun hl => h.live (h'.live hl)⟩

theorem ReadFrame.terminate (t : Task) : ReadFrame t t.terminate := by
  refine ⟨?_, sendQueue_terminate t, fun hl => ?_⟩
  · rw [Task.terminate]
    split <;> rfl
  · rw [isTerminate_terminate] at hl
    cases hl

theorem recvLoop_frame : ∀ (rets : List RecvRet) (t : Task), ReadFrame t (recvLoop rets t)
  | [], t => .refl t
  | ret :: rets, t => by
      by_cases hroom : t.recvBuff.remain > 0
      · cases ret with
        | got data =>
            rw [recvLoop, if_pos hroom]
            by_cases hd : data.length = 0
            · simp only [if_pos hd]
              exact .terminate t
            · simp only [if_neg hd]
              exact ReadFrame.trans (u := { t with recvBuff := (t.recvBuff.advance data).2 })
                ⟨rfl, rfl, id⟩ (recvLoop_frame rets _)
        | again =>
            rw [recvLoop, if_pos hroom]
            exact .refl t
        | fail =>
            rw [recvLoop, if_pos hroom]
            exact .terminate t
      · have hfull : recvLoop (ret :: rets) t = t := by
          cases ret <;> rw [recvLoop, if_neg hroom]
        rw [hfull]
        exact .refl t

theorem handleLoop_frame : ∀ (fuel : ℕ) (t : Task), ReadFrame t (handleLoop fuel t).1
  | 0, t => .refl t
  | fuel + 1, t => by
      rw [handleLoop]
      split
      · obtain ⟨rv, cmd⟩ := t.objCmd.clear.parse t.recvBuff.used
        have hcmd : ReadFrame t { t with objCmd := cmd } := ⟨rfl, rfl, id⟩
        by_cases hneg : rv < 0
        · simp only [if_pos hneg]
          exact hcmd.trans (.terminate _)
        · by_cases hzero : rv = 0
          · simp only [if_neg hneg, if_pos hzero]
            exact hcmd
          · simp only [if_neg hneg, if_neg hzero]
            exact ReadFrame.trans (u := { t with
              objCmd := cmd
              recvBuff := (t.recvBuff.memMoveLeft rv.toNat).2 }) ⟨rfl, rfl, id⟩
              (handleLoop_frame fuel _)
      · exact .refl t

theorem onSockReadHdl_frame (rets : List RecvRet) (t : Task) :
    ReadFrame t (t.onSockReadHdl rets).1 := by
  refine ReadFrame.trans (u := t.recv rets) ?_ (handleLoop_frame _ _)
  rw [recv]
  split
  · exact .refl t
  · exact recvLoop_frame rets t

/-- `OnSockReadHdl` assigns to the command object, and the queue does not notice. -/
theorem onSockReadHdl_spec {enqueued : Bytes} {t : Task} {w : Wire} (h : SendOk enqueued t w)
    (rets : List RecvRet) : SendOk enqueued (t.onSockReadHdl rets).1 w := by
  have hf := onSockReadHdl_frame rets t
  refine ⟨h.pre, fun hlive => ?_⟩
  rw [hf.sendQueue]
  exact h.live (hf.live hlive)

end Task

/-! ## Runs -/

/-- A handler of a connection, with what the socket answers. -/
inductive TaskOp where
  | mqRecv (junk : UInt32) (rets : List WritevRet) (msg : MsgTransApp)
  | sockRead (rets : List RecvRet)
  | sockWrite (junk : UInt32) (rets : List WritevRet)

/-- The connection after it. -/
def TaskOp.step : TaskOp → Task × Wire → Option (Task × Wire)
  | .mqRecv junk rets msg, (t, w) => t.onMQRecv junk rets msg w
  | .sockRead rets, (t, w) => some ((t.onSockReadHdl rets).1, w)
  | .sockWrite junk rets, (t, w) => t.onSockWriteHdl junk rets w

/-- The frame that a response is serialized into. -/
def responseFrame (msg : MsgTransApp) : Bytes :=
  Cmd.frame ⟨msg.cmdId.toUInt32.toUInt16, 0, 0, ⟨msg.appData, 0⟩⟩

/-- The frames serialized in a run, in order. -/
def responseFrames : List TaskOp → Bytes
  | [] => []
  | .mqRecv _ _ msg :: ops => responseFrame msg ++ responseFrames ops
  | _ :: ops => responseFrames ops

/-- One handler. -/
theorem TaskOp.step_spec (o : TaskOp) {enqueued : Bytes} {t : Task} {w : Wire}
    (h : Task.SendOk enqueued t w) :
    ∃ t' w', o.step (t, w) = some (t', w') ∧
      Task.SendOk (enqueued ++ responseFrames [o]) t' w' := by
  cases o with
  | mqRecv junk rets msg =>
      obtain ⟨t', w', hrun, _, h'⟩ := Task.onMQRecv_spec h junk rets msg
      have hframe : responseFrames [.mqRecv junk rets msg] = (Task.responseCmd msg t).frame :=
        List.append_nil _
      exact ⟨t', w', hrun, by rw [hframe]; exact h'⟩
  | sockRead rets =>
      exact ⟨_, w, rfl, by simpa [responseFrames] using Task.onSockReadHdl_spec h rets⟩
  | sockWrite junk rets =>
      obtain ⟨t', w', hrun, _, h'⟩ := Task.onSockWriteHdl_spec h junk rets
      exact ⟨t', w', hrun, by simpa [responseFrames] using h'⟩

end LibC
