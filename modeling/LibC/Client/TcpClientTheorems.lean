/-
LibC.Client.TcpClientTheorems — whose bytes a response is parsed from.

`send_and_recv` reads once, and takes what it gets for the whole frame. What is
left of a frame stays on the connection, which is used again, so that the next
call reads it (`split_frame`). A call that reads the whole frame leaves nothing
behind, and one that reads nothing gives the connection up: `Clean` is kept, and
`run_attributed` says what follows for every sequence of such calls.

No `sorry`, no `axiom`, no `native_decide`.
-/
import LibC.Client.TcpClient
import LibC.Proxy.RecvTheorems

namespace LibC

open LibC.Lib

/-! ## Reading -/

/-- A call that reads the whole stream at once, if it reads at all. -/
theorem TcpClient.recvLoop_whole {stream : List Answered} {length : ℕ} (hne : stream ≠ []) :
    ∀ rets : List ReadRet, (∀ n, .got n ∈ rets → stream.length ≤ min (n + 1) length) →
      TcpClient.recvLoop 0 rets ⟨[], length, stream⟩ = (-1, ⟨[], length, stream⟩) ∨
        TcpClient.recvLoop 0 rets ⟨[], length, stream⟩ = (0, ⟨stream, stream.length, []⟩) ∧
          stream.length ≤ length
  | [], _ => Or.inl rfl
  | .waitFail :: _, _ => Or.inl rfl
  | .eof :: _, _ => Or.inl rfl
  | .fail :: _, _ => Or.inl rfl
  | .intr :: rets, h => recvLoop_whole hne rets fun n hn => h n (List.mem_cons_of_mem _ hn)
  | .got n :: rets, h => by
      have hn := h n List.mem_cons_self
      have htake : stream.take (min (n + 1) length) = stream := List.take_of_length_le hn
      right
      exact ⟨by simp [TcpClient.recvLoop, htake, hne], Nat.le_trans hn (Nat.min_le_right _ _)⟩

namespace Client

/-- The requests fit into `sendBuff`, and a `read` that gives anything gives the whole
frame. -/
structure Whole (c : ClientCall) : Prop where
  request : sizeofMsgHead + c.strReq.length ≤ maxBuffLen
  frame : ∀ n, .got n ∈ c.reads → c.answer.serialize.length ≤ min (n + 1) maxBuffLen

/-- What call `i` has done is right: when it returns `0`, the response was parsed from the
application data of the frame that answers the call; when that frame was not read as a
whole, it returns a negative value; and it has read no byte of another frame. -/
structure Attributed (i : ℕ) (c : ClientCall) (o : CallOutcome) : Prop where
  parsed : o.ret = 0 → o.parsed = some c.answer.strAppData.bytes ∧ o.taken = answerTo i c
  negative : o.taken ≠ answerTo i c → o.ret < 0
  own : ∀ x ∈ o.taken, x.1 = i

/-- Nothing of an earlier answer is left on the connection the next call uses. -/
def Clean (s : Client) : Prop := s.cli.checkConnect < 0 ∨ s.cli.stream = []

theorem length_request (c : ClientCall) : (request c).length = sizeofMsgHead + c.strReq.length := by
  rw [request, List.length_append]
  rfl

theorem length_answerTo (i : ℕ) (c : ClientCall) :
    (answerTo i c).length = c.answer.serialize.length := by
  simp [answerTo]

theorem answerTo_ne_nil (i : ℕ) (c : ClientCall) : answerTo i c ≠ [] := by
  simp [answerTo, c.answer.serialize_ne_nil]

/-- `send_and_recv` of `TcpClient`, on a connection with nothing on it: it fails and gives
the connection up, or reads the whole answer. -/
theorem tcpSendAndRecv_whole {c : ClientCall} (hc : Whole c) {t : TcpClient}
    (hstream : t.stream = []) (i : ℕ) :
    (∃ ret rv t', t.sendAndRecv c.writes c.reads (request c).length maxBuffLen (answerTo i c) =
        (ret, [], rv, t') ∧ ret < 0 ∧ t'.checkConnect < 0) ∨
      ∃ t', t.sendAndRecv c.writes c.reads (request c).length maxBuffLen (answerTo i c) =
        (0, answerTo i c, c.answer.serialize.length, t') ∧ t'.stream = [] ∧
          c.answer.serialize.length ≤ maxBuffLen := by
  by_cases hsend : TcpClient.sendLoop c.writes (request c).length < 0
  · left
    refine ⟨-1, maxBuffLen, { t with checkConnect := -1 }, ?_, by decide, by simp⟩
    simp [TcpClient.sendAndRecv, TcpClient.send, hsend]
  · have hgots : ∀ n, .got n ∈ c.reads → (answerTo i c).length ≤ min (n + 1) maxBuffLen := by
      intro n hn
      rw [length_answerTo]
      exact hc.frame n hn
    rcases TcpClient.recvLoop_whole (answerTo_ne_nil i c) c.reads hgots with hrun | ⟨hrun, hfit⟩
    · left
      refine ⟨-2, maxBuffLen, ⟨-1, answerTo i c⟩, ?_, by decide, by simp⟩
      simp [TcpClient.sendAndRecv, TcpClient.send, hsend, TcpClient.recv, hstream, hrun]
    · right
      rw [length_answerTo] at hfit
      refine ⟨⟨t.checkConnect, []⟩, ?_, rfl, hfit⟩
      simp [TcpClient.sendAndRecv, TcpClient.send, hsend, TcpClient.recv, hstream, hrun,
        length_answerTo]

/-! ## Parsing -/

/-- What follows the head in a buffer that begins with a frame. -/
theorem bytesAt_frame (c : Cmd) (rest : Bytes) :
    bytesAt (c.serialize ++ rest) sizeofMsgHead c.strAppData.bytes.length = c.strAppData.bytes := by
  have hhead : (Cmd.msgHead (UInt32.ofNat (sizeofMsgHead + c.strAppData.bytes.length)) c.uCmdId
      c.uCheck).length = sizeofMsgHead := rfl
  rw [bytesAt, Cmd.serialize, List.append_assoc, List.append_assoc, List.drop_left' hhead]
  exact List.take_left' rfl

/-- `data_len` of a frame that fits into the buffer. -/
theorem dataLen_frame {c : Cmd} (hc : c.serialize.length ≤ maxBuffLen) (rest : Bytes) :
    (ntohl (c.serialize ++ rest) - UInt32.ofNat sizeofMsgHead).toNat =
      c.strAppData.bytes.length := by
  rw [c.length_serialize] at hc
  have hntohl : ntohl (c.serialize ++ rest) =
      UInt32.ofNat (sizeofMsgHead + c.strAppData.bytes.length) := by
    rw [Cmd.serialize, Cmd.msgHead, List.append_assoc, List.append_assoc, List.append_assoc,
      ntohl_htonl_append]
  rw [hntohl, UInt32.ofNat_add, UInt32.add_comm, UInt32.add_sub_cancel]
  simp only [maxBuffLen, sizeofMsgHead] at hc
  rw [UInt32.toNat_ofNat', Nat.mod_eq_of_lt (by omega)]

/-! ## Calls -/

/-- One call. -/
theorem sendAndRecv_whole (parse : Bytes → Bool) {c : ClientCall} (hc : Whole c) {s : Client}
    (hs : s.Clean) : ∃ s' o, sendAndRecv parse c s = some s' ∧ s'.log = s.log ++ [o] ∧
      Attributed s.log.length c o ∧ s'.Clean := by
  obtain ⟨t, ht, hstream⟩ : ∃ t : TcpClient,
      (if s.cli.checkConnect < 0 then s.cli.reconnect else s.cli) = t ∧ t.stream = [] := by
    split
    · exact ⟨_, rfl, rfl⟩
    · next hconn => exact ⟨_, rfl, hs.resolve_left hconn⟩
  have hreq : ¬ (request c).length > maxBuffLen := by
    rw [length_request]
    exact Nat.not_lt.mpr hc.request
  have hpos := answerTo_ne_nil s.log.length c
  rw [sendAndRecv, if_neg hreq]
  simp only [ht]
  rcases tcpSendAndRecv_whole hc hstream s.log.length with ⟨ret, rv, t', hrun, hret, hconn⟩ |
    ⟨t', hrun, hrest, hfit⟩
  · -- the connection is given up
    simp only [hrun, if_pos hret]
    refine ⟨_, _, rfl, rfl, ⟨?_, fun _ => by decide, ?_⟩, Or.inl hconn⟩
    · intro h
      cases h
    · intro x hx
      cases hx
  · -- the whole frame was read
    have hbytes : (answerTo s.log.length c).map Prod.snd = c.answer.serialize := by
      rw [answerTo, List.map_map]
      exact List.map_id _
    have hlen := c.answer.length_serialize
    have hdata : (if c.answer.serialize.length > sizeofMsgHead then
        ntohl (c.answer.serialize ++ s.rvBuf.drop (answerTo s.log.length c).length) -
          UInt32.ofNat sizeofMsgHead else 0).toNat = c.answer.strAppData.bytes.length := by
      split
      · exact dataLen_frame hfit _
      · rw [UInt32.toNat_zero]
        omega
    simp only [hrun, Int.lt_irrefl, if_false, hbytes, hdata]
    rw [if_neg (by omega), if_neg (by omega), bytesAt_frame]
    refine ⟨_, _, rfl, rfl, ⟨fun _ => ⟨rfl, rfl⟩, fun hne => absurd rfl hne, ?_⟩, Or.inr hrest⟩
    intro x hx
    obtain ⟨b, _, rfl⟩ := List.mem_map.mp hx
    rfl

/-- A sequence of calls. -/
theorem run_whole (parse : Bytes → Bool) : ∀ (calls : List ClientCall) {s : Client}, s.Clean →
    (∀ c ∈ calls, Whole c) → ∃ s' os, run (sendAndRecv parse) calls s = some s' ∧
      s'.log = s.log ++ os ∧ os.length = calls.length ∧
        ∀ i c o, calls[i]? = some c → os[i]? = some o → Attributed (s.log.length + i) c o
  | [], s, _, _ => ⟨s, [], rfl, (List.append_nil _).symm, rfl, fun i c o hc => by simp at hc⟩
  | c :: calls, s, hs, hwhole => by
      obtain ⟨s1, o, hstep, hlog, hatt, hs1⟩ :=
        sendAndRecv_whole parse (hwhole c List.mem_cons_self) hs
      obtain ⟨s2, os, hrun, hlog', hlen, hatts⟩ :=
        run_whole parse calls hs1 fun c hc => hwhole c (List.mem_cons_of_mem _ hc)
      refine ⟨s2, o :: os, run_cons.mpr ⟨s1, hstep, hrun⟩, ?_, ?_, ?_⟩
      · rw [hlog', hlog, List.append_assoc]
        rfl
      · rw [List.length_cons, List.length_cons, hlen]
      · intro i c' o' hc' ho'
        cases i with
        | zero =>
            cases hc'
            cases ho'
            exact hatt
        | succ i =>
            have h := hatts i c' o' hc' ho'
            rw [hlog, List.length_append, List.length_singleton, Nat.add_right_comm] at h
            exact h

/-- **Attribution.** In every sequence of calls in which the requests fit into `sendBuff`
and every `read` that gives anything gives a whole frame, each call is right. -/
theorem run_attributed (parse : Bytes → Bool) (calls : List ClientCall)
    (hwhole : ∀ c ∈ calls, Whole c) :
    ∃ s, run (sendAndRecv parse) calls init = some s ∧ s.log.length = calls.length ∧
      ∀ i c o, calls[i]? = some c → s.log[i]? = some o → Attributed i c o := by
  obtain ⟨s, os, hrun, hlog, hlen, hatt⟩ := run_whole parse calls (s := init) (Or.inr rfl) hwhole
  rw [show init.log = [] from rfl, List.nil_append] at hlog
  refine ⟨s, hrun, by rw [hlog, hlen], ?_⟩
  intro i c o hc ho
  rw [hlog] at ho
  simpa [init] using hatt i c o hc ho

/-- Two calls, answered with three bytes each, and what their `read` calls give. -/
def twoCalls (reads reads' : List ReadRet) : List ClientCall :=
  [⟨7, [42], [.wrote 8], reads, ⟨7, 0, 0, ⟨[10, 1, 65], 0⟩⟩⟩,
    ⟨7, [43], [.wrote 3, .wrote 4], reads', ⟨7, 0, 0, ⟨[10, 1, 66], 0⟩⟩⟩]

/-- Each answer comes in one piece. -/
theorem run_attributed_two :
    (∀ c ∈ twoCalls [.got 10] [.intr, .got 10], Whole c) ∧
      ∃ s, run (sendAndRecv fun _ => true) (twoCalls [.got 10] [.intr, .got 10]) init = some s ∧
        s.log.length = 2 ∧ ∀ i c o, (twoCalls [.got 10] [.intr, .got 10])[i]? = some c →
          s.log[i]? = some o → Attributed i c o := by
  have hwhole : ∀ c ∈ twoCalls [.got 10] [.intr, .got 10], Whole c := by
    intro c hc
    rcases List.mem_pair.mp hc with rfl | rfl
    · exact ⟨by decide, by simp [Cmd.length_serialize, sizeofMsgHead, maxBuffLen]⟩
    · exact ⟨by decide, by simp [Cmd.length_serialize, sizeofMsgHead, maxBuffLen]⟩
  exact ⟨hwhole, run_attributed _ _ hwhole⟩

/-- The first answer comes in two pieces, the head and the rest. The call returns `0` with an
empty response, and the next call reads the rest for its own answer. -/
theorem split_frame :
    ∃ s o o', run (sendAndRecv fun _ => true) (twoCalls [.got 7] [.got 2]) init = some s ∧
      s.log = [o, o'] ∧ o.ret = 0 ∧ o.parsed = some [] ∧ o.taken.length = 8 ∧
      o'.ret = 0 ∧ o'.taken = [(0, 10), (0, 1), (0, 65)] ∧
      ∀ c, (twoCalls [.got 7] [.got 2])[0]? = some c → ¬ Attributed 0 c o := by
  have hrun : (run (sendAndRecv fun _ => true) (twoCalls [.got 7] [.got 2]) init).map
      (fun s => s.log) = some [⟨0, some [], (Cmd.msgHead 11 7 0).map fun b => (0, b)⟩,
        ⟨0, some [], [(0, 10), (0, 1), (0, 65)]⟩] := by decide +kernel
  obtain ⟨s, hs, hlog⟩ := Option.map_eq_some_iff.mp hrun
  refine ⟨s, _, _, hs, hlog, rfl, rfl, rfl, rfl, rfl, ?_⟩
  intro c hc h
  cases hc
  cases (h.parsed rfl).1

end Client

end LibC
