/-
LibC.Proxy.RecvTheorems — reassembling frames from a stream.

`Cmd.parse_frame` and `Cmd.parse_cut` say what `Parse` makes of the beginning of
a stream: a whole frame gives its command, a proper beginning of a frame gives
`0`. Handling the received bytes therefore takes all whole frames off and leaves
what is pending of the next one (`handleLoop_spec`), which is shorter than the
buffer, since no frame is longer. So there is always room for the next `recv`,
and the commands come out one by one whatever the cuts (`readAll_spec`).

No `sorry`, no `axiom`, no `native_decide`.
-/
import LibC.Proxy.Task

namespace LibC

open LibC.Lib

/-! ## Frames -/

/-- The command and the application data, which is what `DoCmd` looks at. -/
def Cmd.request (c : Cmd) : UInt16 × Bytes := (c.uCmdId, c.strAppData.bytes)

/-- The frame of a command is not longer than `MAX_CMD_LEN`. -/
def Cmd.Fits (c : Cmd) : Prop := sizeofMsgHead + c.strAppData.bytes.length ≤ maxCmdLen.toNat

theorem maxCmdLen_toNat : maxCmdLen.toNat = 32768 := by decide

theorem Cmd.length_serialize (c : Cmd) :
    c.serialize.length = sizeofMsgHead + c.strAppData.bytes.length := by
  simp only [Cmd.serialize, Cmd.msgHead, sizeofMsgHead, List.length_append, length_htonl,
    length_htons]

theorem Cmd.serialize_ne_nil (c : Cmd) : c.serialize ≠ [] :=
  List.ne_nil_of_length_pos (by rw [c.length_serialize, sizeofMsgHead]; omega)

/-- The length field of a frame. -/
theorem Cmd.Fits.pkgLen {c : Cmd} (h : c.Fits) :
    (UInt32.ofNat (sizeofMsgHead + c.strAppData.bytes.length)).toNat =
      sizeofMsgHead + c.strAppData.bytes.length := by
  rw [Cmd.Fits, maxCmdLen_toNat] at h
  rw [UInt32.toNat_ofNat']
  omega

/-- `Parse` of bytes that begin with a frame. -/
theorem Cmd.parse_frame {c : Cmd} (h : c.Fits) (c0 : Cmd) (rest : Bytes) :
    c0.parse (c.serialize ++ rest) =
      ((c.serialize.length : Int),
        { c0 with uCmdId := c.uCmdId, uCheck := c.uCheck }.setAppData c.strAppData.bytes) := by
  have hlen := c.length_serialize
  have hsplit : c.serialize ++ rest =
      htonl (UInt32.ofNat (sizeofMsgHead + c.strAppData.bytes.length)) ++
        (htons c.uCmdId ++ (htons c.uCheck ++ (c.strAppData.bytes ++ rest))) := by
    simp [Cmd.serialize, Cmd.msgHead]
  have hpkg : ntohl (c.serialize ++ rest) =
      UInt32.ofNat (sizeofMsgHead + c.strAppData.bytes.length) := by
    rw [hsplit, ntohl_htonl_append]
  have hid : ntohs ((c.serialize ++ rest).drop 4) = c.uCmdId := by
    rw [hsplit, List.drop_left' (length_htonl _), ntohs_htons_append]
  have hcheck : ntohs ((c.serialize ++ rest).drop 6) = c.uCheck := by
    rw [hsplit]
    exact ntohs_htons_append c.uCheck (c.strAppData.bytes ++ rest)
  have hdata : ((c.serialize ++ rest).drop sizeofMsgHead).take c.strAppData.bytes.length =
      c.strAppData.bytes := by
    rw [hsplit]
    exact List.take_left' rfl
  have hmax : ¬ UInt32.ofNat (sizeofMsgHead + c.strAppData.bytes.length) > maxCmdLen := by
    rw [gt_iff_lt, UInt32.lt_iff_toNat_lt, h.pkgLen, Nat.not_lt]
    exact h
  rw [Cmd.parse, if_neg (by rw [List.length_append, hlen]; omega)]
  simp only [hpkg, if_neg hmax, h.pkgLen]
  rw [if_neg (by omega), if_neg (by rw [List.length_append, hlen]; omega), hid, hcheck,
    Nat.add_sub_cancel_left, hdata, hlen]

/-- `Parse` of a proper beginning of a frame. -/
theorem Cmd.parse_cut {c : Cmd} (h : c.Fits) (c0 : Cmd) {p : Bytes} (hp : p <+: c.serialize)
    (hne : p ≠ c.serialize) : c0.parse p = (0, c0) := by
  have hlt : p.length < c.serialize.length :=
    Nat.lt_of_le_of_ne hp.length_le fun heq => hne (hp.eq_of_length heq)
  rw [c.length_serialize] at hlt
  by_cases h8 : p.length < sizeofMsgHead
  · rw [Cmd.parse, if_pos h8]
  · have hpkg : ntohl p = UInt32.ofNat (sizeofMsgHead + c.strAppData.bytes.length) := by
      rw [Cmd.serialize, Cmd.msgHead, List.append_assoc, List.append_assoc] at hp
      rcases prefix_append_cases hp with ⟨hq, _⟩ | ⟨q, rfl, _⟩
      · have := hq.length_le
        rw [length_htonl] at this
        rw [sizeofMsgHead] at h8
        omega
      · rw [ntohl_htonl_append]
    have hmax : ¬ UInt32.ofNat (sizeofMsgHead + c.strAppData.bytes.length) > maxCmdLen := by
      rw [gt_iff_lt, UInt32.lt_iff_toNat_lt, h.pkgLen, Nat.not_lt]
      exact h
    rw [Cmd.parse, if_neg h8]
    simp only [hpkg, if_neg hmax, h.pkgLen]
    rw [if_neg (by omega), if_pos hlt]

/-! ## The buffer -/

namespace RecvBuffer

variable {b : RecvBuffer}

theorem used_memMoveLeft {len : ℕ} (h : len ≤ b.usedSize) :
    (b.memMoveLeft len).2.used = b.used.drop len := by
  rw [memMoveLeft, if_neg (by omega)]

theorem size_memMoveLeft (len : ℕ) : (b.memMoveLeft len).2.size = b.size := by
  rw [memMoveLeft]
  split <;> rfl

theorem used_advance {stored : Bytes} (h : stored.length ≤ b.remain) :
    (b.advance stored).2.used = b.used ++ stored := by
  rw [advance, dif_neg (by omega)]

theorem size_advance (stored : Bytes) : (b.advance stored).2.size = b.size := by
  rw [advance]
  split <;> rfl

/-- Storing bytes takes them from the room that is left. -/
theorem remain_advance {stored : Bytes} (h : stored.length ≤ b.remain) :
    (b.advance stored).2.remain = b.remain - stored.length := by
  rw [remain, size_advance, usedSize, used_advance h, List.length_append, remain, usedSize]
  omega

end RecvBuffer

/-! ## Handling what was received -/

/-- The bytes of the frames of some commands. -/
def frames (cmds : List Cmd) : List Bytes := cmds.map Cmd.serialize

theorem frames_ne_nil (cmds : List Cmd) : ∀ f ∈ frames cmds, f ≠ [] := by
  intro f hf
  obtain ⟨c, _, rfl⟩ := List.mem_map.mp hf
  exact c.serialize_ne_nil

namespace Task

/-- Handling bytes that begin the frames of some commands: `DoCmd` is called for the
commands whose frames are complete, and what is pending stays in the buffer. -/
theorem handleLoop_spec : ∀ (cmds : List Cmd), (∀ c ∈ cmds, c.Fits) →
    ∀ (fuel : ℕ) (t : Task) (rest : Bytes), t.recvBuff.usedSize ≤ fuel →
      t.recvBuff.used ++ rest = (frames cmds).flatten →
      ∃ j t' done, handleLoop fuel t = (t', done) ∧
        done.map Cmd.request = (cmds.take j).map Cmd.request ∧
        t'.recvBuff.used ++ rest = (frames (cmds.drop j)).flatten ∧
        Pending (frames (cmds.drop j)) t'.recvBuff.used ∧
        t'.recvBuff.size = t.recvBuff.size ∧ t'.iSock = t.iSock
  | [], _, fuel, t, rest, _, hall => by
      obtain ⟨hnil, _⟩ := List.append_eq_nil_iff.mp hall
      have hidle : handleLoop fuel t = (t, []) := by
        cases fuel <;> simp [handleLoop, RecvBuffer.usedSize, hnil]
      exact ⟨0, t, [], hidle, rfl, hall, Or.inl hnil, rfl, rfl⟩
  | c :: cmds, hfit, fuel, t, rest, hfuel, hall => by
      have hc := hfit c (List.mem_cons_self ..)
      have hpre : t.recvBuff.used <+: c.serialize ++ (frames cmds).flatten :=
        ⟨rest, hall⟩
      rcases prefix_append_cases hpre with ⟨hcut, hne⟩ | ⟨u, hu, _⟩
      · -- the frame is not complete
        refine ⟨0, ?_⟩
        by_cases hnil : t.recvBuff.used = []
        · have hidle : handleLoop fuel t = (t, []) := by
            cases fuel <;> simp [handleLoop, RecvBuffer.usedSize, hnil]
          exact ⟨t, [], hidle, rfl, hall, Or.inl hnil, rfl, rfl⟩
        · have hpos : 0 < t.recvBuff.usedSize := List.length_pos_iff.mpr hnil
          obtain ⟨fuel, rfl⟩ : ∃ n, fuel = n + 1 := ⟨fuel - 1, by omega⟩
          refine ⟨{ t with objCmd := t.objCmd.clear }, [], ?_, rfl, hall,
            Or.inr ⟨_, rfl, hcut, hne⟩, rfl, rfl⟩
          rw [handleLoop, if_pos hpos, Cmd.parse_cut hc _ hcut hne]
          simp
      · -- the frame is handled and moved out of the buffer
        have hlen := c.length_serialize
        have hused : t.recvBuff.usedSize = c.serialize.length + u.length := by
          rw [RecvBuffer.usedSize, hu, List.length_append]
        obtain ⟨fuel, rfl⟩ : ∃ n, fuel = n + 1 := ⟨fuel - 1, by
          rw [sizeofMsgHead] at hlen; omega⟩
        have hrest : u ++ rest = (frames cmds).flatten := by
          have h := hall
          rw [hu, frames, List.map_cons, List.flatten_cons, List.append_assoc] at h
          exact List.append_cancel_left h
        have hmove : (t.recvBuff.memMoveLeft c.serialize.length).2.used = u := by
          rw [RecvBuffer.used_memMoveLeft (by omega), hu, List.drop_left' rfl]
        obtain ⟨cmd, hparse, hreq⟩ : ∃ cmd, t.objCmd.clear.parse t.recvBuff.used =
            ((c.serialize.length : Int), cmd) ∧ cmd.request = c.request :=
          ⟨_, (congrArg t.objCmd.clear.parse hu).trans (Cmd.parse_frame hc _ u), rfl⟩
        obtain ⟨j, t', done, hrun, hdone, hleft, hpend, hsize', hsock⟩ := handleLoop_spec cmds
          (fun c' hc' => hfit c' (List.mem_cons_of_mem _ hc')) fuel
          { t with
            objCmd := cmd
            recvBuff := (t.recvBuff.memMoveLeft c.serialize.length).2 } rest
          (by rw [RecvBuffer.usedSize, hmove]; rw [sizeofMsgHead] at hlen; omega)
          (by rw [hmove, hrest])
        refine ⟨j + 1, t', cmd :: done, ?_, ?_, by rwa [List.drop_succ_cons],
          by rwa [List.drop_succ_cons], hsize'.trans (RecvBuffer.size_memMoveLeft _), hsock⟩
        · have hrv : ¬ ((c.serialize.length : Int) < 0) ∧ ¬ ((c.serialize.length : Int) = 0) := by
            rw [sizeofMsgHead] at hlen
            omega
          rw [handleLoop, if_pos (by rw [sizeofMsgHead] at hlen; omega), hparse]
          simp only [if_neg hrv.1, if_neg hrv.2, Int.toNat_natCast, hrun]
        · rw [List.map_cons, List.take_succ_cons, List.map_cons, hdone, hreq]

/-- Handling everything that is in the buffer. -/
theorem handleCmdMsg_spec {cmds : List Cmd} (hfit : ∀ c ∈ cmds, c.Fits) (t : Task) {s : Bytes}
    (hall : t.recvBuff.used ++ s = (frames cmds).flatten) :
    ∃ j t' done, t.handleCmdMsg = (t', done) ∧
      done.map Cmd.request = (cmds.take j).map Cmd.request ∧
      t'.recvBuff.used ++ s = (frames (cmds.drop j)).flatten ∧
      Pending (frames (cmds.drop j)) t'.recvBuff.used ∧
      t'.recvBuff.size = t.recvBuff.size ∧ t'.iSock = t.iSock :=
  handleLoop_spec cmds hfit _ t s (Nat.le_refl _) hall

/-! ## Receiving -/

/-- The outcomes of the `recv` calls of one `Recv`, on a socket that delivers `s` to it:
each call gives between one byte and `Remain()` bytes, or would block; the calls end when
one would block or when nothing remains. -/
def Recvs : List RecvRet → ℕ → Bytes → Prop
  | [], remain, s => remain = 0 ∧ s = []
  | .got data :: rets, remain, s =>
      0 < data.length ∧ data.length ≤ remain ∧ ∃ s', s = data ++ s' ∧
        Recvs rets (remain - data.length) s'
  | .again :: rets, remain, s => 0 < remain ∧ rets = [] ∧ s = []
  | .fail :: _, _, _ => False

/-- `Recv` puts what the socket delivers behind what is in the buffer. -/
theorem recvLoop_spec : ∀ (rets : List RecvRet) (t : Task) (s : Bytes),
    Recvs rets t.recvBuff.remain s →
    ∃ b, recvLoop rets t = { t with recvBuff := b } ∧ b.used = t.recvBuff.used ++ s ∧
      b.size = t.recvBuff.size
  | [], t, s, h => ⟨t.recvBuff, rfl, by rw [h.2, List.append_nil], rfl⟩
  | .again :: rets, t, s, h => ⟨t.recvBuff, by rw [recvLoop, if_pos h.1],
      by rw [h.2.2, List.append_nil], rfl⟩
  | .got data :: rets, t, s, h => by
      obtain ⟨hpos, hle, s', rfl, hrest⟩ := h
      obtain ⟨b, hrun, hused, hsize⟩ := recvLoop_spec rets
        { t with recvBuff := (t.recvBuff.advance data).2 } s'
        (by rw [RecvBuffer.remain_advance hle]; exact hrest)
      refine ⟨b, ?_, ?_, hsize.trans (RecvBuffer.size_advance data)⟩
      · rw [recvLoop, if_pos (by omega)]
        simp only [if_neg (show ¬ data.length = 0 by omega), hrun]
      · rw [hused, RecvBuffer.used_advance hle, List.append_assoc]

/-- `OnSockReadHdl`, one call after the other: the connection, and what `DoCmd` was called
with. -/
def readAll : List (List RecvRet) → Task → Task × List Cmd
  | [], t => (t, [])
  | rets :: calls, t =>
      let (t, cmds) := t.onSockReadHdl rets
      let (t, cmds') := readAll calls t
      (t, cmds ++ cmds')

/-- The calls, on a socket that delivers `s` to them. -/
def Delivered : List (List RecvRet) → Task → Bytes → Prop
  | [], _, s => s = []
  | rets :: calls, t, s => ∃ s1 s2, s = s1 ++ s2 ∧ Recvs rets t.recvBuff.remain s1 ∧
      Delivered calls (t.onSockReadHdl rets).1 s2

/-- **Reassembly.** On a live connection whose buffer has the size of the largest frame
and holds what is pending of the frames of `cmds`, deliver the rest of these frames in any
way. `DoCmd` is called for each of the commands, in order; the buffer is empty and the
connection alive in the end; and at the entry of every call there was room left. -/
theorem readAll_spec : ∀ (calls : List (List RecvRet)) (t : Task) (cmds : List Cmd) (s : Bytes),
    (∀ c ∈ cmds, c.Fits) → t.isTerminate = false → t.recvBuff.size = maxCmdLen.toNat →
    Pending (frames cmds) t.recvBuff.used → t.recvBuff.used ++ s = (frames cmds).flatten →
    Delivered calls t s →
    (readAll calls t).2.map Cmd.request = cmds.map Cmd.request ∧
      (readAll calls t).1.recvBuff.used = [] ∧
      ∀ past rest, calls = past ++ rest → (readAll past t).1.isTerminate = false ∧
        0 < (readAll past t).1.recvBuff.remain := by
  intro calls
  have hroom : ∀ (t : Task) (cmds : List Cmd), (∀ c ∈ cmds, c.Fits) →
      t.recvBuff.size = maxCmdLen.toNat → Pending (frames cmds) t.recvBuff.used →
      0 < t.recvBuff.remain := by
    intro t cmds hfit hsize hpend
    have hlt := hpend.length_lt (n := maxCmdLen.toNat) (by decide) fun f hf => by
      obtain ⟨c, hc, rfl⟩ := List.mem_map.mp hf
      rw [c.length_serialize]
      exact hfit c hc
    rw [RecvBuffer.remain, RecvBuffer.usedSize, hsize]
    omega
  induction calls with
  | nil =>
      intro t cmds s hfit hlive hsize hpend hall hdel
      obtain rfl : s = [] := hdel
      rw [List.append_nil] at hall
      have hnil := hpend.eq_nil hall (frames_ne_nil cmds)
      obtain rfl : cmds = [] := List.map_eq_nil_iff.mp hnil
      refine ⟨rfl, hall, fun past rest heq => ?_⟩
      obtain ⟨rfl, rfl⟩ := List.append_eq_nil_iff.mp heq.symm
      exact ⟨hlive, hroom t [] hfit hsize hpend⟩
  | cons rets calls ih =>
      intro t cmds s hfit hlive hsize hpend hall hdel
      obtain ⟨s1, s2, rfl, hrecv, hdel⟩ := hdel
      obtain ⟨b, hrun, hused, hbsize⟩ := recvLoop_spec rets t s1 hrecv
      obtain ⟨j, t', done, hhandle, hdone, hleft, hpend', hsize', hsock⟩ := handleCmdMsg_spec hfit
        { t with recvBuff := b } (s := s2) (by rw [hused, List.append_assoc, hall])
      have hread : t.onSockReadHdl rets = (t', done) := by
        rw [onSockReadHdl, recv, if_neg (by rw [hlive]; decide), hrun, hhandle]
      rw [hread] at hdel
      have hfit' : ∀ c ∈ cmds.drop j, c.Fits := fun c hc => hfit c (List.mem_of_mem_drop hc)
      have hlive' : t'.isTerminate = false := by
        rw [isTerminate, hsock]
        exact hlive
      obtain ⟨hreq, hempty, hpast⟩ := ih t' (cmds.drop j) s2 hfit' hlive'
        (hsize'.trans (hbsize.trans hsize)) hpend' hleft hdel
      refine ⟨?_, by simpa [readAll, hread] using hempty, fun past rest heq => ?_⟩
      · simp only [readAll, hread, List.map_append, hreq, hdone]
        rw [← List.map_append, List.take_append_drop]
      · cases past with
        | nil => exact ⟨hlive, hroom t cmds hfit hsize hpend⟩
        | cons r past =>
            obtain ⟨rfl, heq'⟩ := List.cons.inj heq
            simpa [readAll, hread] using hpast past rest heq'

/-- **Reassembly, from an empty buffer.** However the frames of `cmds` are cut up on the
way to a live connection, `DoCmd` is called once for each command, in order. -/
theorem readAll_frames (t : Task) (hlive : t.isTerminate = false)
    (hempty : t.recvBuff.used = []) (hsize : t.recvBuff.size = maxCmdLen.toNat) (cmds : List Cmd)
    (hfit : ∀ c ∈ cmds, c.Fits) (calls : List (List RecvRet))
    (hdel : Delivered calls t (frames cmds).flatten) :
    (readAll calls t).2.map Cmd.request = cmds.map Cmd.request ∧
      (readAll calls t).1.recvBuff.used = [] ∧
      ∀ past rest, calls = past ++ rest → (readAll past t).1.isTerminate = false ∧
        0 < (readAll past t).1.recvBuff.remain :=
  readAll_spec calls t cmds _ hfit hlive hsize (Or.inl hempty)
    (by rw [hempty, List.nil_append]) hdel

/-- Two frames, cut inside the head of the first one and inside the second one. -/
theorem readAll_frames_cut :
    (readAll [[.got [0, 0, 0], .again], [.got [9, 0x10, 3, 0], .got [0, 65, 0, 0, 0, 8], .again],
        [.got [0x10, 7, 0, 0], .again]] (Task.new 1 5)).2.map Cmd.request =
      [(0x1003, [65]), (0x1007, [])] :=
  (readAll_frames (Task.new 1 5) rfl rfl rfl [⟨0x1003, 0, 0, ⟨[65], 0⟩⟩, ⟨0x1007, 0, 0, ⟨[], 0⟩⟩]
    (by simp [Cmd.Fits, sizeofMsgHead, maxCmdLen_toNat])
    [[.got [0, 0, 0], .again], [.got [9, 0x10, 3, 0], .got [0, 65, 0, 0, 0, 8], .again],
      [.got [0x10, 7, 0, 0], .again]]
    ⟨[0, 0, 0], [9, 0x10, 3, 0, 0, 65, 0, 0, 0, 8, 0x10, 7, 0, 0], by decide,
      ⟨by decide, by decide, [], rfl, by decide, rfl, rfl⟩,
      [9, 0x10, 3, 0, 0, 65, 0, 0, 0, 8], [0x10, 7, 0, 0], rfl,
      ⟨by decide, by decide, [0, 65, 0, 0, 0, 8], rfl, by decide, by decide, [], rfl,
        by decide, rfl, rfl⟩,
      [0x10, 7, 0, 0], [], rfl, ⟨by decide, by decide, [], rfl, by decide, rfl, rfl⟩, rfl⟩).1

end Task

end LibC
