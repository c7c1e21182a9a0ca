/-
LibC.Proxy.DrainTheorems — when the read handler empties the socket.

A descriptor is registered with `EPOLLET`: what the handler leaves in the
kernel's receive queue is not announced again. `Answers` says what `recv` can
answer while a queue lasts and once it is empty.

`Recv` fills the buffer, `HandleCmdMsg` makes room in it, and the handler
returns. Fewer bytes than there is room for are read to the end; as many or
more fill the buffer, and then no call is left that could find the queue empty.
Only a frame that is too long ends the connection in that case
(`onSockReadHdl_drains_iff`).

No `sorry`, no `axiom`, no `native_decide`.
-/
import LibC.Proxy.RecvTheorems
import LibC.Proxy.SendTheorems

namespace LibC

open LibC.Lib

/-! ## The receive queue -/

/-- What `recv` finds at the end of the queue. -/
inductive SockEnd where
  | open
  | closed
  | error
  deriving DecidableEq

/-- The answer of `recv` on an empty queue. -/
def SockEnd.ret : SockEnd → RecvRet
  | .open => .again
  | .closed => .got []
  | .error => .fail

/-- The calls of one `Recv` that starts with `room` bytes of room answer `rets` on the
queue `q`, and leave `q'` in it: a call takes between one byte and as many as there are
and fit. -/
inductive Answers (fin : SockEnd) : ℕ → Bytes → List RecvRet → Bytes → Prop
  | full (q : Bytes) : Answers fin 0 q [] q
  | got {room n : ℕ} {q q' : Bytes} {rets : List RecvRet} (hpos : 0 < n) (hroom : n ≤ room)
      (hq : n ≤ q.length) (rest : Answers fin (room - n) (q.drop n) rets q') :
      Answers fin room q (.got (q.take n) :: rets) q'
  | dry {room : ℕ} (hroom : 0 < room) : Answers fin room [] [fin.ret] []

namespace Task

variable {fin : SockEnd} {q q' : Bytes} {rets : List RecvRet}

/-- The loop of `Recv` on a queue. Either the queue is shorter than the room, and the
last call found its end; or the buffer is full, and every call took something. -/
theorem recvLoop_answers {room : ℕ} (h : Answers fin room q rets q') :
    ∀ t : Task, t.isTerminate = false → t.recvBuff.remain = room →
      (q.length < room ∧ q' = [] ∧ rets.getLast? = some fin.ret ∧
        ((recvLoop rets t).isTerminate = false → fin = .open)) ∨
      (room ≤ q.length ∧ q' = q.drop room ∧ rets.getLast? ≠ some .again ∧
        (recvLoop rets t).isTerminate = false ∧
        (recvLoop rets t).recvBuff.used = t.recvBuff.used ++ q.take room) := by
  induction h with
  | full q =>
      intro t hlive hroom
      refine Or.inr ⟨Nat.zero_le _, rfl, by simp, hlive, ?_⟩
      rw [recvLoop, List.take_zero, List.append_nil]
  | @got room n q q' rets hpos hle hq rest ih =>
      intro t hlive hroom
      have hlen : (q.take n).length = n := by rw [List.length_take]; omega
      have hstep : recvLoop (.got (q.take n) :: rets) t =
          recvLoop rets { t with recvBuff := (t.recvBuff.advance (q.take n)).2 } := by
        rw [recvLoop, if_pos (by omega)]
        simp only [hlen, if_neg (show ¬ n = 0 by omega)]
      have hremain : (t.recvBuff.advance (q.take n)).2.remain = room - n := by
        rw [RecvBuffer.remain_advance (by omega), hlen, hroom]
      have hlast : rets ≠ [] → (RecvRet.got (q.take n) :: rets).getLast? = rets.getLast? := by
        intro hne
        rw [List.getLast?_cons, List.getLast?_eq_some_getLast hne]
        rfl
      rw [hstep]
      rcases ih { t with recvBuff := (t.recvBuff.advance (q.take n)).2 } hlive hremain with
        ⟨h1, h2, h3, h4⟩ | ⟨h1, h2, h3, h4, h5⟩
      · rw [List.length_drop] at h1
        have hne : rets ≠ [] := by
          rintro rfl
          cases h3
        exact Or.inl ⟨by omega, h2, by rw [hlast hne, h3], h4⟩
      · rw [List.length_drop] at h1
        refine Or.inr ⟨by omega, ?_, ?_, h4, ?_⟩
        · rw [h2, List.drop_drop]
          congr 1
          omega
        · by_cases hne : rets = []
          · rw [hne]
            simp
          · rwa [hlast hne]
        · rw [h5, RecvBuffer.used_advance (by omega), List.append_assoc]
          congr 1
          rw [← List.take_add]
          congr 1
          omega
  | @dry room hpos =>
      intro t hlive hroom
      refine Or.inl ⟨hpos, rfl, rfl, fun h => ?_⟩
      have hgo : t.recvBuff.remain > 0 := by omega
      cases fin with
      | «open» => rfl
      | closed =>
          rw [SockEnd.ret, recvLoop, if_pos hgo] at h
          simp only [List.length_nil, if_true, isTerminate_terminate] at h
          cases h
      | error =>
          rw [SockEnd.ret, recvLoop, if_pos hgo] at h
          simp only [isTerminate_terminate] at h
          cases h

/-! ## Frames that are too long -/

/-- Behind the frames at the beginning of some bytes there is the head of one that is
longer than `MAX_CMD_LEN`. A round takes at least one byte. -/
def overlongFrom : ℕ → Bytes → Bool
  | 0, _ => false
  | fuel + 1, data =>
      let rv := (Cmd.new.parse data).1
      if rv < 0 then true
      else if rv = 0 then false
      else overlongFrom fuel (data.drop rv.toNat)

/-- The bytes lead to a frame that is too long. -/
def overlong (data : Bytes) : Bool := overlongFrom data.length data

/-- The answer of `Parse` depends on the bytes only. -/
theorem parse_fst (c c' : Cmd) (data : Bytes) : (c.parse data).1 = (c'.parse data).1 := by
  unfold Cmd.parse
  split
  · rfl
  · simp only
    split
    · rfl
    · split
      · rfl
      · split <;> rfl

/-- `Parse` does not take more than there is. -/
theorem parse_le (c : Cmd) (data : Bytes) : (c.parse data).1 ≤ data.length := by
  unfold Cmd.parse
  split
  · exact Int.natCast_nonneg _
  · simp only
    split
    · show (-1 : Int) ≤ _
      omega
    · split
      · exact Int.natCast_nonneg _
      · split
        · exact Int.natCast_nonneg _
        · rename_i hle
          exact Int.ofNat_le.mpr (Nat.le_of_not_gt hle)

/-- `HandleCmdMsg` ends a connection in front of a frame that is too long, and in front of
nothing else. -/
theorem handleLoop_terminates_iff : ∀ (fuel : ℕ) (t : Task), t.isTerminate = false →
    ((handleLoop fuel t).1.isTerminate = true ↔ overlongFrom fuel t.recvBuff.used = true)
  | 0, t, hlive => by simp [handleLoop, overlongFrom, hlive]
  | fuel + 1, t, hlive => by
      have hfst := parse_fst t.objCmd.clear Cmd.new t.recvBuff.used
      have hle := parse_le t.objCmd.clear t.recvBuff.used
      unfold handleLoop overlongFrom
      by_cases hused : t.recvBuff.usedSize > 0
      · rw [if_pos hused]
        obtain ⟨rv, cmd, hparse⟩ : ∃ rv cmd, t.objCmd.clear.parse t.recvBuff.used = (rv, cmd) :=
          ⟨_, _, rfl⟩
        rw [hparse] at hfst hle
        simp only [hparse, ← hfst]
        by_cases hneg : rv < 0
        · simp only [if_pos hneg, isTerminate_terminate]
        · by_cases hzero : rv = 0
          · simp only [if_neg hneg, if_pos hzero, Bool.false_eq_true, iff_false]
            intro h
            exact Bool.false_ne_true (hlive.symm.trans h)
          · have ih := handleLoop_terminates_iff fuel
              { t with objCmd := cmd, recvBuff := (t.recvBuff.memMoveLeft rv.toNat).2 } hlive
            have hmove : (t.recvBuff.memMoveLeft rv.toNat).2.used =
                t.recvBuff.used.drop rv.toNat := RecvBuffer.used_memMoveLeft (by
              rw [RecvBuffer.usedSize]
              simp only at hle
              omega)
            simp only [if_neg hneg, if_neg hzero]
            rw [ih, hmove]
      · -- nothing was received
        have hnil : t.recvBuff.used = [] := by
          rw [RecvBuffer.usedSize] at hused
          exact List.eq_nil_of_length_eq_zero (by omega)
        rw [if_neg hused, hnil]
        simp [hlive, Cmd.parse, sizeofMsgHead]

/-! ## The read handler -/

/-- **Draining.** Let the read handler of a live connection meet a queue with `q` in it.
Its last call finds the end of the queue, or the connection ends, exactly when `q` is
shorter than the room in the buffer, or when what fits of it leads to a frame that is too
long; and the queue is empty, or the connection ends, when `q` is no longer than that. -/
theorem onSockReadHdl_drains_iff {t : Task} (hlive : t.isTerminate = false)
    (h : Answers fin t.recvBuff.remain q rets q') :
    ((t.onSockReadHdl rets).1.isTerminate = true ∨ rets.getLast? = some .again ↔
      q.length < t.recvBuff.remain ∨
        overlong (t.recvBuff.used ++ q.take t.recvBuff.remain) = true) ∧
    ((t.onSockReadHdl rets).1.isTerminate = true ∨ q' = [] ↔
      q.length ≤ t.recvBuff.remain ∨
        overlong (t.recvBuff.used ++ q.take t.recvBuff.remain) = true) := by
  have hrun : (t.onSockReadHdl rets).1 = (recvLoop rets t).handleCmdMsg.1 := by
    rw [onSockReadHdl, recv, if_neg (by rw [hlive]; decide)]
  rw [hrun]
  rcases recvLoop_answers h t hlive rfl with
    ⟨hlt, hq, hlast, hfin⟩ | ⟨hle, hq, hlast, halive, hused⟩
  · -- the queue was read to the end
    have hdone : (recvLoop rets t).handleCmdMsg.1.isTerminate = true ∨
        rets.getLast? = some .again := by
      cases hterm : (recvLoop rets t).handleCmdMsg.1.isTerminate with
      | true => exact Or.inl rfl
      | false =>
          have hopen := hfin ((handleLoop_frame _ (recvLoop rets t)).live hterm)
          rw [hopen] at hlast
          exact Or.inr hlast
    exact ⟨⟨fun _ => Or.inl hlt, fun _ => hdone⟩,
      ⟨fun _ => Or.inl (Nat.le_of_lt hlt), fun _ => Or.inr hq⟩⟩
  · -- the buffer is full
    have hterm : (recvLoop rets t).handleCmdMsg.1.isTerminate = true ↔
        overlong (t.recvBuff.used ++ q.take t.recvBuff.remain) = true := by
      rw [handleCmdMsg, handleLoop_terminates_iff _ _ halive, RecvBuffer.usedSize, hused, overlong]
    have hempty : q' = [] ↔ q.length ≤ t.recvBuff.remain := by
      rw [hq, List.drop_eq_nil_iff]
    refine ⟨?_, by rw [hterm, hempty, or_comm]⟩
    rw [hterm]
    constructor
    · rintro (h | h)
      · exact Or.inr h
      · exact absurd h hlast
    · rintro (h | h)
      · omega
      · exact Or.inl h

/-- One byte, and then nothing. -/
theorem onSockReadHdl_drains_byte :
    (((Task.new 1 5).onSockReadHdl [.got [7], .again]).1.isTerminate = true ∨
        [RecvRet.got [7], .again].getLast? = some .again ↔
      [(7 : UInt8)].length < (Task.new 1 5).recvBuff.remain ∨
        overlong ((Task.new 1 5).recvBuff.used ++ [(7 : UInt8)].take
          (Task.new 1 5).recvBuff.remain) = true) ∧
    (((Task.new 1 5).onSockReadHdl [.got [7], .again]).1.isTerminate = true ∨ ([] : Bytes) = [] ↔
      [(7 : UInt8)].length ≤ (Task.new 1 5).recvBuff.remain ∨
        overlong ((Task.new 1 5).recvBuff.used ++ [(7 : UInt8)].take
          (Task.new 1 5).recvBuff.remain) = true) :=
  onSockReadHdl_drains_iff (by decide)
    (@Answers.got .open _ 1 _ _ _ Nat.one_pos (by decide) (by decide) (.dry (by decide)))

/-- A request for the scores of no members under the key `k`, `MSG_GET_SCORE_BATCH_REQ`. -/
def getScoreCmd : Cmd := ⟨0x1007, 0, 0, ⟨[0x0A, 1, 0x6B], 0⟩⟩

/-- Requests sent one behind the other. -/
def pipelined (n : ℕ) : List Cmd := List.replicate n getScoreCmd

theorem pipelined_fits (n : ℕ) : ∀ c ∈ pipelined n, c.Fits := by
  intro c hc
  obtain rfl := List.eq_of_mem_replicate hc
  rw [Cmd.Fits]
  decide

theorem length_pipelined : ∀ n : ℕ, (frames (pipelined n)).flatten.length = n * 11
  | 0 => rfl
  | n + 1 => by
      have hone : getScoreCmd.serialize.length = 11 := getScoreCmd.length_serialize
      have ih := length_pipelined n
      rw [frames, pipelined] at ih ⊢
      rw [List.replicate_succ, List.map_cons, List.flatten_cons, List.length_append, ih, hone]
      omega

/-- On a new connection 2979 requests are waiting, which are 32769 bytes. The handler takes
32768 of them and returns, alive and without having met the end of the queue. -/
theorem pipelined_stranded :
    ∃ rets q', Answers .open (Task.new 1 5).recvBuff.remain (frames (pipelined 2979)).flatten
        rets q' ∧
      ¬ (((Task.new 1 5).onSockReadHdl rets).1.isTerminate = true ∨
        rets.getLast? = some .again) ∧ q' ≠ [] := by
  obtain ⟨s, hs⟩ : ∃ s, s = (frames (pipelined 2979)).flatten := ⟨_, rfl⟩
  have hlen : s.length = 32769 := by rw [hs, length_pipelined]
  have hroom : (Task.new 1 5).recvBuff.remain = 32768 := by decide
  have hlive : (Task.new 1 5).isTerminate = false := by decide
  rw [← hs, hroom]
  have h : Answers .open 32768 s [.got (s.take 32768)] (s.drop 32768) :=
    .got (by decide) (Nat.le_refl _) (by omega) (.full _)
  refine ⟨_, _, h, ?_, ?_⟩
  · have hrun : ((Task.new 1 5).onSockReadHdl [.got (s.take 32768)]).1 =
        (recvLoop [.got (s.take 32768)] (Task.new 1 5)).handleCmdMsg.1 := by
      rw [onSockReadHdl, recv, if_neg (by rw [hlive]; decide)]
    rcases recvLoop_answers h _ hlive hroom with ⟨hlt, _⟩ | ⟨_, _, _, halive, hused⟩
    · omega
    · -- what fits of the requests is handled without complaint
      obtain ⟨j, t', done, hhandle, _, _, _, _, hsock⟩ := handleCmdMsg_spec (pipelined_fits 2979)
        (recvLoop [.got (s.take 32768)] (Task.new 1 5)) (s := s.drop 32768) (by
          rw [hused, ← hs]
          exact List.take_append_drop 32768 s)
      rw [hrun, hhandle, isTerminate, hsock]
      rintro (hterm | hlast)
      · exact Bool.false_ne_true (halive.symm.trans hterm)
      · simp at hlast
  · intro hnil
    have := congrArg List.length hnil
    rw [List.length_drop, List.length_nil] at this
    omega

end Task

end LibC
