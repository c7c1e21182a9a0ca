/-
LibC.Proxy.ParkTheorems — when `Parse` waits for bytes that cannot help.

`Parse` answers `0` while the head is not complete, while the frame is not
complete, and also when the head announces a frame that is shorter than the head
itself. In the first two cases more bytes lead to a frame or to an error. In
the third one they do not, and nobody looks at the length again: the connection
stays, its buffer fills up, and no command is ever handled (`readAll_parked`).
`parse_resolvable_iff` says that this is the only case.

No `sorry`, no `axiom`, no `native_decide`.
-/
import LibC.Proxy.DrainTheorems

namespace LibC

open LibC.Lib

/-! ## The length field -/

/-- The length field is there, and announces less than a head. -/
def ShortDeclared (b : Bytes) : Prop := 4 ≤ b.length ∧ (ntohl b).toNat < sizeofMsgHead

instance (b : Bytes) : Decidable (ShortDeclared b) := inferInstanceAs (Decidable (_ ∧ _))

/-- Such a length field stays what it is. -/
theorem ShortDeclared.append {b : Bytes} (h : ShortDeclared b) (s : Bytes) :
    ShortDeclared (b ++ s) := by
  refine ⟨?_, ?_⟩
  · rw [List.length_append]
    exact Nat.le_add_right_of_le h.1
  · rw [ntohl_append h.1]
    exact h.2

namespace Cmd

/-- `Parse` waits, whatever it waits for. -/
theorem parse_eq_zero_iff (c : Cmd) (b : Bytes) :
    (c.parse b).1 = 0 ↔ b.length < sizeofMsgHead ∨ (ntohl b).toNat ≤ maxCmdLen.toNat ∧
      ((ntohl b).toNat < sizeofMsgHead ∨ b.length < (ntohl b).toNat) := by
  have hgt : ntohl b > maxCmdLen ↔ ¬ (ntohl b).toNat ≤ maxCmdLen.toNat := by
    rw [gt_iff_lt, UInt32.lt_iff_toNat_lt, Nat.not_le]
  unfold parse
  by_cases h8 : b.length < sizeofMsgHead
  · simp [h8]
  · by_cases hmax : (ntohl b).toNat ≤ maxCmdLen.toNat
    · by_cases hshort : (ntohl b).toNat < sizeofMsgHead
      · simp [h8, hgt, hmax, hshort]
      · by_cases hcut : b.length < (ntohl b).toNat
        · simp [h8, hgt, hmax, hshort, hcut]
        · have hpos : (ntohl b).toNat ≠ 0 := by
            rw [sizeofMsgHead] at hshort
            omega
          simp [h8, hgt, hmax, hshort, hcut, hpos]
    · simp [h8, hgt, hmax]

/-- `Parse` goes on waiting behind a length that is too short. -/
theorem parse_of_short (c : Cmd) {b : Bytes} (h : ShortDeclared b) : (c.parse b).1 = 0 := by
  refine (c.parse_eq_zero_iff b).mpr (Or.inr ⟨?_, Or.inl h.2⟩)
  have h2 := h.2
  rw [maxCmdLen_toNat]
  rw [sizeofMsgHead] at h2
  omega

/-- `Parse` does not wait when the buffer is full, unless the length is too short. -/
theorem parse_of_full (c : Cmd) {b : Bytes} (hlen : b.length = maxCmdLen.toNat)
    (h : ¬ (ntohl b).toNat < sizeofMsgHead) : (c.parse b).1 ≠ 0 := by
  intro hzero
  rw [maxCmdLen_toNat] at hlen
  rcases (c.parse_eq_zero_iff b).mp hzero with h8 | ⟨hmax, hshort | hcut⟩
  · rw [sizeofMsgHead] at h8
    omega
  · exact h hshort
  · rw [maxCmdLen_toNat] at hmax
    omega

/-- What `Parse` waits for can still come. -/
def Resolvable (c : Cmd) (b : Bytes) : Prop :=
  (c.parse b).1 = 0 →
    ∃ s, (b ++ s).length ≤ maxCmdLen.toNat ∧ (c.parse (b ++ s)).1 ≠ 0

/-- Bytes that fill the buffer. -/
def filler (b : Bytes) : Bytes := List.replicate (maxCmdLen.toNat - b.length) 0xFF

theorem length_append_filler {b : Bytes} (hb : b.length ≤ maxCmdLen.toNat) :
    (b ++ filler b).length = maxCmdLen.toNat := by
  rw [List.length_append, filler, List.length_replicate]
  omega

/-- Bytes that fill the buffer make the length long enough, when it is not there yet. -/
theorem not_short_append_filler {b : Bytes} (hb : b.length ≤ maxCmdLen.toNat)
    (h : ¬ ShortDeclared b) : ¬ (ntohl (b ++ filler b)).toNat < sizeofMsgHead := by
  by_cases h4 : 4 ≤ b.length
  · rw [ntohl_append h4]
    exact fun hlt => h ⟨h4, hlt⟩
  · have hle := le_ntohl (b ++ filler b)
    have hlast : (b ++ filler b).getD 3 0 = 0xFF := by
      rw [maxCmdLen_toNat] at hb
      rw [List.getD_eq_getElem?_getD, List.getElem?_append_right (by omega), filler,
        List.getElem?_replicate_of_lt (by rw [maxCmdLen_toNat]; omega)]
      rfl
    rw [hlast] at hle
    rw [sizeofMsgHead]
    exact Nat.not_lt.mpr (Nat.le_trans (by decide) hle)

end Cmd

/-! ## The connection -/

namespace Task

/-- `HandleCmdMsg` leaves bytes that `Parse` waits behind. -/
theorem handleCmdMsg_wait (t : Task) (h : ∀ c : Cmd, (c.parse t.recvBuff.used).1 = 0) :
    ∃ cmd, t.handleCmdMsg = ({ t with objCmd := cmd }, []) := by
  unfold handleCmdMsg
  cases hn : t.recvBuff.usedSize with
  | zero => exact ⟨t.objCmd, rfl⟩
  | succ n =>
      refine ⟨(t.objCmd.clear.parse t.recvBuff.used).2, ?_⟩
      rw [handleLoop, if_pos (by omega)]
      simp [h t.objCmd.clear]

/-- Other bytes are a command or the end of the connection. -/
theorem handleCmdMsg_progress (t : Task) (h : ∀ c : Cmd, (c.parse t.recvBuff.used).1 ≠ 0) :
    t.handleCmdMsg.2 ≠ [] ∨ t.handleCmdMsg.1.isTerminate = true := by
  have hne : 0 < t.recvBuff.usedSize := by
    refine Nat.pos_of_ne_zero fun hz => h Cmd.new ?_
    rw [List.eq_nil_of_length_eq_zero hz]
    rfl
  obtain ⟨n, hn⟩ : ∃ n, t.recvBuff.usedSize = n + 1 := ⟨t.recvBuff.usedSize - 1, by omega⟩
  unfold handleCmdMsg
  rw [hn, handleLoop, if_pos (by omega)]
  by_cases hneg : (t.objCmd.clear.parse t.recvBuff.used).1 < 0
  · right
    simp only [if_pos hneg, isTerminate_terminate]
  · left
    simp [hneg, h t.objCmd.clear]

/-- Receiving puts what the socket delivers behind what is there, and then handles it. -/
theorem onSockReadHdl_recvs {t : Task} (hlive : t.isTerminate = false) {rets : List RecvRet}
    {s : Bytes} (h : Recvs rets t.recvBuff.remain s) :
    ∃ b, t.onSockReadHdl rets = ({ t with recvBuff := b } : Task).handleCmdMsg ∧
      b.used = t.recvBuff.used ++ s := by
  obtain ⟨b, hrun, hused, _⟩ := recvLoop_spec rets t s h
  exact ⟨b, by rw [onSockReadHdl, recv, if_neg (by rw [hlive]; decide), hrun], hused⟩

/-- **Parking.** Behind a length that is too short, nothing that arrives is handled, and the
connection stays. -/
theorem readAll_parked : ∀ (calls : List (List RecvRet)) (t : Task) (s : Bytes),
    t.isTerminate = false → ShortDeclared t.recvBuff.used → Delivered calls t s →
    (readAll calls t).2 = [] ∧ (readAll calls t).1.isTerminate = false ∧
      (readAll calls t).1.recvBuff.used = t.recvBuff.used ++ s := by
  intro calls
  induction calls with
  | nil =>
      intro t s hlive _ hdel
      obtain rfl : s = [] := hdel
      exact ⟨rfl, hlive, (List.append_nil _).symm⟩
  | cons rets calls ih =>
      intro t s hlive hshort hdel
      obtain ⟨s1, s2, rfl, hrecv, hdel⟩ := hdel
      obtain ⟨b, hread, hused⟩ := onSockReadHdl_recvs hlive hrecv
      have hshort' : ShortDeclared b.used := hused ▸ hshort.append s1
      obtain ⟨cmd, hwait⟩ := handleCmdMsg_wait { t with recvBuff := b } fun c =>
        c.parse_of_short hshort'
      rw [hwait] at hread
      rw [hread] at hdel
      obtain ⟨hnone, hlive', hused'⟩ := ih { t with recvBuff := b, objCmd := cmd } s2
        hlive hshort' hdel
      simp only [readAll, hread]
      refine ⟨hnone, hlive', ?_⟩
      rw [hused', hused, List.append_assoc]

/-- Something that can still arrive is handled as a command, or ends the connection. -/
def Unparked (t : Task) : Prop :=
  ∃ calls s, Delivered calls t s ∧
    ((readAll calls t).2 ≠ [] ∨ (readAll calls t).1.isTerminate = true)

/-- A head that is not one of a frame ends the connection. -/
def RejectsHead (t : Task) : Prop :=
  sizeofMsgHead ≤ t.recvBuff.usedSize →
    ((ntohl t.recvBuff.used).toNat < sizeofMsgHead ∨
      maxCmdLen.toNat < (ntohl t.recvBuff.used).toNat) →
    t.handleCmdMsg.1.isTerminate = true

/-- The bytes that fill the buffer are handled or end the connection. -/
theorem unparked {t : Task} (hlive : t.isTerminate = false)
    (hsize : t.recvBuff.size = maxCmdLen.toNat) (h : ¬ ShortDeclared t.recvBuff.used) :
    t.Unparked := by
  have hb : t.recvBuff.used.length ≤ maxCmdLen.toNat := hsize ▸ t.recvBuff.used_le
  have hremain : t.recvBuff.remain = (Cmd.filler t.recvBuff.used).length := by
    rw [RecvBuffer.remain, RecvBuffer.usedSize, hsize, Cmd.filler, List.length_replicate]
  obtain ⟨rets, hrecv⟩ : ∃ rets, Recvs rets t.recvBuff.remain (Cmd.filler t.recvBuff.used) := by
    by_cases hnil : Cmd.filler t.recvBuff.used = []
    · rw [hremain, hnil]
      exact ⟨[], rfl, rfl⟩
    · rw [hremain]
      refine ⟨[.got (Cmd.filler t.recvBuff.used)], List.length_pos_iff.mpr hnil, Nat.le_refl _, [],
        (List.append_nil _).symm, ?_, rfl⟩
      exact Nat.sub_self _
  obtain ⟨b, hread, hused⟩ := onSockReadHdl_recvs hlive hrecv
  have hprogress := handleCmdMsg_progress { t with recvBuff := b } fun c => by
    show (c.parse b.used).1 ≠ 0
    rw [hused]
    exact c.parse_of_full (Cmd.length_append_filler hb) (Cmd.not_short_append_filler hb h)
  refine ⟨[rets], Cmd.filler t.recvBuff.used, ⟨_, [], (List.append_nil _).symm, hrecv, rfl⟩, ?_⟩
  simp only [readAll, hread, List.append_nil]
  exact hprogress

/-- A length that is too long ends the connection. -/
theorem rejectsHead {t : Task} (h : ¬ ShortDeclared t.recvBuff.used) : t.RejectsHead := by
  intro h8 hbad
  have hlong : maxCmdLen.toNat < (ntohl t.recvBuff.used).toNat := by
    rcases hbad with hshort | hlong
    · exact absurd ⟨Nat.le_trans (by decide) h8, hshort⟩ h
    · exact hlong
  have hparse : ∀ c : Cmd, (c.parse t.recvBuff.used).1 = -1 := by
    intro c
    have hgt : ntohl t.recvBuff.used > maxCmdLen := UInt32.lt_iff_toNat_lt.mpr hlong
    have hlen : ¬ t.recvBuff.used.length < sizeofMsgHead := Nat.not_lt.mpr h8
    rw [Cmd.parse, if_neg hlen]
    simp only [if_pos hgt]
  obtain ⟨n, hn⟩ : ∃ n, t.recvBuff.usedSize = n + 1 :=
    ⟨t.recvBuff.usedSize - 1, by rw [sizeofMsgHead] at h8; omega⟩
  unfold handleCmdMsg
  rw [hn, handleLoop, if_pos (by omega)]
  simp [hparse, isTerminate_terminate]

end Task

/-- **Waiting.** For any received bytes: what `Parse` waits for can still come, and a connection
that has received them can still handle a command or end and ends at a malformed head, exactly when
they do not announce a frame that is shorter than its head. -/
theorem parse_resolvable_iff (c : Cmd) (b : Bytes) (hb : b.length ≤ maxCmdLen.toNat) :
    (c.Resolvable b ∧ ∀ t : Task, t.isTerminate = false → t.recvBuff.size = maxCmdLen.toNat →
      t.recvBuff.used = b → t.Unparked ∧ t.RejectsHead) ↔ ¬ ShortDeclared b := by
  constructor
  · rintro ⟨hres, _⟩ hshort
    obtain ⟨s, _, hne⟩ := hres (c.parse_of_short hshort)
    exact hne (c.parse_of_short (hshort.append s))
  · intro h
    refine ⟨fun _ => ⟨Cmd.filler b, Nat.le_of_eq (Cmd.length_append_filler hb),
      c.parse_of_full (Cmd.length_append_filler hb) (Cmd.not_short_append_filler hb h)⟩, ?_⟩
    rintro t hlive hsize rfl
    exact ⟨Task.unparked hlive hsize h, Task.rejectsHead h⟩

/-- The length field of a frame of nine bytes. -/
theorem parse_resolvable_nine :
    ((Cmd.new.Resolvable [0, 0, 0, 9] ∧ ∀ t : Task, t.isTerminate = false →
        t.recvBuff.size = maxCmdLen.toNat → t.recvBuff.used = [0, 0, 0, 9] →
          t.Unparked ∧ t.RejectsHead) ↔ ¬ ShortDeclared [0, 0, 0, 9]) ∧
      ¬ ShortDeclared [0, 0, 0, 9] :=
  ⟨parse_resolvable_iff Cmd.new [0, 0, 0, 9] (by decide), by decide⟩

/-- A head that announces seven bytes: `Parse` waits, and would wait behind anything else; a new
connection that has received it neither ends nor handles anything any more. -/
theorem parse_parks :
    [0, 0, 0, 7, 0, 0, 0, (0 : UInt8)].length ≤ maxCmdLen.toNat ∧
      (Cmd.new.parse [0, 0, 0, 7, 0, 0, 0, 0]).1 = 0 ∧
      ¬ Cmd.new.Resolvable [0, 0, 0, 7, 0, 0, 0, 0] ∧
      ∃ t cmds, (Task.new 1 5).onSockReadHdl [.got [0, 0, 0, 7, 0, 0, 0, 0], .again] = (t, cmds) ∧
        t.isTerminate = false ∧ cmds = [] ∧ t.recvBuff.used = [0, 0, 0, 7, 0, 0, 0, 0] ∧
        ¬ t.Unparked ∧ ¬ t.RejectsHead := by
  have hshort : ShortDeclared [0, 0, 0, 7, 0, 0, 0, 0] := by decide
  refine ⟨by decide, by decide, fun hres => ?_, _, _, rfl, by decide, by decide, by decide,
    fun h => ?_, fun h => ?_⟩
  · obtain ⟨s, _, hne⟩ := hres (by decide)
    exact hne (Cmd.new.parse_of_short (hshort.append s))
  · obtain ⟨calls, s, hdel, hend⟩ := h
    obtain ⟨hnone, hlive, _⟩ := Task.readAll_parked calls _ s (by decide) hshort hdel
    rcases hend with hcmds | hterm
    · exact hcmds hnone
    · rw [hlive] at hterm
      cases hterm
  · have hterm := h (by decide) (Or.inl (by decide))
    revert hterm
    decide

end LibC
