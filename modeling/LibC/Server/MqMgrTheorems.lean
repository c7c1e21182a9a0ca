/-
LibC.Server.MqMgrTheorems — where the answers of the server go.

A PUSH socket is numbered when it is made and connected once, so what is put on
it goes to one address (`Conns`). `run_conns` follows the calls of `mq_mgr`:
every destination has at most one socket, no two share one, and what has gone
out is what `SendMsg` accepted, in order, each message to the address it was
meant for. A socket that could not be connected is never used and never closed
(`Leaks`), and `CloseAll` waits for it for ever.

`run_delivers` is about the server: what its run puts on the wire is a part of
its answers, in order, and all of them when the library refuses nothing.

No `sorry`, no `axiom`, no `native_decide`.
-/
import LibC.Server.DispatchTheorems
import Mathlib.Data.List.Lattice

namespace LibC

open LibC.Lib

/-- A length below 2 GiB is an `int`. -/
theorem toInt_of_lt {n : ℕ} (h : n < 2 ^ 31) : toInt n = n := by
  rw [toInt, Int.bmod_eq_of_le (by omega) (by omega)]

namespace SvrMqMgr

/-- What has gone out: the address of the socket, and the message. -/
def delivered (mq : SvrMqMgr) : List (Option Bytes × Bytes) :=
  mq.out.map fun x => (mq.peer x.1, x.2)

/-- The sockets are used as they should be. -/
structure Conns (mq : SvrMqMgr) : Prop where
  fresh : ∀ sk ∈ mq.opened, sk < mq.next
  nodup : mq.opened.Nodup
  bound : ∀ sk, mq.vpPullSk = some sk → sk ∈ mq.opened ∧ mq.peer sk = none
  cached : ∀ dest sk, mq.objPushSks.find dest = some sk →
    sk ∈ mq.opened ∧ mq.peer sk = some (cString dest)
  single : ∀ dest dest' sk, mq.objPushSks.find dest = some sk →
    mq.objPushSks.find dest' = some sk → dest = dest'
  used : ∀ x ∈ mq.out, x.1 < mq.next
  leaked : ∀ sk ∈ mq.opened, (∃ dest, mq.objPushSks.find dest = some sk) ∨ mq.peer sk = none
  later : ∀ sk, mq.next ≤ sk → mq.peer sk = none

theorem conns_new : new.Conns where
  fresh _ h := by cases h
  nodup := List.nodup_nil
  bound _ h := by cases h
  cached _ _ h := by cases h
  single _ _ _ h := by cases h
  used _ h := by cases h
  leaked _ h := by cases h
  later _ _ := rfl

variable {mq : SvrMqMgr}

/-- One more socket, not connected. -/
theorem Conns.made (h : mq.Conns) (home : ℕ → ℕ) :
    ({ mq with next := mq.next + 1, opened := mq.opened ++ [mq.next], home } :
      SvrMqMgr).Conns where
  fresh sk hsk := by
    rcases List.mem_append.mp hsk with hsk | hsk
    · exact Nat.lt_succ_of_lt (h.fresh sk hsk)
    · rw [List.mem_singleton.mp hsk]
      exact Nat.lt_succ_self _
  nodup := List.nodup_append.mpr ⟨h.nodup, List.nodup_singleton _, fun a ha b hb => by
    rw [List.mem_singleton.mp hb]
    exact (h.fresh a ha).ne⟩
  bound sk hsk := ⟨List.mem_append_left _ (h.bound sk hsk).1, (h.bound sk hsk).2⟩
  cached dest sk hf := ⟨List.mem_append_left _ (h.cached dest sk hf).1, (h.cached dest sk hf).2⟩
  single := h.single
  used x hx := Nat.lt_succ_of_lt (h.used x hx)
  leaked sk hsk := by
    rcases List.mem_append.mp hsk with hsk | hsk
    · exact h.leaked sk hsk
    · rw [List.mem_singleton.mp hsk]
      exact Or.inr (h.later _ (Nat.le_refl _))
  later sk hsk := h.later sk (Nat.le_of_succ_le hsk)

/-- Another context, without a PULL socket or with one that is open and not connected. -/
theorem Conns.bind (h : mq.Conns) (vpContext vpPullSk : Option ℕ) (contexts : ℕ)
    (hbound : ∀ sk, vpPullSk = some sk → sk ∈ mq.opened ∧ mq.peer sk = none) :
    ({ mq with vpContext, vpPullSk, pull := [], contexts } : SvrMqMgr).Conns :=
  ⟨h.fresh, h.nodup, hbound, h.cached, h.single, h.used, h.leaked, h.later⟩

/-- `Init`. -/
theorem Conns.init (h : mq.Conns) (ret : InitRet) : (mq.init ret).2.Conns := by
  have hopen : mq.openPull.Conns :=
    (h.made (Function.update mq.home mq.next mq.contexts)).bind _ _ _ fun sk hsk => by
      obtain rfl := Option.some.inj hsk
      exact ⟨List.mem_append_right _ (List.mem_singleton_self _), h.later _ (Nat.le_refl _)⟩
  cases ret with
  | noContext => exact h.bind _ _ _ fun sk hsk => by cases hsk
  | noSocket => exact h.bind _ _ _ fun sk hsk => by cases hsk
  | refused => exact hopen
  | ok => exact hopen

/-- A new connection. -/
theorem Conns.addDestConn (h : mq.Conns) (conn : ConnRet) {dest : Bytes}
    (hnew : mq.findConn dest = none) :
    (mq.addDestConn conn dest).2.Conns ∧
      (mq.addDestConn conn dest).2.delivered = mq.delivered ∧
      ∀ sk, (mq.addDestConn conn dest).1 = some sk →
        (mq.addDestConn conn dest).2.objPushSks.find dest = some sk := by
  unfold SvrMqMgr.addDestConn
  cases hctx : mq.vpContext with
  | none => exact ⟨h, rfl, fun sk hsk => by cases hsk⟩
  | some ctx =>
      have hmade := h.made (Function.update mq.home mq.next ctx)
      rw [hctx] at hmade
      cases conn with
      | noSocket => exact ⟨h, rfl, fun sk hsk => by cases hsk⟩
      | refused => exact ⟨hmade, rfl, fun sk hsk => by cases hsk⟩
      | ok =>
          have hfind := Dict.find_insert hnew mq.next
          have hold : ∀ sk, sk < mq.next →
              Function.update mq.peer mq.next (some (cString dest)) sk = mq.peer sk := fun sk hsk =>
            Function.update_of_ne hsk.ne _ _
          -- a cached socket other than the new one is older than it
          have hlt : ∀ q sk, mq.objPushSks.find q = some sk → sk < mq.next := fun q sk hq =>
            h.fresh sk (h.cached q sk hq).1
          refine ⟨⟨hmade.fresh, hmade.nodup, fun sk hsk => ?_, fun q sk hq => ?_,
            fun q q' sk hq hq' => ?_, hmade.used, fun sk hsk => ?_, fun sk hsk => ?_⟩, ?_,
            fun sk hsk => ?_⟩
          · obtain ⟨hmem, hpeer⟩ := h.bound sk hsk
            exact ⟨List.mem_append_left _ hmem, (hold sk (h.fresh sk hmem)).trans hpeer⟩
          · rw [hfind] at hq
            split at hq
            · next heq =>
                obtain rfl := Option.some.inj hq
                rw [heq]
                exact ⟨List.mem_append_right _ (List.mem_singleton_self _),
                  Function.update_self _ _ _⟩
            · obtain ⟨hmem, hpeer⟩ := h.cached q sk hq
              exact ⟨List.mem_append_left _ hmem, (hold sk (hlt q sk hq)).trans hpeer⟩
          · rw [hfind] at hq hq'
            split at hq <;> split at hq'
            · next h1 h2 => rw [h1, h2]
            · obtain rfl := Option.some.inj hq
              exact absurd (hlt q' _ hq') (Nat.lt_irrefl _)
            · obtain rfl := Option.some.inj hq'
              exact absurd (hlt q _ hq) (Nat.lt_irrefl _)
            · exact h.single q q' sk hq hq'
          · rcases List.mem_append.mp hsk with hsk | hsk
            · rcases h.leaked sk hsk with ⟨q, hq⟩ | hnone
              · refine Or.inl ⟨q, ?_⟩
                rw [hfind, if_neg]
                · exact hq
                · rintro rfl
                  rw [SvrMqMgr.findConn, hq] at hnew
                  cases hnew
              · exact Or.inr ((hold sk (h.fresh sk hsk)).trans hnone)
            · rw [List.mem_singleton.mp hsk]
              exact Or.inl ⟨dest, by rw [hfind, if_pos rfl]⟩
          · show Function.update mq.peer mq.next (some (cString dest)) sk = none
            rw [Function.update_of_ne (show sk ≠ mq.next from (Nat.lt_of_succ_le hsk).ne')]
            exact h.later sk (Nat.le_of_succ_le hsk)
          · refine List.map_congr_left fun x hx => ?_
            show (Function.update mq.peer mq.next (some (cString dest)) x.1, x.2) =
              (mq.peer x.1, x.2)
            rw [hold x.1 (h.used x hx)]
          · obtain rfl := Option.some.inj hsk
            rw [hfind, if_pos rfl]

/-- What `SendMsg` accepts: its answer is not negative. -/
def acceptedBy (conn : ConnRet) (sendOk : Bool) (dest data : Bytes) (mq : SvrMqMgr) :
    List (Option Bytes × Bytes) :=
  if 0 ≤ (mq.sendMsg conn sendOk dest data).1 then [(some (cString dest), data)] else []

/-- `zmq_msg_send` on a socket in the cache. -/
theorem Conns.put (h : mq.Conns) (sendOk : Bool) {dest data : Bytes} (hlen : data.length < 2 ^ 31)
    {sk : ℕ} (hsk : mq.objPushSks.find dest = some sk) :
    let r := if sendOk then (toInt data.length, { mq with out := mq.out ++ [(sk, data)] })
      else ((-1 : ℤ), mq)
    r.2.Conns ∧ r.2.delivered =
      mq.delivered ++ if 0 ≤ r.1 then [(some (cString dest), data)] else [] := by
  obtain ⟨hmem, hpeer⟩ := h.cached dest sk hsk
  cases sendOk with
  | false => exact ⟨h, by simp⟩
  | true =>
      have hint := toInt_of_lt hlen
      refine ⟨⟨h.fresh, h.nodup, h.bound, h.cached, h.single, fun x hx => ?_, h.leaked, h.later⟩,
        ?_⟩
      · rcases List.mem_append.mp hx with hx | hx
        · exact h.used x hx
        · rw [List.mem_singleton.mp hx]
          exact h.fresh sk hmem
      · simp [delivered, hint, hpeer]

/-- `SendMsg` puts a message on the wire to its destination, or nothing. -/
theorem Conns.sendMsg (h : mq.Conns) (conn : ConnRet) (sendOk : Bool) (dest : Bytes) {data : Bytes}
    (hlen : data.length < 2 ^ 31) :
    (mq.sendMsg conn sendOk dest data).2.Conns ∧
      (mq.sendMsg conn sendOk dest data).2.delivered =
        mq.delivered ++ acceptedBy conn sendOk dest data mq := by
  unfold acceptedBy SvrMqMgr.sendMsg
  cases hf : mq.findConn dest with
  | some sk => exact h.put sendOk hlen hf
  | none =>
      obtain ⟨h', hdel, hfind⟩ := h.addDestConn conn hf
      cases hadd : mq.addDestConn conn dest with
      | mk sk mq' =>
          rw [hadd] at h' hdel hfind
          cases sk with
          | none => exact ⟨h', by simpa using hdel⟩
          | some sk =>
              have hput := h'.put sendOk hlen (hfind sk rfl)
              rw [← hdel]
              exact hput

/-- Receiving leaves the PUSH sockets alone. -/
theorem recvMsgs_out : ∀ (n : ℕ) (mq : SvrMqMgr), ∃ pull,
    (mq.recvMsgs n).2 = { mq with pull } := by
  intro n
  induction n with
  | zero => exact fun mq => ⟨mq.pull, rfl⟩
  | succ n ih =>
      intro mq
      have hrecv : ∃ pull, mq.recvMsg.2.2 = { mq with pull } := by
        unfold recvMsg
        split
        · exact ⟨mq.pull, rfl⟩
        · cases mq.pull with
          | nil => exact ⟨_, rfl⟩
          | cons m ms => exact ⟨_, rfl⟩
      obtain ⟨pull, hrecv⟩ := hrecv
      obtain ⟨pull', hrest⟩ := ih mq.recvMsg.2.2
      rw [recvMsgs]
      simp only
      split
      · exact ⟨pull, hrecv⟩
      · exact ⟨pull', by rw [hrest, hrecv]⟩

theorem Conns.of_pull (h : mq.Conns) (pull : List Bytes) : ({ mq with pull } : SvrMqMgr).Conns :=
  ⟨h.fresh, h.nodup, h.bound, h.cached, h.single, h.used, h.leaked, h.later⟩

/-- `RemvConn` closes one socket. -/
theorem Conns.remvConn (h : mq.Conns) (dest : Bytes) :
    (mq.remvConn dest).2.Conns ∧ (mq.remvConn dest).2.delivered = mq.delivered := by
  unfold SvrMqMgr.remvConn
  cases hf : mq.objPushSks.find dest with
  | none => exact ⟨h, rfl⟩
  | some sk =>
      have hfind := Dict.find_erase mq.objPushSks dest
      have hmem : ∀ x, x ∈ mq.opened.erase sk ↔ x ≠ sk ∧ x ∈ mq.opened := fun x =>
        h.nodup.mem_erase_iff
      have hkeep : ∀ {q x}, (mq.objPushSks.erase dest).find q = some x →
          q ≠ dest ∧ mq.objPushSks.find q = some x := by
        intro q x hq
        rw [hfind] at hq
        split at hq
        · cases hq
        · next hne => exact ⟨hne, hq⟩
      refine ⟨⟨fun x hx => h.fresh x ((hmem x).mp hx).2, h.nodup.erase sk, fun x hx => ?_,
        fun q x hq => ?_, fun q q' x hq hq' => h.single q q' x (hkeep hq).2 (hkeep hq').2, h.used,
        fun x hx => ?_, h.later⟩, rfl⟩
      · obtain ⟨hopen, hnone⟩ := h.bound x hx
        refine ⟨(hmem x).mpr ⟨?_, hopen⟩, hnone⟩
        rintro rfl
        rw [(h.cached dest x hf).2] at hnone
        cases hnone
      · obtain ⟨hne, hold⟩ := hkeep hq
        obtain ⟨hopen, hpeer⟩ := h.cached q x hold
        refine ⟨(hmem x).mpr ⟨?_, hopen⟩, hpeer⟩
        rintro rfl
        exact hne (h.single q dest x hold hf)
      · obtain ⟨hne, hopen⟩ := (hmem x).mp hx
        rcases h.leaked x hopen with ⟨q, hq⟩ | hnone
        · refine Or.inl ⟨q, ?_⟩
          rw [hfind, if_neg]
          · exact hq
          · rintro rfl
            rw [hf] at hq
            exact hne (Option.some.inj hq).symm
        · exact Or.inr hnone

/-- A socket of the context that `AddDestConn` could not connect is open. -/
def Leaks (mq : SvrMqMgr) : Prop :=
  ∃ sk ∈ mq.opened, some (mq.home sk) = mq.vpContext ∧ mq.peer sk = none ∧
    mq.vpPullSk ≠ some sk

/-- What `CloseAll` leaves open was never connected. -/
theorem Conns.mem_left (h : mq.Conns) (sk : ℕ) :
    sk ∈ mq.left ↔ sk ∈ mq.opened ∧ mq.peer sk = none ∧ mq.vpPullSk ≠ some sk := by
  rw [left, (h.nodup.diff).mem_sdiff_iff, h.nodup.mem_sdiff_iff, Option.mem_toList, and_assoc]
  refine and_congr_right fun hopen => ?_
  rw [and_comm]
  refine and_congr_left fun _ => ⟨fun hnot => ?_, fun hnone hmem => ?_⟩
  · rcases h.leaked sk hopen with ⟨q, hq⟩ | hnone
    · exact absurd (List.mem_map_of_mem (Dict.find_eq_some.mp hq)) hnot
    · exact hnone
  · obtain ⟨⟨q, x⟩, hentry, rfl⟩ := List.mem_map.mp hmem
    rw [(h.cached q x (Dict.find_eq_some.mpr hentry)).2] at hnone
    cases hnone

/-- `CloseAll` comes back when there is no context; else when what was sent goes out and every
socket of the context that was not connected has been closed. -/
theorem Conns.closeAll_isSome (h : mq.Conns) (flushed : Bool) :
    (∃ mq', mq.closeAll flushed = some mq') ↔
      (mq.vpContext.isSome → flushed = true ∧ ¬ mq.Leaks) := by
  unfold SvrMqMgr.closeAll
  cases hctx : mq.vpContext with
  | none => simp
  | some ctx =>
      have hleaks : (∀ sk ∈ mq.left, mq.home sk ≠ ctx) ↔ ¬ mq.Leaks := by
        constructor
        · rintro hall ⟨sk, hopen, hhome, hnone, hpull⟩
          rw [hctx] at hhome
          exact hall sk ((h.mem_left sk).mpr ⟨hopen, hnone, hpull⟩) (Option.some.inj hhome)
        · rintro hno sk hsk rfl
          obtain ⟨hopen, hnone, hpull⟩ := (h.mem_left sk).mp hsk
          exact hno ⟨sk, hopen, hctx.symm, hnone, hpull⟩
      simp only [← hleaks]
      split
      · next hyes => exact iff_of_true ⟨_, rfl⟩ fun _ => hyes
      · next hno => exact iff_of_false (fun ⟨_, hsome⟩ => by cases hsome) fun hall => hno (hall rfl)

/-- Then no socket of the context is open. -/
theorem Conns.closeAll (h : mq.Conns) {flushed : Bool} {mq' : SvrMqMgr}
    (hclose : mq.closeAll flushed = some mq') :
    mq'.Conns ∧ mq'.delivered = mq.delivered ∧
      ∀ ctx, mq.vpContext = some ctx → ∀ sk ∈ mq'.opened, mq'.home sk ≠ ctx := by
  have hclosed : ({ mq with vpContext := none, vpPullSk := none, pull := []
                            objPushSks := Dict.empty, opened := mq.left } : SvrMqMgr).Conns := by
    refine ⟨fun x hx => h.fresh x ((h.mem_left x).mp hx).1, h.nodup.diff.diff,
      fun _ hq => (by cases hq), fun _ _ hq => (by cases hq), fun _ _ _ hq => (by cases hq), h.used,
      fun x hx => Or.inr ((h.mem_left x).mp hx).2.1, h.later⟩
  unfold SvrMqMgr.closeAll at hclose
  cases hctx : mq.vpContext with
  | none =>
      rw [hctx] at hclose
      obtain rfl := Option.some.inj hclose
      exact ⟨hclosed, rfl, fun ctx hc => by cases hc⟩
  | some ctx =>
      simp only [hctx] at hclose
      split at hclose
      · next hyes =>
          obtain rfl := Option.some.inj hclose
          refine ⟨hclosed, rfl, fun ctx' hc => ?_⟩
          obtain rfl := Option.some.inj hc
          exact hyes.2
      · cases hclose

/-! ## Runs -/

/-- What a call accepts. -/
def Op.accepted : Op → SvrMqMgr → List (Option Bytes × Bytes)
  | .sendMsg conn sendOk dest data, mq => acceptedBy conn sendOk dest data mq
  | .init _, _ | .arrive _, _ | .recvMsgs _, _ | .remvConn _, _ | .closeAll _, _ => []

/-- What the calls of a run accept, in order. -/
def accepted : List Op → SvrMqMgr → List (Option Bytes × Bytes)
  | [], _ => []
  | op :: ops, mq => op.accepted mq ++ ((step op mq).map (accepted ops)).getD []

/-- The call is no `CloseAll`, or one that comes back. -/
def Returns : Op → SvrMqMgr → Prop
  | .closeAll flushed, mq => mq.vpContext.isSome → flushed = true ∧ ¬ mq.Leaks
  | .init _, _ | .arrive _, _ | .sendMsg .., _ | .recvMsgs _, _ | .remvConn _, _ => True

/-- One call. -/
theorem Conns.step (h : mq.Conns) (op : Op) :
    ((∃ mq', SvrMqMgr.step op mq = some mq') ↔ Returns op mq) ∧
      ∀ mq', SvrMqMgr.step op mq = some mq' →
        mq'.Conns ∧ mq'.delivered = mq.delivered ++ op.accepted mq := by
  -- a call that always comes back
  have hret : ∀ {mq1 : SvrMqMgr}, SvrMqMgr.step op mq = some mq1 → Returns op mq →
      mq1.Conns ∧ mq1.delivered = mq.delivered ++ op.accepted mq →
      ((∃ mq', SvrMqMgr.step op mq = some mq') ↔ Returns op mq) ∧
        ∀ mq', SvrMqMgr.step op mq = some mq' →
          mq'.Conns ∧ mq'.delivered = mq.delivered ++ op.accepted mq := by
    intro mq1 hstep hreturns hgood
    refine ⟨iff_of_true ⟨mq1, hstep⟩ hreturns, fun mq' hstep' => ?_⟩
    obtain rfl := Option.some.inj (hstep.symm.trans hstep')
    exact hgood
  cases op with
  | init ret =>
      refine hret rfl trivial ⟨h.init ret, ?_⟩
      cases ret <;> exact (List.append_nil _).symm
  | arrive msg => exact hret rfl trivial ⟨h.of_pull _, (List.append_nil _).symm⟩
  | sendMsg conn sendOk dest data =>
      exact hret rfl trivial (h.sendMsg conn sendOk dest data.property)
  | recvMsgs n =>
      obtain ⟨pull, hpull⟩ := recvMsgs_out n mq
      refine hret rfl trivial ?_
      rw [hpull]
      exact ⟨h.of_pull pull, (List.append_nil _).symm⟩
  | remvConn dest =>
      obtain ⟨h1, hdel⟩ := h.remvConn dest
      exact hret rfl trivial ⟨h1, by rw [hdel]; exact (List.append_nil _).symm⟩
  | closeAll flushed =>
      refine ⟨h.closeAll_isSome flushed, fun mq' hclose => ?_⟩
      obtain ⟨h1, hdel, _⟩ := h.closeAll hclose
      exact ⟨h1, by rw [hdel]; exact (List.append_nil _).symm⟩

/-- The calls of a run, from sockets that are used as they should be. -/
theorem Conns.run : ∀ (ops : List Op) {mq : SvrMqMgr}, mq.Conns →
    ((∃ mq', Lib.run SvrMqMgr.step ops mq = some mq') ↔ Along SvrMqMgr.step Returns ops mq) ∧
      ∀ mq', Lib.run SvrMqMgr.step ops mq = some mq' →
        mq'.Conns ∧ mq'.delivered = mq.delivered ++ accepted ops mq := by
  intro ops
  induction ops with
  | nil =>
      intro mq h
      refine ⟨iff_of_true ⟨mq, rfl⟩ trivial, fun mq' hrun => ?_⟩
      cases hrun
      exact ⟨h, (List.append_nil _).symm⟩
  | cons op ops ih =>
      intro mq h
      obtain ⟨hreturns, hstep⟩ := h.step op
      constructor
      · constructor
        · rintro ⟨mq', hrun⟩
          obtain ⟨m, hm, hrest⟩ := run_cons.mp hrun
          refine ⟨hreturns.mp ⟨m, hm⟩, fun m' hm' => ?_⟩
          obtain rfl := Option.some.inj (hm.symm.trans hm')
          exact (ih (hstep m hm).1).1.mp ⟨mq', hrest⟩
        · rintro ⟨hP, hrest⟩
          obtain ⟨m, hm⟩ := hreturns.mpr hP
          obtain ⟨mq', hrun⟩ := (ih (hstep m hm).1).1.mpr (hrest m hm)
          exact ⟨mq', run_cons.mpr ⟨m, hm, hrun⟩⟩
      · intro mq' hrun
        obtain ⟨m, hm, hrest⟩ := run_cons.mp hrun
        obtain ⟨h1, hdel⟩ := hstep m hm
        obtain ⟨h', hdel'⟩ := (ih h1).2 mq' hrest
        refine ⟨h', ?_⟩
        rw [hdel', hdel, accepted, hm, Option.map_some, Option.getD_some, List.append_assoc]

/-- **Connections.** A run of calls of `mq_mgr` and of messages that arrive, in any order and with
any answers of the library, comes back exactly when no `CloseAll` in it finds a context of which
a socket that could not be connected is open, or whose messages do not go out. After every run
that does, each destination has one socket at most and no two share one; a socket in the cache is
open and connected to the address of its destination; an open one that is not in the cache was
never connected; what has gone out is what `SendMsg` accepted, in order, each message to the
address of its destination; and a `CloseAll` that comes back then leaves no socket of the context
open. -/
theorem run_conns (ops : List Op) :
    ((∃ mq, Lib.run step ops new = some mq) ↔ Along step Returns ops new) ∧
      ∀ mq, Lib.run step ops new = some mq →
        mq.Conns ∧ mq.delivered = accepted ops new ∧
        ∀ flushed mq', mq.closeAll flushed = some mq' →
          ∀ ctx, mq.vpContext = some ctx → ∀ sk ∈ mq'.opened, mq'.home sk ≠ ctx := by
  obtain ⟨hends, hgood⟩ := conns_new.run ops
  refine ⟨hends, fun mq hrun => ?_⟩
  obtain ⟨h, hdel⟩ := hgood mq hrun
  exact ⟨h, hdel, fun flushed mq' hclose => (h.closeAll hclose).2.2⟩

end SvrMqMgr

/-! ## The server -/

namespace MsgLoop

variable {α : Type} [LinearOrder α] [Neg α] [One α] [Zero α]

/-- The answers, as they should go out: the address, and the bytes of the message. -/
def answers (c : MsgCodecs α) (s : MsgLoop α) : List (Option Bytes × Bytes) :=
  s.sent.map fun x => (some (cString x.1), c.transApp.serializeAsString x.2)

/-- The environment refuses nothing. -/
def Accepting : Event α → Prop
  | .arrive _ => True
  | .onProc env => ∀ i, (env i).conn = .ok ∧ (env i).sendOk = true

/-- What has gone out is a part of the answers, and all of them in a run in which the library
refuses nothing. -/
structure Delivers (c : MsgCodecs α) (smooth : Prop) (s : MsgLoop α) : Prop where
  conns : s.mq.Conns
  sublist : s.mq.delivered.Sublist (s.answers c)
  all : smooth → s.mq.up = true ∧ s.mq.delivered = s.answers c

/-- On a connection that is there or can be made, and takes the message, `SendMsg` accepts it. -/
theorem acceptedBy_ok {mq : SvrMqMgr} (hup : mq.up = true) (dest : Bytes)
    {data : Bytes} (hlen : data.length < 2 ^ 31) :
    SvrMqMgr.acceptedBy .ok true dest data mq = [(some (cString dest), data)] := by
  have hint : (0 : ℤ) ≤ toInt data.length := by
    rw [toInt_of_lt hlen]
    exact Int.natCast_nonneg _
  have hpos : 0 ≤ (mq.sendMsg .ok true dest data).1 := by
    unfold SvrMqMgr.sendMsg
    cases hf : mq.findConn dest with
    | some sk => simpa using hint
    | none =>
        obtain ⟨⟨ctx, hctx⟩, _⟩ :=
          (Bool.and_eq_true_iff.mp hup).imp_left Option.isSome_iff_exists.mp
        simpa [SvrMqMgr.addDestConn, hctx] using hint
  rw [SvrMqMgr.acceptedBy, if_pos hpos]

/-- One message. -/
theorem Delivers.processMQMsg {c : MsgCodecs α} {smooth : Prop} {s s' : MsgLoop α}
    (h : Delivers c smooth s) (toScore : ToScore α) {env : MsgEnv α} (data : Bytes)
    (henv : smooth → env.conn = .ok ∧ env.sendOk = true)
    (hrun : s.processMQMsg c toScore env data = some s') : Delivers c smooth s' := by
  have hsame : ∀ {t : MsgLoop α}, t.mq = s.mq → t.sent = s.sent → Delivers c smooth t := by
    intro t hmq hsent
    have hans : t.answers c = s.answers c := by rw [answers, hsent, answers]
    exact ⟨by rw [hmq]; exact h.conns, by rw [hmq, hans]; exact h.sublist,
      fun hs => by rw [hmq, hans]; exact h.all hs⟩
  unfold MsgLoop.processMQMsg at hrun
  cases ht : c.transApp.parseFromString data with
  | none =>
      simp only [ht, Option.some.injEq] at hrun
      exact hsame (by rw [← hrun]) (by rw [← hrun])
  | some t =>
      cases hreq : c.parse t with
      | none =>
          simp only [ht, hreq, Option.some.injEq] at hrun
          exact hsame (by rw [← hrun]) (by rw [← hrun])
      | some req =>
          simp only [ht, hreq, Option.bind_eq_bind, Option.bind_eq_some_iff,
            Option.some.injEq] at hrun
          obtain ⟨⟨rsp, d⟩, _, rfl⟩ := hrun
          obtain ⟨msg, hmsg⟩ : ∃ msg, msg = World.responseMsg t (c.serialize rsp) := ⟨_, rfl⟩
          have hlen := c.transApp.size_lt msg
          obtain ⟨h', hdel⟩ := h.conns.sendMsg env.conn env.sendOk t.src hlen
          have hans : ({ s with db := d, handled := s.handled ++ [data] }.respond c env t
              rsp).answers c =
                s.answers c ++ [(some (cString t.src), c.transApp.serializeAsString msg)] := by
            simp [answers, respond, hmsg]
          have hone : (SvrMqMgr.acceptedBy env.conn env.sendOk t.src
              (c.transApp.serializeAsString msg) s.mq).Sublist
                [(some (cString t.src), c.transApp.serializeAsString msg)] := by
            unfold SvrMqMgr.acceptedBy
            split
            · exact List.Sublist.refl _
            · exact List.nil_sublist _
          refine ⟨by rw [hmsg] at h'; exact h', ?_, fun hs => ?_⟩
          · rw [hans, respond, ← hmsg]
            simp only
            rw [hdel]
            exact h.sublist.append hone
          · obtain ⟨hctx, hall⟩ := h.all hs
            obtain ⟨hok, hsend⟩ := henv hs
            rw [hans, respond, ← hmsg]
            simp only
            rw [hdel, hall, hok, hsend, acceptedBy_ok hctx _ hlen]
            exact ⟨by rw [(s.mq.sendMsg_pull .ok true t.src _).2, hctx], rfl⟩

/-- The messages of a round. -/
theorem Delivers.processMsgs {c : MsgCodecs α} {smooth : Prop} (toScore : ToScore α)
    {env : ℕ → MsgEnv α} (henv : smooth → ∀ i, (env i).conn = .ok ∧ (env i).sendOk = true) :
    ∀ (msgs : List Bytes) (i : ℕ) {s s' : MsgLoop α}, Delivers c smooth s →
      processMsgs c toScore env i msgs s = some s' → Delivers c smooth s' := by
  intro msgs
  induction msgs with
  | nil =>
      intro i s s' h hrun
      cases hrun
      exact h
  | cons m msgs ih =>
      intro i s s' h hrun
      simp only [MsgLoop.processMsgs, Option.bind_eq_bind, Option.bind_eq_some_iff] at hrun
      obtain ⟨s1, hone, hrest⟩ := hrun
      have h1 := h.processMQMsg toScore m (fun hs => henv hs i) hone
      exact ih (i + 1) h1 hrest

/-- One event. -/
theorem Delivers.step {c : MsgCodecs α} {smooth : Prop} {toScore : ToScore α} {s s' : MsgLoop α}
    (h : Delivers c smooth s) {ev : Event α} (hev : smooth → Accepting ev)
    (hstep : MsgLoop.step c toScore ev s = some s') : Delivers c smooth s' := by
  cases ev with
  | arrive m =>
      obtain rfl := Option.some.inj hstep
      exact ⟨h.conns.of_pull _, h.sublist, h.all⟩
  | onProc env =>
      simp only [MsgLoop.step, MsgLoop.processMQRecv, Option.map_eq_some_iff] at hstep
      obtain ⟨⟨ret, _⟩, hrun, rfl⟩ := hstep
      obtain ⟨pull, hpull⟩ := SvrMqMgr.recvMsgs_out 10 s.mq
      have h1 : Delivers c smooth { s with mq := (s.mq.recvMsgs 10).2 } := by
        rw [hpull]
        exact ⟨h.conns.of_pull _, h.sublist, h.all⟩
      split at hrun
      · cases hrun
        exact h1
      · simp only [Option.bind_eq_bind, Option.bind_eq_some_iff, Option.some.injEq,
          Prod.mk.injEq] at hrun
        obtain ⟨_, hmsgs, _, rfl⟩ := hrun
        exact h1.processMsgs toScore hev _ 0 hmsgs

/-- **What goes out.** In every run of the server what has gone out is a part of its answers, in
order, each to the address of its request's `src`; and when the library refuses nothing, all
of the answers have. -/
theorem run_delivers (c : MsgCodecs α) (toScore : ToScore α) (d : Db α) (h : d.Live)
    (evs : List (Event α)) :
    ∃ s, Lib.run (MsgLoop.step c toScore) evs (init d) = some s ∧
      s.mq.delivered.Sublist (s.answers c) ∧
      ((∀ ev ∈ evs, Accepting ev) → s.mq.delivered = s.answers c) := by
  obtain ⟨s, hrun, _⟩ := (served_init c h).runs toScore evs
  have hs := run_invariant_mem (Delivers c (∀ ev ∈ evs, Accepting ev))
    (fun ev hev s s' hs hstep => hs.step (fun hall => hall ev hev) hstep)
    ⟨SvrMqMgr.conns_new.init .ok, List.Sublist.refl _, fun _ => ⟨rfl, rfl⟩⟩ hrun
  exact ⟨s, hrun, hs.sublist, fun hall => (hs.all hall).2⟩

/-- The library refuses nothing, and both answers have gone out. -/
theorem run_delivers_two : Db.Live (Db.new : Db ℤ) ∧ ∃ s,
    Lib.run (MsgLoop.step setThenTop intScore) setThenTopEvents (init Db.new) = some s ∧
      s.mq.delivered.Sublist (s.answers setThenTop) ∧ s.mq.delivered = s.answers setThenTop := by
  obtain ⟨s, hrun, hsub, hall⟩ :=
    run_delivers setThenTop intScore Db.new dbLive_new setThenTopEvents
  refine ⟨dbLive_new, s, hrun, hsub, hall fun ev hev => ?_⟩
  simp only [setThenTopEvents, List.mem_cons, List.not_mem_nil, or_false] at hev
  rcases hev with rfl | rfl | rfl
  · trivial
  · trivial
  · exact fun _ => ⟨rfl, rfl⟩

end MsgLoop

end LibC
