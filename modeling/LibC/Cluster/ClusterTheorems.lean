/-
LibC.Cluster.ClusterTheorems — many servers are one leaderboard.

A request concerns the board of its key and no other (`Boards.after_self`,
`Boards.after_other`), so requests for keys of different servers do not see each
other. `GetKeyId` names the key that the server will find in the request
(`getKeyId_of_parse`), and `SendMsg` picks the server by the key alone; whatever
proxy a request comes through, the server that owns its key gets it. `Sharded` is
the invariant, and `run_cluster` says what it is good for: the answers of all
servers, in the order in which they are sent, are those of one leaderboard that is
given all requests in the order in which they are handled.

No `sorry`, no `axiom`, no `native_decide`.
-/
import LibC.Cluster.Cluster
import LibC.Proxy.MqMgrTheorems
import LibC.Server.LeaderboardTheorems

namespace LibC

open LibC.Lib

variable {α : Type} [LinearOrder α] [Neg α] [One α]

/-! ## Requests and keys -/

/-- `key_id` of a request. -/
def Req.keyId : Req α → Bytes
  | .setBatch req => req.keyId
  | .getScoreBatch req => req.keyId
  | .rankBatchQuery req => req.keyId
  | .rangeQuery req => req.keyId
  | .rangeByScoreQuery req => req.keyId
  | .topQuery req => req.keyId

namespace Boards

variable {bs bs' : Boards α}

omit [Neg α] [One α] in
theorem setAll_self (key : Bytes) : ∀ (xs : List (MsgSetMemData α)) (bs : Boards α),
    bs.setAll key xs key = xs.foldl (fun b x => b.set x.score x.data) (bs key)
  | [], _ => rfl
  | x :: xs, bs => by
      have h := setAll_self key xs (bs.set key x.score x.data)
      rwa [Boards.set, Function.update_self] at h

omit [Neg α] [One α] in
theorem setAll_other {key q : Bytes} (hq : q ≠ key) : ∀ (xs : List (MsgSetMemData α))
    (bs : Boards α), bs.setAll key xs q = bs q
  | [], _ => rfl
  | x :: xs, bs => by
      have h := setAll_other hq xs (bs.set key x.score x.data)
      rwa [Boards.set, Function.update_of_ne hq] at h

omit [Neg α] [One α] in
/-- A request depends on the board of its key. -/
theorem after_self {req : Req α} (h : bs req.keyId = bs' req.keyId) :
    bs.after req req.keyId = bs'.after req req.keyId := by
  cases req with
  | setBatch req =>
      show bs.setAll req.keyId req.dataList req.keyId = bs'.setAll req.keyId req.dataList req.keyId
      have hkey : bs req.keyId = bs' req.keyId := h
      rw [setAll_self, setAll_self, hkey]
  | _ => exact h

omit [Neg α] [One α] in
/-- It changes no other. -/
theorem after_other {req : Req α} {q : Bytes} (hq : q ≠ req.keyId) : bs.after req q = bs q := by
  cases req with
  | setBatch req => exact setAll_other hq req.dataList bs
  | _ => rfl

/-- Its answer depends on the board of its key. -/
theorem answer_congr [Zero α] (toScore : ToScore α) {req : Req α}
    (h : bs req.keyId = bs' req.keyId) : bs.answer toScore req = bs'.answer toScore req := by
  cases req <;> simp only [Req.keyId] at h <;> simp only [answer, h]

omit [Neg α] [One α] in
theorem untiedSets_congr (key : Bytes) : ∀ (xs : List (MsgSetMemData α)) {bs bs' : Boards α},
    bs key = bs' key → UntiedSets key xs bs → UntiedSets key xs bs'
  | [], _, _, _, _ => trivial
  | x :: xs, bs, bs', h, hu => by
      refine ⟨h ▸ hu.1, untiedSets_congr key xs ?_ hu.2⟩
      rw [Boards.set, Boards.set, Function.update_self, Function.update_self, h]

omit [Neg α] [One α] in
/-- So does whether it ties members. -/
theorem untied_congr {req : Req α} (h : bs req.keyId = bs' req.keyId) (hu : Untied req bs) :
    Untied req bs' := by
  cases req with
  | setBatch req => exact untiedSets_congr req.keyId req.dataList h hu
  | _ => trivial

end Boards

omit [LinearOrder α] [Neg α] [One α] in
/-- `GetKeyId` is the key of the request that the server parses. -/
theorem getKeyId_of_parse {c : MsgCodecs α} {t : MsgTransApp} {req : Req α}
    (h : c.parse t = some req) : c.getKeyId t.appData t.cmdId = req.keyId := by
  unfold MsgCodecs.parse at h
  -- one case for each command; the two functions ask for them in different orders
  split_ifs at h with h1 h2 h3 h4 h5 h6 <;>
    obtain ⟨r, hr, rfl⟩ := Option.map_eq_some_iff.mp h <;>
    simp_all [MsgCodecs.getKeyId, Req.keyId, BsCmd.msgSetBatchReq, BsCmd.msgGetScoreBatchReq,
      BsCmd.msgTopQueryReq, BsCmd.msgRangeQueryReq, BsCmd.msgRangeByScoreQueryReq,
      BsCmd.msgRankBatchQueryReq]

/-! ## Owners -/

namespace Cluster

variable {cfg : ClusterConfig α} {k : ℕ}

/-- The requests for a key go to server `k`. -/
def Owns (cfg : ClusterConfig α) (k : ℕ) (key : Bytes) : Prop :=
  cfg.mgr.sendTo cfg.bucketNum key = some (some k)

theorem Owns.unique {j : ℕ} {key : Bytes} (h : Owns cfg k key) (h' : Owns cfg j key) : k = j :=
  Option.some.inj (Option.some.inj (h.symm.trans h'))

/-- A message is for server `k`. -/
def Meant (cfg : ClusterConfig α) (k : ℕ) (m : Bytes) : Prop :=
  ∀ t req, cfg.codecs.request? m = some (t, req) → Owns cfg k req.keyId

/-- Two collections of boards have the same ones for the keys of server `k`. -/
def Agree (cfg : ClusterConfig α) (k : ℕ) (bs bs' : Boards α) : Prop :=
  ∀ key, Owns cfg k key → bs key = bs' key

theorem Agree.after {bs bs' : Boards α} (h : Agree cfg k bs bs') {req : Req α}
    (hreq : Owns cfg k req.keyId) : Agree cfg k (bs.after req) (bs'.after req) := by
  intro key hkey
  by_cases heq : key = req.keyId
  · rw [heq]
    exact Boards.after_self (h req.keyId hreq)
  · rw [Boards.after_other heq, Boards.after_other heq]
    exact h key hkey

/-- A request for another server. -/
theorem Agree.after_left {bs bs' : Boards α} (h : Agree cfg k bs bs') {req : Req α} {j : ℕ}
    (hreq : Owns cfg j req.keyId) (hjk : j ≠ k) : Agree cfg k (bs.after req) bs' := by
  intro key hkey
  have hne : key ≠ req.keyId := fun heq => hjk (hreq.unique (heq ▸ hkey))
  rw [Boards.after_other hne]
  exact h key hkey

/-- The messages for server `k` are answered from its boards. -/
theorem Agree.feed [Zero α] : ∀ {ms : List Bytes} {bs bs' : Boards α},
    (∀ m ∈ ms, Meant cfg k m) → Agree cfg k bs bs' →
      Boards.feed cfg.codecs cfg.toScore ms bs = Boards.feed cfg.codecs cfg.toScore ms bs'
  | [], _, _, _, _ => rfl
  | m :: ms, bs, bs', hm, h => by
      have hms : ∀ m' ∈ ms, Meant cfg k m' := fun m' hm' => hm m' (List.mem_cons_of_mem _ hm')
      cases hr : cfg.codecs.request? m with
      | none =>
          simp only [Boards.feed, hr]
          exact Agree.feed hms h
      | some r =>
          have hown := hm m List.mem_cons_self r.1 r.2 hr
          simp only [Boards.feed, hr, Boards.answer_congr cfg.toScore (h r.2.keyId hown),
            Agree.feed hms (h.after hown)]

/-! ## The part of a server in a history -/

/-- The messages that server `k` has handled. -/
def part (k : ℕ) (history : List (ℕ × Bytes)) : List Bytes :=
  (history.filter fun x => x.1 = k).map Prod.snd

theorem part_append (k : ℕ) (h h' : List (ℕ × Bytes)) :
    part k (h ++ h') = part k h ++ part k h' := by
  rw [part, List.filter_append, List.map_append]
  rfl

theorem part_self (k : ℕ) (ms : List Bytes) : part k (ms.map fun m => (k, m)) = ms := by
  have hall : (ms.map fun m => (k, m)).filter (fun x => x.1 = k) = ms.map fun m => (k, m) := by
    refine List.filter_eq_self.mpr fun x hx => ?_
    obtain ⟨m, _, rfl⟩ := List.mem_map.mp hx
    exact decide_eq_true rfl
  rw [part, hall, List.map_map]
  exact List.map_id ms

theorem part_other {j k : ℕ} (hjk : j ≠ k) (ms : List Bytes) :
    part k (ms.map fun m => (j, m)) = [] := by
  have hnone : (ms.map fun m => (j, m)).filter (fun x => x.1 = k) = [] := by
    refine List.filter_eq_nil_iff.mpr fun x hx => ?_
    obtain ⟨m, _, rfl⟩ := List.mem_map.mp hx
    simpa using hjk
  rw [part, hnone, List.map_nil]

/-- **The part of a server.** It leaves the same boards for the keys of the server as the whole
history, and ties no members when the whole history does not. -/
theorem Agree.part : ∀ {history : List (ℕ × Bytes)} {bs bs' : Boards α},
    (∀ x ∈ history, Meant cfg x.1 x.2) → Agree cfg k bs bs' →
      Agree cfg k (Boards.afterAll cfg.codecs (history.map Prod.snd) bs)
          (Boards.afterAll cfg.codecs (Cluster.part k history) bs') ∧
        (Boards.UntiedAll cfg.codecs (history.map Prod.snd) bs →
          Boards.UntiedAll cfg.codecs (Cluster.part k history) bs')
  | [], _, _, _, h => ⟨h, fun _ => trivial⟩
  | (j, m) :: history, bs, bs', hm, h => by
      have hrest : ∀ x ∈ history, Meant cfg x.1 x.2 := fun x hx => hm x (List.mem_cons_of_mem _ hx)
      have hone : Meant cfg j m := hm (j, m) List.mem_cons_self
      by_cases hjk : j = k
      · have hpart : Cluster.part k ((j, m) :: history) = m :: Cluster.part k history := by
          simp [Cluster.part, hjk]
        rw [hpart, List.map_cons]
        cases hr : cfg.codecs.request? m with
        | none =>
            simp only [Boards.afterAll, Boards.UntiedAll, hr]
            exact Agree.part hrest h
        | some r =>
            have hown := hjk ▸ hone r.1 r.2 hr
            obtain ⟨hagree, huntied⟩ := Agree.part hrest (h.after hown)
            simp only [Boards.afterAll, Boards.UntiedAll, hr]
            exact ⟨hagree, fun hu => ⟨Boards.untied_congr (h r.2.keyId hown) hu.1, huntied hu.2⟩⟩
      · have hpart : Cluster.part k ((j, m) :: history) = Cluster.part k history := by
          simp [Cluster.part, hjk]
        rw [hpart, List.map_cons]
        cases hr : cfg.codecs.request? m with
        | none =>
            simp only [Boards.afterAll, Boards.UntiedAll, hr]
            exact Agree.part hrest h
        | some r =>
            obtain ⟨hagree, huntied⟩ := Agree.part hrest (h.after_left (hone r.1 r.2 hr) hjk)
            simp only [Boards.afterAll, Boards.UntiedAll, hr]
            exact ⟨hagree, fun hu => huntied hu.2⟩

omit [LinearOrder α] [Neg α] [One α] in
/-- The part of a server sets no more than the whole. -/
theorem entries_part_le (c : MsgCodecs α) (k : ℕ) : ∀ history : List (ℕ × Bytes),
    (c.entries (part k history)).length ≤ (c.entries (history.map Prod.snd)).length
  | [] => Nat.le_refl _
  | (j, m) :: history => by
      have ih := entries_part_le c k history
      have hone : (j, m) :: history = [(j, m)] ++ history := rfl
      rw [hone, part_append, List.map_append, c.entries_append, c.entries_append,
        List.length_append, List.length_append]
      have hm : (c.entries (part k [(j, m)])).length ≤
          (c.entries ([(j, m)].map Prod.snd)).length := by
        by_cases hjk : j = k <;> simp [part, hjk, MsgCodecs.entries]
      omega

/-! ## Runs -/

/-- What arrives at server `k` and happens there. -/
def seen (cfg : ClusterConfig α) (k : ℕ) : List (Event α) → List (MsgLoop.Event α) :=
  List.filterMap fun ev => match ev with
    | .doCmd task pullAddr cmd sendOk =>
        (message cfg task pullAddr cmd).bind fun r =>
          if sendOk ∧ cfg.mgr.sendTo cfg.bucketNum r.1 = some (some k) then
            some (.arrive (cfg.codecs.transApp.serializeAsString r.2))
          else none
    | .onProc j env => if j = k then some (.onProc env) else none

/-- There is a server, and there are buckets; their number fits an `int`. -/
structure Valid (cfg : ClusterConfig α) : Prop where
  servers : 1 ≤ cfg.mgr.pushSks.length
  buckets : 1 ≤ cfg.bucketNum
  fits : cfg.bucketNum < 2 ^ 31

/-- Every key has an owner. -/
theorem Valid.owner (h : Valid cfg) (key : Bytes) : ∃ k, Owns cfg k key := by
  obtain ⟨B, hB⟩ : ∃ B : ℕ, cfg.bucketNum = B :=
    ⟨cfg.bucketNum.toNat, (Int.toNat_of_nonneg (by have := h.buckets; omega)).symm⟩
  have h1 := h.buckets
  have h2 := h.fits
  have hidx := MqMgr.getIndex_eq rfl h.servers (show 1 ≤ B by omega) (show B < 2 ^ 31 by omega) key
  have hlt := blockOf_lt (n := cfg.mgr.pushSks.length) h.servers (B / cfg.mgr.pushSks.length)
    ((hash key).toNat % B)
  refine ⟨cfg.mgr.pushSks[blockOf (B / cfg.mgr.pushSks.length) cfg.mgr.pushSks.length
    ((hash key).toNat % B)], ?_⟩
  have hne : cfg.mgr.pushSks.length ≠ 0 := by have := h.servers; omega
  simp [Owns, MqMgr.sendTo, hne, hB, hidx, hlt]

/-- The envelope is read as it was written, if it is read at all. -/
def ReadsBack (cfg : ClusterConfig α) : Prop :=
  ∀ msg msg', cfg.codecs.transApp.parseFromString
    (cfg.codecs.transApp.serializeAsString msg) = some msg' → msg' = msg

/-- A message reaches the owner of its key. -/
theorem message_meant (hback : ReadsBack cfg) {task : Task} {pullAddr key : Bytes} {cmd : Cmd}
    {msg : MsgTransApp} (h : message cfg task pullAddr cmd = some (key, msg))
    (hown : Owns cfg k key) : Meant cfg k (cfg.codecs.transApp.serializeAsString msg) := by
  intro t req hask
  simp only [MsgCodecs.request?, Option.bind_eq_some_iff, Option.map_eq_some_iff,
    Prod.mk.injEq] at hask
  obtain ⟨t', ht, req', hreq, rfl, rfl⟩ := hask
  obtain rfl := hback msg t' ht
  simp only [message, Option.map_eq_some_iff, Prod.mk.injEq] at h
  obtain ⟨msg, hcmd, rfl, rfl⟩ := h
  have hkey := getKeyId_of_parse hreq
  simp only [Task.doCmd] at hcmd
  split at hcmd
  · cases hcmd
  · obtain rfl := Option.some.inj hcmd
    rwa [hkey] at hown

/-- What has arrived at a server is meant for it. -/
theorem seen_meant (hback : ReadsBack cfg) (evs : List (Event α)) :
    ∀ m ∈ MsgLoop.arrived (seen cfg k evs), Meant cfg k m := by
  intro m hm
  simp only [MsgLoop.arrived, seen, List.mem_filterMap] at hm
  obtain ⟨ev', ⟨ev, _, hev⟩, hm⟩ := hm
  cases ev with
  | doCmd task pullAddr cmd sendOk =>
      obtain ⟨⟨key, msg⟩, hmsg, hif⟩ := Option.bind_eq_some_iff.mp hev
      split at hif
      · next hown =>
          obtain rfl := Option.some.inj hif
          obtain rfl := Option.some.inj hm
          exact message_meant hback hmsg hown.2
      · cases hif
  | onProc j env =>
      simp only at hev
      split at hev
      · obtain rfl := Option.some.inj hev
        cases hm
      · cases hev

variable [Zero α]

/-- Every server has gone through what it has seen; the history is made of what they have handled;
and what was sent are the answers of one leaderboard. -/
structure Sharded (cfg : ClusterConfig α) (past : List (Event α)) (s : Cluster α) : Prop where
  servers : ∀ k, run (MsgLoop.step cfg.codecs cfg.toScore) (seen cfg k past)
    (MsgLoop.init Db.new) = some (s.servers k)
  parts : ∀ k, part k s.history = (s.servers k).handled
  meant : ∀ x ∈ s.history, Meant cfg x.1 x.2
  sent : Boards.UntiedAll cfg.codecs (s.history.map Prod.snd) Boards.empty →
    (cfg.codecs.entries (s.history.map Prod.snd)).length < 2 ^ 31 →
    s.sent = Boards.feed cfg.codecs cfg.toScore (s.history.map Prod.snd) Boards.empty

omit [Zero α] in
theorem seen_append (cfg : ClusterConfig α) (k : ℕ) (past evs : List (Event α)) :
    seen cfg k (past ++ evs) = seen cfg k past ++ seen cfg k evs := List.filterMap_append

theorem sharded_init (cfg : ClusterConfig α) : Sharded cfg [] (Cluster.init : Cluster α) where
  servers _ := rfl
  parts _ := rfl
  meant _ hx := nomatch hx
  sent _ _ := rfl

/-- The other servers see nothing of it. -/
theorem Sharded.update {past : List (Event α)} {s : Cluster α} (h : Sharded cfg past s)
    {ev : Event α} {ev' : MsgLoop.Event α} {server : MsgLoop α}
    (hself : seen cfg k [ev] = [ev']) (hother : ∀ j, j ≠ k → seen cfg j [ev] = [])
    (hstep : MsgLoop.step cfg.codecs cfg.toScore ev' (s.servers k) = some server) (j : ℕ) :
    run (MsgLoop.step cfg.codecs cfg.toScore) (seen cfg j (past ++ [ev])) (MsgLoop.init Db.new) =
      some (Function.update s.servers k server j) := by
  rw [seen_append]
  by_cases hj : j = k
  · subst hj
    rw [hself, Function.update_self]
    exact run_concat.mpr ⟨_, h.servers j, hstep⟩
  · rw [hother j hj, List.append_nil, Function.update_of_ne hj]
    exact h.servers j

/-- A request. -/
theorem Sharded.doCmd {past : List (Event α)} {s : Cluster α} (h : Sharded cfg past s)
    (hcfg : Valid cfg) (task : Task) (pullAddr : Bytes) (cmd : Cmd) (sendOk : Bool) :
    ∃ s', Cluster.doCmd cfg task pullAddr cmd sendOk s = some s' ∧
      Sharded cfg (past ++ [.doCmd task pullAddr cmd sendOk]) s' := by
  -- nothing arrives
  have hskip : (∀ k, seen cfg k [.doCmd task pullAddr cmd sendOk] = []) →
      Sharded cfg (past ++ [.doCmd task pullAddr cmd sendOk]) s := fun hnone =>
    ⟨fun k => by rw [seen_append, hnone k, List.append_nil]; exact h.servers k,
      h.parts, h.meant, h.sent⟩
  cases hmsg : message cfg task pullAddr cmd with
  | none =>
      exact ⟨s, by simp [Cluster.doCmd, hmsg], hskip fun k => by simp [seen, hmsg]⟩
  | some r =>
      obtain ⟨k, hown⟩ := hcfg.owner r.1
      have hsend : cfg.mgr.sendTo cfg.bucketNum r.1 = some (some k) := hown
      cases sendOk with
      | false =>
          exact ⟨s, by simp [Cluster.doCmd, hmsg, hsend], hskip fun j => by simp [seen, hmsg]⟩
      | true =>
          obtain ⟨server, hstep, hhandled⟩ : ∃ server, MsgLoop.step cfg.codecs cfg.toScore
              (.arrive (cfg.codecs.transApp.serializeAsString r.2)) (s.servers k) = some server ∧
                server.handled = (s.servers k).handled := ⟨_, rfl, rfl⟩
          have hparts : ∀ j, part j s.history = (Function.update s.servers k server j).handled := by
            intro j
            rw [h.parts j]
            by_cases hj : j = k
            · rw [hj, Function.update_self, hhandled]
            · rw [Function.update_of_ne hj]
          refine ⟨{ s with servers := Function.update s.servers k server },
            by simp [Cluster.doCmd, hmsg, hsend, hstep],
            h.update (by simp [seen, hmsg, hsend]) (fun j hj => ?_) hstep, hparts, h.meant, h.sent⟩
          have hne : ¬ k = j := fun heq => hj heq.symm
          simp [seen, hmsg, hsend, hne]

/-- A round of a server: what it handles, and what it sends. -/
theorem Sharded.onProc {past : List (Event α)} {s : Cluster α} (h : Sharded cfg past s)
    (hback : ReadsBack cfg) (k : ℕ) (env : ℕ → MsgEnv α) :
    ∃ s', Cluster.onProc cfg k env s = some s' ∧ Sharded cfg (past ++ [.onProc k env]) s' := by
  obtain ⟨server, hrun, hserved, hleads⟩ :=
    MsgLoop.run_leads shows_new cfg.codecs cfg.toScore (seen cfg k past)
  obtain rfl := Option.some.inj ((h.servers k).symm.trans hrun)
  obtain ⟨server', hstep, hserved', _⟩ := hserved.step cfg.toScore (.onProc env)
  have hleads' := hleads.step hserved.live (.onProc env) hstep
  have hself : seen cfg k [.onProc k env] = [.onProc env] := by simp [seen]
  have hother : ∀ j, j ≠ k → seen cfg j [.onProc k env] = [] := fun j hj => by
    simp [seen, Ne.symm hj]
  -- what is new
  obtain ⟨ms, hms⟩ : ∃ ms, server'.handled = (s.servers k).handled ++ ms := by
    obtain ⟨_, s1, pre, hproc, _, _, _, hhandles⟩ := MsgLoop.processMQRecv_spec cfg.codecs
      cfg.toScore env hserved.live hserved.context
    simp only [MsgLoop.step, hproc, Option.map_some, Option.some.injEq] at hstep
    subst hstep
    exact ⟨_, hhandles.handled⟩
  have hmeant : ∀ m ∈ ms, Meant cfg k m := by
    intro m hm
    refine seen_meant hback (past ++ [.onProc k env]) m ?_
    have hin := hserved'.inOrder
    rw [hms] at hin
    have hmem : m ∈ (MsgLoop.arrived (seen cfg k past ++ [.onProc env])).filter
        fun m => decide (Readable m) := by
      rw [← hin]
      simp [hm]
    rw [seen_append, hself]
    exact (List.mem_filter.mp hmem).1
  have hdrop : server'.handled.drop (s.servers k).handled.length = ms := by
    rw [hms, List.drop_left]
  have hparts : ∀ j, part j (s.history ++ ms.map fun m => (k, m)) =
      (Function.update s.servers k server' j).handled := by
    intro j
    rw [part_append, h.parts j]
    by_cases hj : j = k
    · rw [hj, part_self, Function.update_self, hms]
    · rw [part_other (Ne.symm hj), List.append_nil, Function.update_of_ne hj]
  have hmeant' : ∀ x ∈ s.history ++ ms.map fun m => (k, m), Meant cfg x.1 x.2 := by
    intro x hx
    rcases List.mem_append.mp hx with hx | hx
    · exact h.meant x hx
    · obtain ⟨m, hm, rfl⟩ := List.mem_map.mp hx
      exact hmeant m hm
  refine ⟨⟨Function.update s.servers k server', s.history ++ ms.map fun m => (k, m),
      s.sent ++ server'.sent.drop (s.servers k).sent.length⟩,
    by simp only [Cluster.onProc, hstep, hdrop, Option.bind_eq_bind, Option.bind_some],
    h.update hself hother hstep, hparts, hmeant', fun hu hfew => ?_⟩
  -- the server answers from its own boards, which are those of the whole history for its keys
  have hself' := hparts k
  rw [Function.update_self] at hself'
  have hrefl : Agree cfg k (Boards.empty : Boards α) Boards.empty := fun _ _ => rfl
  have hu' := (Agree.part hmeant' hrefl).2 hu
  have hfew' := Nat.lt_of_le_of_lt (entries_part_le cfg.codecs k _) hfew
  rw [hself'] at hu' hfew'
  have hsnd : (s.history ++ ms.map fun m => (k, m)).map Prod.snd =
      s.history.map Prod.snd ++ ms := by
    rw [List.map_append, List.map_map]
    exact congrArg _ (List.map_id ms)
  simp only [hsnd] at hu hfew ⊢
  rw [Boards.untiedAll_append] at hu
  rw [cfg.codecs.entries_append, List.length_append] at hfew
  obtain ⟨hagree, _⟩ := Agree.part h.meant hrefl
  rw [h.parts k] at hagree
  have hsent' := (hleads' hu' (by omega)).2
  rw [hms] at hu' hfew' hsent'
  rw [Boards.untiedAll_append] at hu'
  rw [cfg.codecs.entries_append, List.length_append] at hfew'
  have hsent := (hleads hu'.1 (by omega)).2
  rw [Boards.feed_append, ← hsent] at hsent'
  rw [hsent', List.drop_left, h.sent hu.1 (by omega), Boards.feed_append,
    Agree.feed hmeant hagree]

/-- **Many servers are one leaderboard.** Take any run of a cluster: any proxies, any order of
requests, any turns of the servers. Each server has handled a first part of what can be read of
the requests for its keys, in the order in which they arrived. And if the requests handled so far
tie no members and set fewer than `2^31`, then what all servers have sent is what one leaderboard
sends that is given these requests in the order in which they were handled. -/
theorem run_cluster (cfg : ClusterConfig α) (hcfg : Valid cfg) (hback : ReadsBack cfg)
    (evs : List (Event α)) :
    ∃ s, run (Cluster.step cfg) evs Cluster.init = some s ∧
      (∀ k, part k s.history = (s.servers k).handled ∧
        (s.servers k).handled <+:
          (MsgLoop.arrived (seen cfg k evs)).filter fun m => decide (Readable m)) ∧
      (Boards.UntiedAll cfg.codecs (s.history.map Prod.snd) Boards.empty →
        (cfg.codecs.entries (s.history.map Prod.snd)).length < 2 ^ 31 →
        s.sent = Boards.feed cfg.codecs cfg.toScore (s.history.map Prod.snd) Boards.empty) := by
  have hstep : ∀ past ev s, Sharded cfg past s →
      ∃ s', Cluster.step cfg ev s = some s' ∧ Sharded cfg (past ++ [ev]) s' := by
    intro past ev s hs
    cases ev with
    | doCmd task pullAddr cmd sendOk => exact hs.doCmd hcfg task pullAddr cmd sendOk
    | onProc k env => exact hs.onProc hback k env
  obtain ⟨s, hrun, h⟩ :=
    run_total_history (Sharded cfg) hstep evs [] Cluster.init (sharded_init cfg)
  rw [List.nil_append] at h
  refine ⟨s, hrun, fun k => ⟨h.parts k, ?_⟩, h.sent⟩
  obtain ⟨server, hk, hserved⟩ :=
    (MsgLoop.served_init cfg.codecs dbLive_new).runs cfg.toScore (seen cfg k evs)
  obtain rfl := Option.some.inj ((h.servers k).symm.trans hk)
  exact ⟨_, hserved.inOrder⟩

/-! ## Two servers -/

/-- A codec given by a table reads what it has written, if no two messages have the same bytes and
none has none. -/
theorem ofTable_readsBack {M : Type} [DecidableEq M] {l : List (M × Bytes)}
    (h : ∀ e ∈ l, e.2.length < 2 ^ 31) (hdistinct : (l.map Prod.snd).Nodup)
    (hne : ∀ e ∈ l, e.2 ≠ []) {msg msg' : M}
    (hread : (Codec.ofTable l h).parseFromString
      ((Codec.ofTable l h).serializeAsString msg) = some msg') : msg' = msg := by
  obtain ⟨e', hfind', rfl⟩ := Option.map_eq_some_iff.mp hread
  have hmem' := List.mem_of_find?_eq_some hfind'
  have hbytes : e'.2 = (Codec.ofTable l h).serializeAsString msg := by
    simpa using List.find?_some hfind'
  cases hfind : l.find? fun e => e.1 = msg with
  | none => exact absurd (hbytes.trans (by simp [Codec.ofTable, hfind])) (hne e' hmem')
  | some e =>
      have hsame : e'.2 = e.2 := hbytes.trans (by simp [Codec.ofTable, hfind])
      have heq := List.inj_on_of_nodup_map hdistinct hmem' (List.mem_of_find?_eq_some hfind) hsame
      rw [heq]
      simpa using List.find?_some hfind

/-- Two servers, and the messages of `setThenTop`. -/
def twoServers : ClusterConfig ℤ := ⟨setThenTop, intScore, 2048, ⟨[0, 1], by decide⟩⟩

/-- The request and the question come through a proxy, and each server takes a turn. -/
def twoServersEvents : List (Event ℤ) :=
  let task := Task.new 7 5
  let env : ℕ → MsgEnv ℤ := fun _ => ⟨fun _ => ⟨1, heightOne⟩, 0, .ok, true⟩
  [.doCmd task (ascii "p") ⟨0x1003, 0, 0, ⟨setThree, 1⟩⟩ true,
    .doCmd task (ascii "p") ⟨0x1017, 0, 0, ⟨topTwo, 1⟩⟩ true,
    .onProc 0 env, .onProc 1 env]

theorem run_cluster_two :
    ∃ s, run (Cluster.step twoServers) twoServersEvents Cluster.init = some s ∧
      (∀ k, part k s.history = (s.servers k).handled ∧
        (s.servers k).handled <+:
          (MsgLoop.arrived (seen twoServers k twoServersEvents)).filter
            fun m => decide (Readable m)) ∧
      s.history.length = 2 ∧
      s.sent = Boards.feed setThenTop intScore (s.history.map Prod.snd) Boards.empty := by
  have hhistory : (run (Cluster.step twoServers) twoServersEvents Cluster.init).map
      (fun s => s.history) = some [
        (1, setThenTop.transApp.serializeAsString ⟨0x1003, 7, ascii "p", setThree⟩),
        (1, setThenTop.transApp.serializeAsString ⟨0x1017, 7, ascii "p", topTwo⟩)] := by
    decide +kernel
  obtain ⟨s, hrun, hservers, hsent⟩ :=
    run_cluster twoServers ⟨by decide, by decide, by decide⟩
      (fun _ _ => ofTable_readsBack (by decide) (by decide) (by decide)) twoServersEvents
  rw [hrun] at hhistory
  have hs : s.history = _ := Option.some.inj hhistory
  refine ⟨s, hrun, hservers, congrArg List.length hs, hsent ?_ ?_⟩
  · rw [hs]
    decide +kernel
  · rw [hs]
    decide +kernel

end Cluster

end LibC
