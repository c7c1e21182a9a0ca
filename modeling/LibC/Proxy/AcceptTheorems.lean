/-
LibC.Proxy.AcceptTheorems — what becomes of the descriptors that `AcceptTask`
accepts.

A descriptor is settled when it is closed, or when a task in `objTaskMap` has it
and `epoll` announces it under the position of this task. A round that gets to
its end settles its descriptor and leaves the others as they are, with one
exception: a task on descriptor `0` counts as terminated, and is not closed when
`insert` finds its position taken. A round in which a call fails returns, with
its descriptor open unless the call was `epoll_ctl`, and the backlog not
drained. `acceptTask_settles_iff` puts this together.

No `sorry`, no `axiom`, no `native_decide`.
-/
import LibC.Proxy.Accept
import Mathlib.Algebra.Order.Ring.Int

namespace LibC

open LibC.Lib

namespace Acceptor

/-! ## Descriptors -/

/-- A task in `objTaskMap` has the descriptor, which is registered under its position. -/
def Owned (fd : ℕ) (s : Acceptor) : Prop :=
  ∃ pos conn ev, s.world.findTask pos = some conn ∧ conn.task.iSock = fd ∧
    conn.task.uPos = pos ∧ s.epoll fd = some ev ∧ ev.data = pos

/-- The descriptor is closed or has an owner. -/
def Settled (fd : ℕ) (s : Acceptor) : Prop := s.opened fd = false ∨ Owned fd s

/-- The tasks of the proxy have descriptors that are open, unless they are terminated. -/
def TasksOpen (s : Acceptor) : Prop :=
  ∀ pos conn, s.world.findTask pos = some conn → 0 ≤ conn.task.iSock →
    s.opened conn.task.iSock.toNat = true

end Acceptor

/-- No call on the descriptor fails. -/
structure AcceptRound.Succeeds (r : AcceptRound) : Prop where
  getFl : 0 ≤ r.getFl
  setFl : 0 ≤ r.setFl
  noDelay : 0 ≤ r.noDelay
  sndBuf : 0 ≤ r.sndBuf
  rcvBuf : 0 ≤ r.rcvBuf
  epollCtl : 0 ≤ r.epollCtl

namespace Acceptor

/-! ## One round -/

variable {r : AcceptRound} {s : Acceptor} {fd : ℕ}

/-- The position of the next task. -/
def cpos (s : Acceptor) : UInt32 := World.nextPos s.world.iPosCnt

/-- The state when a round has got to its end, before the task is destroyed if it is. -/
def admitted (r : AcceptRound) (s : Acceptor) : Acceptor :=
  { (s.openFd r.fd).epollAdd r.fd s.cpos r.junk epollIn with
    world := s.world.acceptTask
      (.ok r.fd (r.junk ||| (epollIn ||| epollEt ||| epollRdHup))) }

theorem makeNonBlocking_neg {getFl setFl : Int} :
    makeNonBlocking getFl setFl < 0 ↔ getFl < 0 ∨ setFl < 0 := by
  unfold makeNonBlocking
  by_cases h1 : getFl < 0
  · simp [h1]
  · by_cases h2 : setFl < 0
    · simp [h1, h2]
    · simp [h1, h2]

/-- A round in which no call fails. -/
theorem acceptRound_of_succeeds (h : r.Succeeds) (s : Acceptor) :
    s.acceptRound r = (true, if (s.world.findTask s.cpos).isSome then
      (admitted r s).closeTask (Task.new s.cpos r.fd) else admitted r s) := by
  have hblock : ¬ makeNonBlocking r.getFl r.setFl < 0 := by
    rw [makeNonBlocking_neg, not_or]
    exact ⟨Int.not_lt.mpr h.getFl, Int.not_lt.mpr h.setFl⟩
  unfold acceptRound
  simp only [if_neg hblock, if_neg (Int.not_lt.mpr h.noDelay), if_neg (Int.not_lt.mpr h.sndBuf),
    if_neg (Int.not_lt.mpr h.rcvBuf), if_neg (Int.not_lt.mpr h.epollCtl)]
  rfl

/-- A round in which a call fails is the last one. -/
theorem acceptRound_of_fails (h : ¬ r.Succeeds) (s : Acceptor) : (s.acceptRound r).1 = false := by
  unfold acceptRound
  by_cases h1 : makeNonBlocking r.getFl r.setFl < 0
  · simp only [if_pos h1]
  by_cases h2 : r.noDelay < 0
  · simp only [if_neg h1, if_pos h2]
  by_cases h3 : r.sndBuf < 0
  · simp only [if_neg h1, if_neg h2, if_pos h3]
  by_cases h4 : r.rcvBuf < 0
  · simp only [if_neg h1, if_neg h2, if_neg h3, if_pos h4]
  by_cases h5 : r.epollCtl < 0
  · simp only [if_neg h1, if_neg h2, if_neg h3, if_neg h4, if_pos h5]
  rw [makeNonBlocking_neg, not_or, Int.not_lt, Int.not_lt] at h1
  have hok : r.Succeeds :=
    ⟨h1.1, h1.2, Int.not_lt.mp h2, Int.not_lt.mp h3, Int.not_lt.mp h4, Int.not_lt.mp h5⟩
  exact absurd hok h

/-- A task that has just been made. -/
theorem closeTask_new (s : Acceptor) (pos : UInt32) (fd : ℕ) :
    s.closeTask (Task.new pos fd) = if fd = 0 then s else s.closeFd fd := by
  unfold closeTask
  by_cases h : fd = 0
  · simp [h, Task.new, Task.isTerminate]
  · have hlive : (Task.new pos fd).isTerminate = false := by
      simpa [Task.new, Task.isTerminate] using h
    rw [hlive, if_neg h]
    rfl

/-- What is found under the positions, when the next one is free. -/
theorem findTask_admitted (hfree : s.world.findTask s.cpos = none) (q : UInt32) :
    (admitted r s).world.findTask q = if q = s.cpos then
        some ⟨s.world.accepted, Task.new s.cpos r.fd,
          ⟨[], r.junk ||| (epollIn ||| epollEt ||| epollRdHup)⟩⟩
      else s.world.findTask q :=
  Dict.find_insert hfree _ q

/-- And when it is taken. -/
theorem findTask_admitted_of_taken {conn : Conn} (htaken : s.world.findTask s.cpos = some conn)
    (q : UInt32) : (admitted r s).world.findTask q = s.world.findTask q := by
  have hmem : s.cpos ∈ s.world.objTaskMap.entries.map Prod.fst := by
    by_contra hno
    rw [World.findTask, Dict.find_eq_none.mpr hno] at htaken
    cases htaken
  have hinsert : ∀ c : Conn, s.world.objTaskMap.insert s.cpos c = s.world.objTaskMap := by
    intro c
    rw [Dict.insert, dif_pos hmem]
  exact congrArg (fun m => Dict.find m q) (hinsert _)

/-- What a round that succeeds does. -/
inductive Round (r : AcceptRound) (s s' : Acceptor) : Prop where
  | stored (hfree : s.world.findTask s.cpos = none)
      (hfind : ∀ q, s'.world.findTask q = if q = s.cpos then
          some ⟨s.world.accepted, Task.new s.cpos r.fd,
            ⟨[], r.junk ||| (epollIn ||| epollEt ||| epollRdHup)⟩⟩
        else s.world.findTask q)
      (hopened : s'.opened = Function.update s.opened r.fd true)
      (hepoll : ∃ ev, s'.epoll = Function.update s.epoll r.fd (some ev) ∧ ev.data = s.cpos)
  | closed (hfind : ∀ q, s'.world.findTask q = s.world.findTask q) (hfd : r.fd ≠ 0)
      (hopened : s'.opened = Function.update s.opened r.fd false)
      (hepoll : s'.epoll = Function.update s.epoll r.fd none)
  | left {conn : Conn} (htaken : s.world.findTask s.cpos = some conn)
      (hfind : ∀ q, s'.world.findTask q = s.world.findTask q) (hfd : r.fd = 0)
      (hopened : s'.opened = Function.update s.opened r.fd true)
      (hepoll : ∃ ev, s'.epoll = Function.update s.epoll r.fd (some ev) ∧ ev.data = s.cpos)

theorem acceptRound_spec (h : r.Succeeds) (s : Acceptor) :
    ∃ s', s.acceptRound r = (true, s') ∧ Round r s s' := by
  refine ⟨_, acceptRound_of_succeeds h s, ?_⟩
  cases hfind : s.world.findTask s.cpos with
  | none =>
      rw [if_neg (by simp)]
      exact .stored hfind (findTask_admitted hfind) rfl ⟨_, rfl, rfl⟩
  | some conn =>
      rw [if_pos (show (some conn).isSome = true from rfl), closeTask_new]
      by_cases hfd : r.fd = 0
      · rw [if_pos hfd]
        exact .left hfind (findTask_admitted_of_taken hfind) hfd rfl ⟨_, rfl, rfl⟩
      · rw [if_neg hfd]
        refine .closed (findTask_admitted_of_taken hfind) hfd ?_ ?_
        · exact Function.update_idem ..
        · exact Function.update_idem ..

/-! ## Settled descriptors -/

variable {s' : Acceptor}

/-- A round leaves the other descriptors as they are. -/
theorem Round.frame (h : Round r s s') (hne : fd ≠ r.fd) :
    s'.opened fd = s.opened fd ∧ s'.epoll fd = s.epoll fd := by
  cases h with
  | stored _ _ hopened hepoll =>
      obtain ⟨ev, hepoll, _⟩ := hepoll
      rw [hopened, hepoll, Function.update_of_ne hne, Function.update_of_ne hne]
      exact ⟨rfl, rfl⟩
  | closed _ _ hopened hepoll =>
      rw [hopened, hepoll, Function.update_of_ne hne, Function.update_of_ne hne]
      exact ⟨rfl, rfl⟩
  | left _ _ _ hopened hepoll =>
      obtain ⟨ev, hepoll, _⟩ := hepoll
      rw [hopened, hepoll, Function.update_of_ne hne, Function.update_of_ne hne]
      exact ⟨rfl, rfl⟩

/-- A round takes no task away. -/
theorem Round.find (h : Round r s s') {pos : UInt32} {conn : Conn}
    (hpos : s.world.findTask pos = some conn) : s'.world.findTask pos = some conn := by
  cases h with
  | stored hfree hfind _ _ =>
      have hother : pos ≠ s.cpos := by
        intro heq
        rw [heq, hfree] at hpos
        cases hpos
      rw [hfind, if_neg hother, hpos]
  | closed hfind _ _ _ => rw [hfind, hpos]
  | left _ hfind _ _ _ => rw [hfind, hpos]

/-- A descriptor that the round is not about stays settled. -/
theorem Settled.of_round (h : Settled fd s) (hround : Round r s s') (hne : fd ≠ r.fd) :
    Settled fd s' := by
  obtain ⟨hopened, hepoll⟩ := hround.frame hne
  rcases h with h | ⟨pos, conn, ev, hpos, hsock, hupos, hev, hdata⟩
  · left
    rw [hopened, h]
  · right
    exact ⟨pos, conn, ev, hround.find hpos, hsock, hupos, by rw [hepoll, hev], hdata⟩

/-- The round settles its own descriptor, unless it leaves it. -/
theorem Round.settled (hround : Round r s s')
    (h : ¬ (r.fd = 0 ∧ (s.world.findTask s.cpos).isSome = true)) : Settled r.fd s' := by
  cases hround with
  | stored _ hfind _ hepoll =>
      obtain ⟨ev, hepoll, hdata⟩ := hepoll
      right
      exact ⟨s.cpos, _, ev, by rw [hfind, if_pos rfl], rfl, rfl,
        by rw [hepoll, Function.update_self], hdata⟩
  | closed _ _ hopened _ =>
      left
      rw [hopened, Function.update_self]
  | left htaken _ hfd _ _ => exact absurd ⟨hfd, by rw [htaken]; rfl⟩ h

/-! ## Descriptor `0` -/

/-- Descriptor `0` is open, and announced under the position of a task that has another one. -/
structure Stranded (s : Acceptor) : Prop where
  opened : s.opened 0 = true
  other : ∃ ev conn, s.epoll 0 = some ev ∧ s.world.findTask ev.data = some conn ∧
    conn.task.iSock ≠ 0

theorem Stranded.not_settled (h : s.Stranded) : ¬ Settled 0 s := by
  obtain ⟨ev, conn, hev, hpos, hsock⟩ := h.other
  rintro (hclosed | ⟨pos, conn', ev', hpos', hsock', _, hev', hdata⟩)
  · rw [h.opened] at hclosed
    cases hclosed
  · obtain rfl := Option.some.inj (hev.symm.trans hev')
    rw [hdata, hpos'] at hpos
    obtain rfl := Option.some.inj hpos
    exact hsock hsock'

/-- It stays so in rounds about other descriptors. -/
theorem Stranded.of_round (h : s.Stranded) (hround : Round r s s') (hfd : r.fd ≠ 0) :
    s'.Stranded := by
  obtain ⟨hopened, hepoll⟩ := hround.frame hfd.symm
  obtain ⟨ev, conn, hev, hpos, hsock⟩ := h.other
  exact ⟨by rw [hopened, h.opened], ev, conn, by rw [hepoll, hev], hround.find hpos, hsock⟩

/-- The round leaves descriptor `0` like this when the position is taken. -/
theorem Round.stranded (hround : Round r s s') (htasks : s.TasksOpen)
    (hfresh : s.opened r.fd = false) (hfd : r.fd = 0)
    (htaken : (s.world.findTask s.cpos).isSome = true) : s'.Stranded := by
  cases hround with
  | stored hfree _ _ _ =>
      rw [hfree] at htaken
      cases htaken
  | closed _ hne _ _ => exact absurd hfd hne
  | @left conn hfound hfind _ hopened hepoll =>
      obtain ⟨ev, hepoll, hdata⟩ := hepoll
      refine ⟨?_, ev, conn, ?_, ?_, ?_⟩
      · rw [hopened, hfd, Function.update_self]
      · rw [hepoll, hfd, Function.update_self]
      · rw [hfind, hdata, hfound]
      · -- its descriptor would be open already
        intro hsock
        have hopen := htasks _ _ hfound (Int.le_of_eq hsock.symm)
        rw [hsock, Int.toNat_zero, ← hfd, hfresh] at hopen
        cases hopen

/-- The tasks keep their descriptors. -/
theorem TasksOpen.of_round (h : s.TasksOpen) (hround : Round r s s')
    (hfresh : s.opened r.fd = false) : s'.TasksOpen := by
  have hold : ∀ pos conn, s.world.findTask pos = some conn → 0 ≤ conn.task.iSock →
      s'.opened conn.task.iSock.toNat = true := by
    intro pos conn hpos hsock
    have hopen := h pos conn hpos hsock
    have hne : conn.task.iSock.toNat ≠ r.fd := by
      intro heq
      rw [heq, hfresh] at hopen
      cases hopen
    rw [(hround.frame hne).1, hopen]
  intro pos conn hpos hsock
  cases hround with
  | stored _ hfind hopened _ =>
      rw [hfind] at hpos
      split at hpos
      · obtain rfl := Option.some.inj hpos
        rw [hopened]
        exact Function.update_self ..
      · exact hold pos conn hpos hsock
  | closed hfind _ _ _ => exact hold pos conn (hfind pos ▸ hpos) hsock
  | left _ hfind _ _ _ => exact hold pos conn (hfind pos ▸ hpos) hsock

end Acceptor

/-! ## The loop -/

/-- `accept` returns descriptors that are not open. -/
def Fresh : List AcceptRound → Acceptor → Prop
  | [], _ => True
  | r :: rounds, s => s.opened r.fd = false ∧
      ((s.acceptRound r).1 = true → Fresh rounds (s.acceptRound r).2)

/-- No call fails in any round, and descriptor `0` is not accepted while the position that its task
would get is taken. -/
def Undisturbed : List AcceptRound → Acceptor → Prop
  | [], _ => True
  | r :: rounds, s => r.Succeeds ∧ ¬ (r.fd = 0 ∧ (s.world.findTask s.cpos).isSome = true) ∧
      Undisturbed rounds (s.acceptRound r).2

/-- The backlog is drained, and the accepted descriptors are closed or have owners. -/
def AcceptEnd.Clean (e : AcceptEnd) : Prop :=
  e.drained = true ∧ ∀ fd ∈ e.accepted, e.state.Settled fd

variable {rounds : List AcceptRound} {s : Acceptor}

/-- The loop after a round that succeeds. -/
theorem acceptTask_cons {r : AcceptRound} {s' : Acceptor} (h : s.acceptRound r = (true, s')) :
    acceptTask (r :: rounds) s =
      { acceptTask rounds s' with accepted := r.fd :: (acceptTask rounds s').accepted } := by
  rw [acceptTask, h]
  rfl

/-- After a round in which a call fails the backlog is not drained. -/
theorem not_drained {r : AcceptRound} (h : ¬ r.Succeeds) :
    (acceptTask (r :: rounds) s).drained = false := by
  have hrun : s.acceptRound r = (false, (s.acceptRound r).2) :=
    Prod.ext (Acceptor.acceptRound_of_fails h s) rfl
  rw [acceptTask, hrun]
  rfl

/-- Undisturbed, the loop settles what it accepts, and what was settled before. -/
theorem acceptTask_settles : ∀ (rounds : List AcceptRound) (s : Acceptor), Undisturbed rounds s →
    (acceptTask rounds s).Clean ∧ ∀ fd, s.Settled fd → (acceptTask rounds s).state.Settled fd
  | [], s, _ => ⟨⟨rfl, by simp [acceptTask]⟩, fun _ h => h⟩
  | r :: rounds, s, h => by
      obtain ⟨hok, hzero, hrest⟩ := h
      obtain ⟨s', hrun, hround⟩ := Acceptor.acceptRound_spec hok s
      rw [hrun] at hrest
      obtain ⟨⟨hdrained, hsettled⟩, hkeep⟩ := acceptTask_settles rounds s' hrest
      have hown := hkeep r.fd (hround.settled hzero)
      rw [acceptTask_cons hrun]
      refine ⟨⟨hdrained, fun fd hfd => ?_⟩, fun fd hfd => ?_⟩
      · rcases List.mem_cons.mp hfd with rfl | hfd
        · exact hown
        · exact hsettled fd hfd
      · by_cases heq : fd = r.fd
        · rw [heq]
          exact hown
        · exact hkeep fd (hfd.of_round hround heq)

/-- A stranded descriptor stays stranded. -/
theorem acceptTask_stranded : ∀ (rounds : List AcceptRound) (s : Acceptor), Fresh rounds s →
    s.Stranded → (acceptTask rounds s).drained = true → (acceptTask rounds s).state.Stranded
  | [], _, _, h, _ => h
  | r :: rounds, s, hfresh, h, hdrained => by
      by_cases hok : r.Succeeds
      · obtain ⟨s', hrun, hround⟩ := Acceptor.acceptRound_spec hok s
        have hne : r.fd ≠ 0 := by
          intro heq
          have hopen := hfresh.1
          rw [heq, h.opened] at hopen
          cases hopen
        have hrest := hfresh.2 (by rw [hrun])
        rw [hrun] at hrest
        rw [acceptTask_cons hrun] at hdrained ⊢
        exact acceptTask_stranded rounds s' hrest (h.of_round hround hne) hdrained
      · rw [not_drained hok] at hdrained
        cases hdrained

/-- **Accepting.** From a state in which the tasks have open descriptors, with `accept` returning
descriptors that are not open, `AcceptTask` leaves every accepted descriptor closed or owned and the
backlog drained exactly when it is undisturbed. -/
theorem acceptTask_settles_iff : ∀ (rounds : List AcceptRound) (s : Acceptor), s.TasksOpen →
    Fresh rounds s → ((acceptTask rounds s).Clean ↔ Undisturbed rounds s)
  | [], s, _, _ => ⟨fun _ => trivial, fun h => (acceptTask_settles [] s h).1⟩
  | r :: rounds, s, htasks, hfresh => by
      refine ⟨fun hclean => ?_, fun h => (acceptTask_settles (r :: rounds) s h).1⟩
      by_cases hok : r.Succeeds
      · obtain ⟨s', hrun, hround⟩ := Acceptor.acceptRound_spec hok s
        have hrest := hfresh.2 (by rw [hrun])
        rw [hrun] at hrest
        rw [acceptTask_cons hrun] at hclean
        obtain ⟨hdrained, hsettled⟩ := hclean
        refine ⟨hok, fun hzero => ?_, ?_⟩
        · have hleft := hround.stranded htasks hfresh.1 hzero.1 hzero.2
          have hend := acceptTask_stranded rounds s' hrest hleft hdrained
          exact hend.not_settled (hzero.1 ▸ hsettled r.fd (List.mem_cons_self ..))
        · rw [hrun]
          exact (acceptTask_settles_iff rounds s' (htasks.of_round hround hfresh.1) hrest).mp
            ⟨hdrained, fun fd hfd => hsettled fd (List.mem_cons_of_mem _ hfd)⟩
      · have hdrained := hclean.1
        rw [not_drained hok] at hdrained
        cases hdrained

/-- The proxy before it has accepted anything, with five open descriptors. -/
def listening : Acceptor := ⟨World.init, fun fd => decide (fd < 5), fun _ => none⟩

/-- Two connections, and no call that fails. -/
theorem acceptTask_settles_two :
    ((acceptTask [⟨5, 2, 0, 0, 0, 0, 0, 0⟩, ⟨6, 2, 0, 0, 0, 0, 0, 0⟩] listening).Clean ↔
      Undisturbed [⟨5, 2, 0, 0, 0, 0, 0, 0⟩, ⟨6, 2, 0, 0, 0, 0, 0, 0⟩] listening) ∧
    Undisturbed [⟨5, 2, 0, 0, 0, 0, 0, 0⟩, ⟨6, 2, 0, 0, 0, 0, 0, 0⟩] listening :=
  ⟨acceptTask_settles_iff _ _ (fun _ _ h => (by cases h)) ⟨rfl, fun _ => ⟨rfl, fun _ => trivial⟩⟩,
    ⟨by decide, by decide, by decide, by decide, by decide, by decide⟩, by simp,
    ⟨by decide, by decide, by decide, by decide, by decide, by decide⟩, by simp, trivial⟩

/-- The second `setsockopt` fails: the descriptor is open, no task has it, and the next connection
is not accepted. -/
theorem acceptTask_leaks :
    listening.TasksOpen ∧ Fresh [⟨5, 2, 0, 0, -1, 0, 0, 0⟩, ⟨6, 2, 0, 0, 0, 0, 0, 0⟩] listening ∧
      (acceptTask [⟨5, 2, 0, 0, -1, 0, 0, 0⟩, ⟨6, 2, 0, 0, 0, 0, 0, 0⟩] listening).ret = -1 ∧
      (acceptTask [⟨5, 2, 0, 0, -1, 0, 0, 0⟩, ⟨6, 2, 0, 0, 0, 0, 0, 0⟩] listening).accepted = [5] ∧
      ¬ (acceptTask [⟨5, 2, 0, 0, -1, 0, 0, 0⟩, ⟨6, 2, 0, 0, 0, 0, 0, 0⟩]
        listening).state.Settled 5 ∧
      ¬ (acceptTask [⟨5, 2, 0, 0, -1, 0, 0, 0⟩, ⟨6, 2, 0, 0, 0, 0, 0, 0⟩] listening).Clean := by
  refine ⟨fun _ _ h => (by cases h), ⟨rfl, fun h => (by cases h)⟩, rfl, rfl, ?_, ?_⟩
  · rintro (hclosed | ⟨pos, conn, ev, hpos, _⟩)
    · cases hclosed
    · cases hpos
  · rintro ⟨hdrained, _⟩
    cases hdrained

end LibC
