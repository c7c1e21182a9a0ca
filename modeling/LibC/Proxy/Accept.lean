/-
LibC.Proxy.Accept — `Server::AcceptTask` of `bis/src/proxy/server.cpp`, with the
descriptors it handles.

`World.acceptTask` is what a round of the loop does to the proxy; an `Acceptor`
has the descriptors that are open and what `epoll` watches as well. A round is
given by what the system calls on a new descriptor answer; the list of rounds is
over when `accept` returns an error.

A `TaskPtr` is shared, and a task is destroyed with the last pointer to it: at
the end of the round when `insert` did not take it, and not before it leaves
`objTaskMap` otherwise.

No `sorry`, no `axiom`, no `native_decide`.
-/
import LibC.Proxy.Routing

namespace LibC

open LibC.Lib

/-- `EPOLLRDHUP`. -/
def epollRdHup : UInt32 := 0x2000

/-- `epoll_event`. -/
structure EpollEvent where
  data : UInt32
  events : UInt32

/-- The proxy, the descriptors that are open, and those that `epoll` watches. -/
structure Acceptor where
  world : World
  opened : ℕ → Bool
  epoll : ℕ → Option EpollEvent

/-- A descriptor that `accept` returns, and what the calls on it answer: `fcntl` twice, and
`setsockopt` three times; `epoll_ctl`, with the bits that were in the event. -/
structure AcceptRound where
  fd : ℕ
  getFl : Int
  setFl : Int
  noDelay : Int
  sndBuf : Int
  rcvBuf : Int
  epollCtl : Int
  junk : UInt32

/-- `MakeNonBlocking`. -/
def makeNonBlocking (getFl setFl : Int) : Int :=
  if getFl < 0 then -1
  else if setFl < 0 then -1
  else 0

namespace Acceptor

/-- `accept` returns a descriptor. -/
def openFd (fd : ℕ) (s : Acceptor) : Acceptor :=
  { s with opened := Function.update s.opened fd true }

/-- `close`; `epoll` does not watch a closed descriptor. -/
def closeFd (fd : ℕ) (s : Acceptor) : Acceptor :=
  { s with
    opened := Function.update s.opened fd false
    epoll := Function.update s.epoll fd none }

/-- `EpollAdd` that succeeds. -/
def epollAdd (fd : ℕ) (data junk mask : UInt32) (s : Acceptor) : Acceptor :=
  { s with
    epoll := Function.update s.epoll fd (some ⟨data, junk ||| (mask ||| epollEt ||| epollRdHup)⟩) }

/-- What `Terminate` does to the descriptor of a task, and what `~Task` does. -/
def closeTask (t : Task) (s : Acceptor) : Acceptor :=
  if t.isTerminate then s else s.closeFd t.iSock.toNat

/-- A round of the loop of `AcceptTask`: whether the loop goes on, and the state. -/
def acceptRound (r : AcceptRound) (s : Acceptor) : Bool × Acceptor :=
  let s := s.openFd r.fd
  let cpos := World.nextPos s.world.iPosCnt
  let failed := { s with world := s.world.acceptTask .fail }
  if makeNonBlocking r.getFl r.setFl < 0 then (false, failed)
  else if r.noDelay < 0 then (false, failed)
  else if r.sndBuf < 0 then (false, failed)
  else if r.rcvBuf < 0 then (false, failed)
  else
    let task := Task.new cpos r.fd
    if r.epollCtl < 0 then (false, failed.closeTask task)
    else
      let taken := (s.world.findTask cpos).isSome
      let mask := r.junk ||| (epollIn ||| epollEt ||| epollRdHup)
      let s := s.epollAdd r.fd cpos r.junk epollIn
      let s := { s with world := s.world.acceptTask (.ok r.fd mask) }
      (true, if taken then s.closeTask task else s)

end Acceptor

/-- The end of a call of `AcceptTask`: what it returns, whether the last `accept` returned an
error, the descriptors that the others returned, and the state. -/
structure AcceptEnd where
  ret : Int
  drained : Bool
  accepted : List ℕ
  state : Acceptor

/-- `AcceptTask`. -/
def acceptTask : List AcceptRound → Acceptor → AcceptEnd
  | [], s => ⟨0, true, [], s⟩
  | r :: rounds, s =>
      let (more, s) := s.acceptRound r
      if more then
        let e := acceptTask rounds s
        { e with accepted := r.fd :: e.accepted }
      else ⟨-1, false, [r.fd], s⟩

end LibC
