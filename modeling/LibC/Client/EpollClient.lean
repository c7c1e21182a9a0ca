/-
LibC.Client.EpollClient — `Writen` of `bis/src/client/epoll_client.cpp`.

What the socket answers is an argument: the value of each `write`, which is a
`ssize_t`, with `errno`. The loop stops before each call, and `step` is one call
with what the loop does about it. The position of a byte in the buffer stands for
the byte, and a pointer for how far it is from the beginning; an address is wide
enough for it.

No `sorry`, no `axiom`, no `native_decide`.
-/
import LibC.Lib.Run

namespace LibC

open LibC.Lib

/-- What a `write` answers, and `errno` after it. -/
structure SockWrite where
  ret : Int
  errno : Int
  deriving DecidableEq

/-- `EINTR`. -/
def eintr : Int := 4

/-- `Writen` before a call of `write`, or after its return: the variables of the loop, the bytes
that the socket has taken, and the value returned. -/
structure Writen where
  nleft : UInt32
  ptr : Nat
  taken : List Nat
  ret : Option Int32
  deriving DecidableEq

namespace Writen

/-- The condition of the loop, and the `return` behind it. -/
def loopHead (n : UInt32) (s : Writen) : Writen :=
  if s.nleft > 0 then s else { s with ret := some (n - s.nleft).toInt32 }

/-- `Writen` of `n` bytes. -/
def init (n : UInt32) : Writen := loopHead n ⟨n, 0, [], none⟩

/-- The end of the body of the loop. -/
def advance (n nwriten : UInt32) (s : Writen) : Writen :=
  loopHead n { s with nleft := s.nleft - nwriten, ptr := s.ptr + nwriten.toNat }

/-- The body of the loop, when `write` answers `w`. There is no call after the return. -/
def step (n : UInt32) (w : SockWrite) (s : Writen) : Option Writen :=
  if s.ret ≠ none then none
  else
    -- the socket takes as many bytes as it says
    let s := { s with taken := s.taken ++ List.range' s.ptr w.ret.toNat }
    let nwriten := UInt32.ofInt w.ret
    if nwriten ≤ 0 then
      if nwriten < 0 ∧ w.errno = eintr then some (advance n 0 s)
      else some { s with ret := some (-1) }
    else some (advance n nwriten s)

end Writen

end LibC
