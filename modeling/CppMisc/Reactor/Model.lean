import Mathlib.Tactic
import CppMisc.Library.Bytes
import CppMisc.Library.Epoll
import CppMisc.Library.Runs

/-!
# The reactor of `c10M/reactor.c`

`ntyreactor_init` allocates a table of `ntyevent` entries, one for each descriptor, and leaves its content
as `malloc` returned it. A listener is entered by `ntyreactor_addlistener`; from then on everything
happens in `ntyreactor_run`, which takes the reported events one after the other and calls the callback
of the entry that was registered with the event. `accept_cb` enters a new connection for input,
`recv_cb` reads into the entry's buffer and turns the entry to output, `send_cb` sends the buffer and
turns it back.

A state holds the table, the interest set of the kernel, and the open sockets. For an accepted socket
the bytes that the kernel has handed out and taken in are recorded, so that the two streams can be
compared. The kernel promises three things, which the guards of the callbacks state: `accept` returns a
descriptor that is not open, `recv` at most `BUFFER_LENGTH` bytes, and `send` takes at most what it is
given. Everything else (errors, short counts, refusals of `epoll_ctl`) is free.

The field `arg` always points to the one reactor, and `last_active` is only printed; both are left out.
The table has an entry for every descriptor the kernel can hand out (2 ^ 20, its own limit).
-/

set_option autoImplicit false

namespace CppMisc.Reactor

open CppMisc.Library

/-- `BUFFER_LENGTH`. -/
def bufferLength : Nat := 1024

/-- The three functions that an entry can point to. -/
inductive Callback where
  | acceptCb
  | recvCb
  | sendCb
  deriving Repr, DecidableEq

/-- `struct ntyevent`. -/
structure NtyEvent where
  fd : Nat
  events : Mask
  callback : Callback
  status : Int
  buffer : Memory
  length : Nat

/-- The two streams of a connection, and whether a `send` on it has returned less than it was given. -/
structure Conn where
  received : List UInt8
  sent : List UInt8
  short : Bool
  deriving Repr, DecidableEq

/-- A connection that `accept` has just returned. -/
def Conn.fresh : Conn := ⟨[], [], false⟩

/-- An open socket. -/
inductive Sock where
  | listener
  | accepted (c : Conn)
  deriving Repr, DecidableEq

/-- The kernel hands `bs` to the program. -/
def Sock.receive (bs : List UInt8) : Sock → Sock
  | .listener => .listener
  | .accepted c => .accepted { c with received := c.received ++ bs }

/-- The kernel takes `bs`, the first bytes of `length` that were offered. -/
def Sock.send (bs : List UInt8) (length : Nat) : Sock → Sock
  | .listener => .listener
  | .accepted c =>
      .accepted { c with sent := c.sent ++ bs, short := c.short || decide (bs.length < length) }

/-- The program and the part of the kernel that it talks to. The user data of a registration is a
pointer into the table, given by the index of the entry. -/
structure State where
  table : Nat → NtyEvent
  epoll : Interest Nat
  socks : Nat → Option Sock

/-- What the system calls made by one callback return. `recv` is `none` for an error and the empty list
at the end of the stream; `send` is `none` for an error; `del` and `add` say whether the kernel is
willing to carry out the two calls of `epoll_ctl`. -/
structure Results where
  accept : Option Nat
  fcntl : Bool
  recv : Option (List UInt8)
  send : Option Nat
  del : Bool
  add : Bool
  deriving Repr, DecidableEq

/-- Change one entry of the table. -/
def State.modify (s : State) (p : Nat) (f : NtyEvent → NtyEvent) : State :=
  { s with table := Function.update s.table p (f (s.table p)) }

/-- `close`. -/
def State.close (s : State) (fd : Nat) : State :=
  { s with epoll := s.epoll.close fd, socks := Function.update s.socks fd none }

/-- `nty_event_set` on the entry `p`. -/
def ntyEventSet (s : State) (p fd : Nat) (callback : Callback) : State :=
  s.modify p fun ev => { ev with fd := fd, callback := callback, events := ⟨false, false⟩ }

/-- `nty_event_add`: the status becomes 1 before the outcome of `epoll_ctl` is known, and a failure is
only printed. -/
def ntyEventAdd (s : State) (events : Mask) (p : Nat) (ok : Bool) : State :=
  let ev := s.table p
  let op := if ev.status = 1 then CtlOp.mod else CtlOp.add
  let s := s.modify p fun ev => { ev with events := events, status := 1 }
  { s with epoll := s.epoll.ctl op ev.fd ⟨events, p⟩ ok }

/-- `nty_event_del`. -/
def ntyEventDel (s : State) (p : Nat) (ok : Bool) : State :=
  let ev := s.table p
  if ev.status ≠ 1 then s
  else
    let s := s.modify p fun ev => { ev with status := 0 }
    { s with epoll := s.epoll.ctl .del ev.fd ⟨⟨false, false⟩, p⟩ ok }

/-- `ev->length = len; ev->buffer[len] = '\0'`. For a full buffer the zero lands on the lowest byte of the
field `length` that follows it. -/
def NtyEvent.terminate (ev : NtyEvent) (len : Nat) : NtyEvent :=
  if len < bufferLength then { ev with length := len, buffer := ev.buffer.put len 0 }
  else { ev with length := len / 256 * 256 }

/-- `recv` on the socket `fd` into the buffer of its entry. -/
def recv (s : State) (fd : Nat) (bs : List UInt8) : State :=
  let s := s.modify fd fun ev => { ev with buffer := ev.buffer.store 0 bs }
  { s with socks := Function.update s.socks fd ((s.socks fd).map (Sock.receive bs)) }

/-- `recv_cb`. -/
def recvCb (s : State) (fd : Nat) (r : Results) : Option State :=
  match r.recv with
  | none => let s := ntyEventDel s fd r.del; some (s.close (s.table fd).fd)
  | some bs =>
      if bs = [] then let s := ntyEventDel s fd r.del; some (s.close (s.table fd).fd)
      else if bs.length ≤ bufferLength then
        let s := ntyEventDel (recv s fd bs) fd r.del
        let s := s.modify fd (NtyEvent.terminate · bs.length)
        some (ntyEventAdd (ntyEventSet s fd fd .sendCb) .output fd r.add)
      else none

/-- `send` of the first `n` bytes of the buffer. -/
def send (s : State) (fd n : Nat) : State :=
  let ev := s.table fd
  let sock := (s.socks fd).map (Sock.send (ev.buffer.load 0 n) ev.length)
  { s with socks := Function.update s.socks fd sock }

/-- `send_cb`. -/
def sendCb (s : State) (fd : Nat) (r : Results) : Option State :=
  match r.send with
  | none => some (ntyEventDel (s.close (s.table fd).fd) fd r.del)
  | some n =>
      if n = 0 then some (ntyEventDel (s.close (s.table fd).fd) fd r.del)
      else if n ≤ (s.table fd).length then
        let s := ntyEventDel (send s fd n) fd r.del
        some (ntyEventAdd (ntyEventSet s fd fd .recvCb) .input fd r.add)
      else none

/-- `accept_cb`; when `fcntl` fails the loop is left and the new socket is neither entered nor closed. -/
def acceptCb (s : State) (r : Results) : Option State :=
  match r.accept with
  | none => some s
  | some clientfd =>
      if s.socks clientfd = none then
        let s := { s with socks := Function.update s.socks clientfd (some (.accepted .fresh)) }
        if r.fcntl then
          some (ntyEventAdd (ntyEventSet s clientfd clientfd .recvCb) .input clientfd r.add)
        else some s
      else none

/-- `ev->callback(ev->fd, ...)` for the entry `p`. -/
def callback (s : State) (p : Nat) (r : Results) : Option State :=
  match (s.table p).callback with
  | .acceptCb => acceptCb s r
  | .recvCb => recvCb s (s.table p).fd r
  | .sendCb => sendCb s (s.table p).fd r

/-- The first test in the loop of `ntyreactor_run`. -/
def testIn (s : State) (p : Nat) (rep : Report) (r : Results) : Option State :=
  if rep.epollin && (s.table p).events.epollin then callback s p r else some s

/-- The second test, on the entry as the first one has left it. -/
def testOut (s : State) (p : Nat) (rep : Report) (r : Results) : Option State :=
  if rep.epollout && (s.table p).events.epollout then callback s p r else some s

/-- The steps of the program: `init_sock` followed by `ntyreactor_addlistener` (or a further call of the
latter on a listener), and one round of the loop over the reported events. -/
inductive Act where
  | addlistener (sockfd : Nat) (add : Bool)
  | event (fd : Nat) (rep : Report) (r₁ r₂ : Results)
  deriving Repr, DecidableEq

/-- `ntyreactor_addlistener` with the acceptor `accept_cb`. -/
def ntyreactorAddlistener (s : State) (sockfd : Nat) (add : Bool) : State :=
  let s := { s with socks := Function.update s.socks sockfd (some .listener) }
  ntyEventAdd (ntyEventSet s sockfd sockfd .acceptCb) .input sockfd add

/-- One step. An event is reported for a registered descriptor, with bits of its mask. -/
def step (s : State) : Act → Option State
  | .addlistener sockfd add =>
      match s.socks sockfd with
      | some (.accepted _) => none
      | _ => some (ntyreactorAddlistener s sockfd add)
  | .event fd rep r₁ r₂ =>
      match s.epoll fd with
      | none => none
      | some reg =>
          if rep.Among reg.mask then
            (testIn s reg.data rep r₁).bind fun t => testOut t reg.data rep r₂
          else none

/-- `ntyreactor_init`: an empty interest set and a table with whatever `malloc` returned. -/
def ntyreactorInit (table : Nat → NtyEvent) : State := ⟨table, fun _ => none, fun _ => none⟩

end CppMisc.Reactor
