import Mathlib.Tactic
import CppMisc.Library.Epoll
import CppMisc.Library.Runs

/-!
# The event loop of `muduo/server.py`

The loop handles one polled event after the other. Three blocks look at its bits in turn: `EPOLLHUP`
unregisters the descriptor, removes its entry from the dictionary `clients` and closes `client`; `EPOLLIN`
accepts a connection or receives on one, and drops it at the end of its stream; `EPOLLOUT` sends the
answer. The name `client` is a global variable: it is whatever socket the last accepting, receiving or
sending block has bound it to.

Socket objects are numbered, the acceptor is number 0. The kernel's table maps each open descriptor to its
socket, so a number can be reused after a close while the socket objects stay apart. Closing a socket takes
its descriptor out of epoll. A socket object that is removed from the dictionary and is not bound to
`client` has no reference left, and CPython closes it.

An exception that is raised ends the program. `foreign` records whether a block has closed a socket that was
not the one of its event.
-/

set_option autoImplicit false

namespace CppMisc.MuduoServer

open CppMisc.Library

/-- The exceptions; `osError` stands for those of the socket calls and of `decode`. -/
inductive Exn where
  | keyError
  | nameError
  | osError
  deriving Repr, DecidableEq

structure State where
  acceptorFd : Nat
  /-- The open descriptors and their sockets. -/
  table : Nat → Option Nat
  /-- The descriptor a socket was opened with. -/
  fileno : Nat → Nat
  next : Nat
  registered : Nat → Bool
  clients : Nat → Option Nat
  client : Option Nat
  raised : Option Exn
  foreign : Bool

/-- What `recv` returns: data, nothing at the end of the stream, or an exception (also from decoding). -/
inductive Received where
  | data
  | empty
  | raises
  deriving Repr, DecidableEq

/-- What the socket calls return in one event. `accept` and `send` may raise. -/
structure Results where
  accept : Option Nat
  recv : Received
  send : Bool
  deriving Repr, DecidableEq

/-- `close` on the socket `c` while the event of the socket `own` is handled; closing it again does
nothing. -/
def State.close (s : State) (own c : Nat) : State :=
  if s.table (s.fileno c) = some c then
    { s with
      table := Function.update s.table (s.fileno c) none
      registered := Function.update s.registered (s.fileno c) false
      foreign := s.foreign || decide (c ≠ own) }
  else s

/-- An uncaught exception. -/
def State.raise (s : State) (e : Exn) : State := { s with raised := some e }

/-- `clients.pop(fd)` on an entry that is there. -/
def State.pop (s : State) (fd : Nat) : State :=
  { s with clients := Function.update s.clients fd none }

/-- The block for `EPOLLHUP`. -/
def onHup (s : State) (fd : Nat) : State :=
  let s := { s with registered := Function.update s.registered fd false }
  match s.clients fd with
  | none => s.raise .keyError
  | some own =>
      let s := s.pop fd
      -- without a reference from `client` the popped socket is closed here
      let s := if s.client = some own then s else s.close own own
      match s.client with
      | none => s.raise .nameError
      | some c => s.close own c

/-- `acceptor.accept()` and the registration of the new socket. -/
def onAccept (s : State) (r : Results) : Option State :=
  match r.accept with
  | none => some (s.raise .osError)
  | some f =>
      if s.table f = none then
        some { s with
          table := Function.update s.table f (some s.next)
          fileno := Function.update s.fileno s.next f
          next := s.next + 1
          registered := Function.update s.registered f true
          clients := Function.update s.clients f (some s.next)
          client := some s.next }
      else none

/-- The `else` branch of the block for `EPOLLIN`. -/
def onRecv (s : State) (fd : Nat) (r : Results) : State :=
  match s.clients fd with
  | none => s.raise .keyError
  | some own =>
      let s := { s with client := some own }
      match r.recv with
      | .data => s
      | .raises => s.raise .osError
      | .empty => (s.pop fd).close own own

/-- The block for `EPOLLIN`. -/
def onIn (s : State) (fd : Nat) (r : Results) : Option State :=
  if fd = s.acceptorFd then onAccept s r else some (onRecv s fd r)

/-- The block for `EPOLLOUT`. -/
def onOut (s : State) (fd : Nat) (r : Results) : State :=
  match s.clients fd with
  | none => s.raise .keyError
  | some own =>
      let s := { s with client := some own }
      if r.send then s else s.raise .osError

/-- A block is run if its bit is set and no exception has ended the program. -/
def State.block (s : State) (bit : Bool) (body : State → Option State) : Option State :=
  if bit && s.raised.isNone then body s else some s

/-- One polled event. -/
structure Polled where
  fd : Nat
  evt : Report
  results : Results
  deriving Repr, DecidableEq

/-- The body of the loop. The event names a registered descriptor, and for the acceptor it is `EPOLLIN`. -/
def step (s : State) (e : Polled) : Option State :=
  if s.raised = none ∧ s.registered e.fd = true ∧
      (e.fd = s.acceptorFd → e.evt.epollhup = false ∧ e.evt.epollout = false) then
    (s.block e.evt.epollhup fun s => some (onHup s e.fd)).bind fun s =>
      (s.block e.evt.epollin fun s => onIn s e.fd e.results).bind fun s =>
        s.block e.evt.epollout fun s => some (onOut s e.fd e.results)
  else none

/-- The state in which the loop is entered: only the acceptor is open and registered. -/
def start (acceptorFd : Nat) : State :=
  { acceptorFd := acceptorFd
    table := Function.update (fun _ => none) acceptorFd (some 0)
    fileno := fun _ => acceptorFd
    next := 1
    registered := Function.update (fun _ => false) acceptorFd true
    clients := fun _ => none
    client := none
    raised := none
    foreign := false }

end CppMisc.MuduoServer
