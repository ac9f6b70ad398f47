import CppMisc.Library.Runs

/-!
# The client of `c10M/client.c`

The client goes on opening connections. In each round of its loop it creates a socket, connects it and
registers it with epoll; whenever the number of connections is a multiple of 1000 it waits for events and
handles the batch that it gets. The handler sends to or receives from `sockfd`, the socket of the round,
and closes `clientfd`, the socket of the event.

A round is given by the socket that `socket` returns, which is not open, and by the batch, which holds
different open sockets. What `recv` returns in the handling of an event, and `errno` after it, are part of
the event and may be anything. A round in which `socket` or `connect` fails ends the program. A state
keeps the record of the handled events; the texts that are sent and printed are left out.
-/

set_option autoImplicit false

namespace CppMisc.C10MClient

/-- The values of `errno` that the handler tells apart. -/
inductive Errno where
  | eintr
  | eagain
  | ewouldblock
  | other

/-- `errno == EINTR || errno == EAGAIN || errno == EWOULDBLOCK`. -/
def Errno.retryable : Errno → Bool
  | eintr => true
  | eagain => true
  | ewouldblock => true
  | other => false

/-- An event, with what `recv` does if it is called in the handling of it. -/
structure Ready where
  fd : Nat
  epollout : Bool
  epollin : Bool
  length : Int
  errno : Errno

/-- The record of a handled event: the socket that `send` or `recv` was called with, and whether
`close(clientfd)` was called. -/
structure Handled where
  event : Ready
  used : Option Nat
  closed : Bool

/-- The variables of `main`, with the sockets connected and not yet closed. -/
structure State where
  connections : Int
  sockets : List Nat
  handled : List Handled

/-- A round of the loop. -/
structure Round where
  sockfd : Nat
  batch : List Ready

/-- At the start of the loop. -/
def start : State := ⟨0, [], []⟩

/-- The body of the loop over the events. -/
def handleEvent (sockfd : Nat) (e : Ready) : Handled :=
  if e.epollout then ⟨e, some sockfd, false⟩
  else if e.epollin then
    if e.length = 0 then ⟨e, some sockfd, true⟩
    else if e.length < 0 then
      -- an empty buffer of a nonblocking socket is no error
      if e.errno.retryable then ⟨e, some sockfd, false⟩ else ⟨e, some sockfd, true⟩
    else ⟨e, some sockfd, false⟩
  else ⟨e, none, true⟩

/-- The state after an event. -/
def handle (sockfd : Nat) (s : State) (e : Ready) : State :=
  let h := handleEvent sockfd e
  { connections := if h.closed then s.connections - 1 else s.connections
    sockets := if h.closed then s.sockets.erase e.fd else s.sockets
    handled := h :: s.handled }

/-- The new connection of a round. -/
def connect (s : State) (sockfd : Nat) : State :=
  { s with connections := s.connections + 1, sockets := s.sockets ++ [sockfd] }

/-- The sockets of a batch are open and different. -/
def Delivers (s : State) (batch : List Ready) : Prop :=
  (batch.map Ready.fd).Nodup ∧ ∀ e ∈ batch, e.fd ∈ s.sockets

instance (s : State) (batch : List Ready) : Decidable (Delivers s batch) :=
  inferInstanceAs (Decidable (_ ∧ _))

/-- One round. -/
def step (s : State) (r : Round) : Option State :=
  if r.sockfd ∈ s.sockets then none
  else
    let s' := connect s r.sockfd
    if s'.connections % 1000 = 0 then
      if Delivers s' r.batch then some (r.batch.foldl (handle r.sockfd) s') else none
    else some s'

end CppMisc.C10MClient
