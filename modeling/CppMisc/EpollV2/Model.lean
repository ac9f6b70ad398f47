import Mathlib.Tactic
import CppMisc.Library.Bytes
import CppMisc.Library.Epoll
import CppMisc.Library.Runs

/-!
# The echo server of `epoll/epoll_v2.c`

Each socket has a `sockitem` on the heap, whose address is the user data of its registration. The event
loop takes a batch of events from `epoll_wait` and calls, for each event, `si->callback` through the stored
pointer: once if `EPOLLIN` is among the reported bits, and then once more if `EPOLLOUT` is. `recv_callback`
frees the item when the connection ends.

The state is the heap of items, the interest set, the open descriptors and the rest of the current batch.
A batch is stored as the program sees it, as pointers and bits; the descriptors are known only to the
kernel. Since `malloc` may return an address that was freed before, every item carries the number of its
allocation, and a stored event remembers which item its pointer was stored for. A callback that is called
through a pointer whose item is gone, or that is not the one for the tested bit, is a `Fault`, and the run
stops there. `Dispatch` shows that no run gets that far.

`epoll_ctl` is taken to succeed wherever it makes sense. The bit `EPOLLET` decides only when a readiness is
reported again, and every report that the mask allows is considered here, so it is left out.
-/

set_option autoImplicit false

namespace CppMisc.EpollV2

open CppMisc.Library

/-- `BUFFER_SIZE`. -/
def bufferSize : Nat := 1024

inductive Callback where
  | acceptCallback
  | recvCallback
  | sendCallback
  deriving Repr, DecidableEq

/-- `struct sockitem`. -/
structure Sockitem where
  sockFd : Nat
  callback : Callback
  recvBuffer : Memory
  sendBuffer : Memory
  rlength : Nat
  slength : Nat

/-- What lies at an address of the heap; `id` is the number of the allocation. -/
inductive Block where
  | unused
  | live (id : Nat) (si : Sockitem)
  | freed

/-- An entry of `event_loop->events`: the reported bits and the pointer, which was stored for the item with
the number `item`. -/
structure Event where
  ptr : Nat
  bits : Report
  item : Nat
  deriving Repr, DecidableEq

/-- The two ways in which a call can go wrong. -/
inductive Fault where
  | useAfterFree
  | wrongCallback
  deriving Repr, DecidableEq

structure State where
  heap : Nat → Block
  epoll : Interest Nat
  opened : Nat → Bool
  listenItem : Nat
  next : Nat
  batch : List Event
  fault : Option Fault

/-- The outcomes of `recv`; no bytes mean that the peer has closed the connection. -/
inductive Received where
  | again
  | error
  | data (bs : List UInt8)
  deriving Repr, DecidableEq

/-- What the system calls of one callback return. The result of `send` is ignored by the program. `malloc`
returns an address and a block with any content. -/
structure Results where
  accept : Option Nat
  malloc : Nat
  block : Sockitem
  recv : Received

/-- Whether an address belongs to a live item. -/
def Block.isLive : Block → Bool
  | .live _ _ => true
  | _ => false

/-- Write the item at `p`. -/
def State.setItem (s : State) (p id : Nat) (si : Sockitem) : State :=
  { s with heap := Function.update s.heap p (.live id si) }

/-- `epoll_ctl`. -/
def State.ctl (s : State) (op : CtlOp) (fd : Nat) (mask : Mask) (p : Nat) : State :=
  { s with epoll := s.epoll.ctl op fd ⟨mask, p⟩ true }

/-- `accept_callback`. -/
def acceptCallback (s : State) (r : Results) : Option State :=
  match r.accept with
  | none => some s
  | some clientFd =>
      if s.opened clientFd = false ∧ (s.heap r.malloc).isLive = false then
        let t := { s with opened := Function.update s.opened clientFd true, next := s.next + 1 }
        let si := { r.block with sockFd := clientFd, callback := .recvCallback }
        some ((t.setItem r.malloc s.next si).ctl .add clientFd .input r.malloc)
      else none

/-- The end of a connection: `epoll_ctl`, `close` and `free`. -/
def hangUp (s : State) (fd p : Nat) : State :=
  let s := s.ctl .del fd .input p
  { s with
    epoll := s.epoll.close fd
    opened := Function.update s.opened fd false
    heap := Function.update s.heap p .freed }

/-- `recv_callback` on the item `si` at the address `p`. -/
def recvCallback (s : State) (fd p id : Nat) (si : Sockitem) (r : Results) : Option State :=
  match r.recv with
  | .again => some s
  | .error => some (hangUp s fd p)
  | .data bs =>
      if bs = [] then some (hangUp s fd p)
      else if bs.length ≤ bufferSize then
        let recvBuffer := si.recvBuffer.store 0 bs
        let si :=
          { sockFd := fd
            callback := .sendCallback
            recvBuffer := recvBuffer
            sendBuffer := si.sendBuffer.store 0 (recvBuffer.load 0 bs.length)
            rlength := bs.length
            slength := bs.length }
        some ((s.setItem p id si).ctl .mod fd .output p)
      else none

/-- `send_callback` on the item `si` at the address `p`. -/
def sendCallback (s : State) (fd p id : Nat) (si : Sockitem) : Option State :=
  let si := { si with sockFd := fd, callback := .recvCallback }
  some ((s.setItem p id si).ctl .mod fd .input p)

/-- The callbacks that may be called for `EPOLLIN` (`true`) and for `EPOLLOUT`. -/
def expected (input : Bool) : Callback → Bool
  | .acceptCallback => input
  | .recvCallback => input
  | .sendCallback => !input

/-- `si->callback(si->sock_fd, ...)` through the stored pointer. -/
def call (s : State) (e : Event) (input : Bool) (r : Results) : Option State :=
  match s.heap e.ptr with
  | .live id si =>
      if id ≠ e.item then some { s with fault := some .useAfterFree }
      else if expected input si.callback then
        match si.callback with
        | .acceptCallback => acceptCallback s r
        | .recvCallback => recvCallback s si.sockFd e.ptr id si r
        | .sendCallback => sendCallback s si.sockFd e.ptr id si
      else some { s with fault := some .wrongCallback }
  | _ => some { s with fault := some .useAfterFree }

/-- The first test of the loop body. -/
def testIn (s : State) (e : Event) (r : Results) : Option State :=
  if e.bits.epollin then call s e true r else some s

/-- The second test, with the same pointer. -/
def testOut (s : State) (e : Event) (r : Results) : Option State :=
  if e.bits.epollout then call s e false r else some s

/-- `epoll_wait` returns a batch, or the loop body is run on the next event of the batch. -/
inductive Act where
  | wait (ready : List (Nat × Report))
  | handle (r₁ r₂ : Results)

/-- A batch that `epoll_wait` can return: each registered descriptor at most once, with bits of its mask. -/
def Ready (s : State) (ready : List (Nat × Report)) : Prop :=
  (ready.map Prod.fst).Nodup ∧
    ∀ e ∈ ready, ∃ reg, s.epoll e.1 = some reg ∧ e.2.Among reg.mask

instance (s : State) (ready : List (Nat × Report)) : Decidable (Ready s ready) :=
  have (e : Nat × Report) : Decidable (∃ reg, s.epoll e.1 = some reg ∧ e.2.Among reg.mask) :=
    match h : s.epoll e.1 with
    | none => isFalse fun ⟨_, hreg, _⟩ => by cases hreg
    | some reg =>
        decidable_of_iff (e.2.Among reg.mask)
          ⟨fun hr => ⟨reg, rfl, hr⟩, fun ⟨_, hreg, hr⟩ => by cases hreg; exact hr⟩
  inferInstanceAs (Decidable (_ ∧ _))

/-- The number of the item at an address. -/
def itemAt (s : State) (p : Nat) : Nat :=
  match s.heap p with
  | .live id _ => id
  | _ => s.next

/-- The events as they are stored in `event_loop->events`. -/
def stored (s : State) (ready : List (Nat × Report)) : List Event :=
  ready.filterMap fun e => (s.epoll e.1).map fun reg => ⟨reg.data, e.2, itemAt s reg.data⟩

def step (s : State) : Act → Option State
  | .wait ready =>
      if s.fault = none ∧ s.batch = [] ∧ Ready s ready then some { s with batch := stored s ready }
      else none
  | .handle r₁ r₂ =>
      match s.fault, s.batch with
      | none, e :: rest => (testIn { s with batch := rest } e r₁).bind fun t => testOut t e r₂
      | _, _ => none

/-- The state in which `main` enters the loop: one item, for the listening socket. -/
def start (listenFd listenItem : Nat) (block : Sockitem) : State :=
  { heap := Function.update (fun _ => .unused) listenItem
      (.live 0 { block with sockFd := listenFd, callback := .acceptCallback })
    epoll := Function.update (fun _ => none) listenFd (some ⟨.input, listenItem⟩)
    opened := Function.update (fun _ => false) listenFd true
    listenItem := listenItem
    next := 1
    batch := []
    fault := none }

end CppMisc.EpollV2
