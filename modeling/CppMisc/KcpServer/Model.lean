import Mathlib.Tactic
import CppMisc.Library.Runs

/-!
# The echo loop of `kcp_learn/server.c`

`loop` drives one KCP control block: in each iteration it lets the clock advance (`ikcp_update`), asks
`recvfrom` for a datagram without waiting, and hands what it gets to `ikcp_input`. If that succeeds it
takes one message out with `ikcp_recv`, echoes it with `ikcp_send` and flushes. Everything KCP sends goes
through `udp_output`, to the address in the field `CientAddr`, into which `recvfrom` writes the sender of
every datagram.

The engine is a parameter: the loop only relies on the five functions of `Engine`. In KCP only
`ikcp_update` and `ikcp_flush` call the output function, so only these return packets here. `kcpEngine` is
a small engine of that kind, for the runs on fixed inputs.

The counters and the clock readings that are only printed are left out.
-/

set_option autoImplicit false

namespace CppMisc.KcpServer

open CppMisc.Library

universe u v

/-- A packet, a datagram or a message. -/
abbrev Bytes := List UInt8

/-- `RECV_BUF`. -/
def recvBuf : Nat := 1500

/-- The KCP functions that the loop calls. A negative result of `ikcp_recv` is an error; otherwise it has
copied a message. -/
structure Engine (K : Type u) where
  update : K → Nat → K × List Bytes
  input : K → Bytes → K × Int
  recv : K → Nat → K × Except Int Bytes
  send : K → Bytes → K × Int
  flush : K → K × List Bytes

/-- The state of `loop`: the control block, the field `CientAddr`, and whether the loop goes on. `passed`
records the messages given to `ikcp_send` and `sent` what `udp_output` gives to `sendto`. `accepted` says
whether the last iteration got a datagram that `ikcp_input` took. -/
structure Server (K : Type u) (A : Type v) where
  kcp : K
  cientAddr : A
  running : Bool
  accepted : Bool
  passed : List Bytes
  sent : List (A × Bytes)

/-- One iteration: the clock reading, and what `recvfrom` returns, if it returns anything, together with the
sender. -/
structure Iteration (A : Type v) where
  clock : Nat
  datagram : Option (A × Bytes)
  deriving Repr, DecidableEq

section Loop

variable {K : Type u} {A : Type v} (e : Engine K)

/-- `udp_output` on each of the packets. -/
def udpOutput (s : Server K A) (packets : List Bytes) : Server K A :=
  { s with sent := s.sent ++ packets.map fun p => (s.cientAddr, p) }

/-- `ikcp_update` at the given clock reading. -/
def update (s : Server K A) (clock : Nat) : Server K A :=
  let r := e.update s.kcp clock
  udpOutput { s with kcp := r.1, accepted := false } r.2

/-- `ikcp_send` and `ikcp_flush` for a message that `ikcp_recv` has returned. -/
def reply (s : Server K A) (kcp : K) (msg : Bytes) : Server K A :=
  let r := e.flush (e.send kcp msg).1
  udpOutput { s with kcp := r.1, accepted := true, passed := s.passed ++ [msg] } r.2

/-- The rest of an iteration that has received the bytes `buf`. -/
def receive (s : Server K A) (buf : Bytes) : Server K A :=
  let r := e.input s.kcp buf
  if r.2 < 0 then { s with kcp := r.1 }
  else
    let m := e.recv r.1 buf.length
    match m.2 with
    | .error _ => { s with kcp := m.1, accepted := true }
    | .ok msg => reply e s m.1 msg

/-- One iteration of `loop`. An empty datagram ends the loop, after its sender has been recorded. -/
def step (s : Server K A) (i : Iteration A) : Option (Server K A) :=
  if s.running then
    let s := update e s i.clock
    match i.datagram with
    | none => some s
    | some (src, buf) =>
        if buf.length ≤ recvBuf then
          let s := { s with cientAddr := src }
          if buf = [] then some { s with running := false } else some (receive e s buf)
        else none
  else none

/-- The state in which the loop is entered: `ikcp_update` has been called once. The content of `CientAddr` is
what `main` left there. -/
def start (kcp : K) (cientAddr : A) (clock : Nat) : Server K A :=
  update e ⟨kcp, cientAddr, true, false, [], []⟩ clock

/-! The three outcomes of an iteration, by what `recvfrom` returns. -/

variable {e} {s t : Server K A} {i : Iteration A} {src : A} {buf : Bytes}

theorem step_idle (h : step e s i = some t) (hd : i.datagram = none) : t = update e s i.clock := by
  simp only [step, hd] at h
  split at h
  next => exact (Option.some.inj h).symm
  next => cases h

theorem step_ended (h : step e s i = some t) (hd : i.datagram = some (src, [])) :
    t = { update e s i.clock with cientAddr := src, running := false } := by
  simp only [step, hd, List.length_nil, Nat.zero_le, if_true] at h
  split at h
  next => exact (Option.some.inj h).symm
  next => cases h

theorem step_received (h : step e s i = some t) (hd : i.datagram = some (src, buf)) (hbuf : buf ≠ []) :
    t = receive e { update e s i.clock with cientAddr := src } buf := by
  simp only [step, hd, hbuf, if_false] at h
  split at h
  next =>
    split at h
    next => exact (Option.some.inj h).symm
    next => cases h
  next => cases h

/-- A rejected datagram: nothing is passed on. -/
theorem receive_rejected (h : (e.input s.kcp buf).2 < 0) :
    receive e s buf = { s with kcp := (e.input s.kcp buf).1 } := by
  simp [receive, h]

end Loop

/-! ## A small engine -/

/-- The control block of `kcpEngine`: complete messages, segments that wait for an acknowledgement, the
clock, and the time at which these are sent again. -/
structure Kcp where
  rcvQueue : List Bytes
  sndBuf : List Bytes
  current : Nat
  resendts : Nat
  deriving Repr, DecidableEq

/-- `IKCP_OVERHEAD`, the size of a segment's header. -/
def overhead : Nat := 24

/-- The messages of the `IKCP_CMD_PUSH` segments that lie one after the other in a datagram, up to one of
another kind or one that is cut short. Each is a message of its own, and the length of its data stands in the
21st byte. -/
def segments : Nat → Bytes → List Bytes
  | 0, _ => []
  | fuel + 1, data =>
      if data.length < overhead ∨ data.getD 4 0 ≠ 81 then []
      else
        let len := (data.getD 20 0).toNat
        let rest := data.drop overhead
        if rest.length < len then [] else rest.take len :: segments fuel (rest.drop len)

/-- Header and data of an `IKCP_CMD_PUSH` segment of the conversation 1 with the number `sn`, for a message of one
fragment and a window of 128 segments. -/
def segment (sn : UInt8) (msg : Bytes) : Bytes :=
  [1, 0, 0, 0, 81, 0, 128, 0] ++ [0, 0, 0, 0] ++ [sn, 0, 0, 0] ++ [0, 0, 0, 0] ++
    [UInt8.ofNat msg.length, 0, 0, 0] ++ msg

/-- An engine that takes the segments of conversation 1, in order and without loss, and sends its own until
they are acknowledged, which never happens here. -/
def kcpEngine : Engine Kcp where
  update k clock :=
    if k.resendts ≤ clock then ({ k with current := clock, resendts := clock + 200 }, k.sndBuf)
    else ({ k with current := clock }, [])
  input k data :=
    if data.length < overhead ∨ data.take 4 ≠ [1, 0, 0, 0] then (k, -1)
    else if data.getD 4 0 ≠ 81 then (k, -3)
    else ({ k with rcvQueue := k.rcvQueue ++ segments data.length data }, 0)
  recv k n :=
    match k.rcvQueue with
    | [] => (k, .error (-1))
    | m :: ms => if m.length ≤ n then ({ k with rcvQueue := ms }, .ok m) else (k, .error (-3))
  send k msg := ({ k with sndBuf := k.sndBuf ++ [segment (UInt8.ofNat k.sndBuf.length) msg] }, 0)
  flush k := ({ k with resendts := k.current + 200 }, k.sndBuf)

/-- `ikcp_create`. -/
def kcpCreate : Kcp := ⟨[], [], 0, 0⟩

end CppMisc.KcpServer
