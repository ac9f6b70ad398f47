import CppMisc.Kcp.Segment

/-!
# The control block of a connection (src/kcp_learn/ikcp.h, src/kcp_learn/ikcp.c)

`Ikcpcb` is one endpoint, with its four queues as lists. The counters `nrcv_que` and so on are fields of
their own, as in the source, and count up and down beside the lists. The assembly buffer is not a field:
`ikcp_flush` starts with an empty one, and `Packer` is the buffer together with the datagrams that went to
`output`.

This module has the settings and the reading side of the interface: `create`, `setmtu`, `setInterval`,
`nodelay`, `wndsize`, `peeksize`, `recv`, and the writing side up to `snd_queue`: `send`.
-/

set_option autoImplicit false

namespace CppMisc.Kcp

open CppMisc.Library

/-- A size that `ikcp_setmtu` accepts. -/
structure Mtu where
  value : Nat
  ge : 50 ≤ value
  lt : value < 2 ^ 31
  deriving DecidableEq, Repr

structure Ikcpcb where
  conv : UInt32
  mtu : Mtu
  state : UInt32
  sndUna : UInt32
  sndNxt : UInt32
  rcvNxt : UInt32
  ssthresh : UInt32
  rxRttval : Int32
  rxSrtt : Int32
  rxRto : Int32
  rxMinrto : Int32
  sndWnd : UInt32
  rcvWnd : UInt32
  rmtWnd : UInt32
  cwnd : UInt32
  probe : UInt32
  current : UInt32
  interval : UInt32
  tsFlush : UInt32
  xmit : UInt32
  nrcvBuf : UInt32
  nsndBuf : UInt32
  nrcvQue : UInt32
  nsndQue : UInt32
  nodelay : UInt32
  updated : Bool
  tsProbe : UInt32
  probeWait : UInt32
  deadLink : UInt32
  incr : UInt32
  sndQueue : List Seg
  rcvQueue : List Seg
  sndBuf : List Seg
  rcvBuf : List Seg
  acklist : List (UInt32 × UInt32)
  fastresend : Int32
  fastlimit : Int32
  nocwnd : Int32
  stream : Int32
  deriving DecidableEq, Repr

/-- `kcp->mss`, which is set together with `kcp->mtu` only. -/
def Ikcpcb.mss (kcp : Ikcpcb) : Nat := kcp.mtu.value - overhead

/-- `ikcp_create`. -/
def create (conv : UInt32) : Ikcpcb where
  conv := conv
  mtu := ⟨mtuDef, by decide, by decide⟩
  state := 0
  sndUna := 0
  sndNxt := 0
  rcvNxt := 0
  ssthresh := threshInit
  rxRttval := 0
  rxSrtt := 0
  rxRto := rtoDef
  rxMinrto := rtoMin
  sndWnd := wndSnd
  rcvWnd := wndRcv
  rmtWnd := wndRcv
  cwnd := 0
  probe := 0
  current := 0
  interval := defInterval
  tsFlush := defInterval
  xmit := 0
  nrcvBuf := 0
  nsndBuf := 0
  nrcvQue := 0
  nsndQue := 0
  nodelay := 0
  updated := false
  tsProbe := 0
  probeWait := 0
  deadLink := deadLinkDef
  incr := 0
  sndQueue := []
  rcvQueue := []
  sndBuf := []
  rcvBuf := []
  acklist := []
  fastresend := 0
  fastlimit := fastackLimit
  nocwnd := 0
  stream := 0

/-! ## Settings -/

/-- `ikcp_setmtu`, whose `ikcp_malloc` does not fail: the result -2 is left out. -/
def setmtu (kcp : Ikcpcb) (mtu : Int32) : Ikcpcb × Int :=
  if h : 50 ≤ mtu.toInt then
    ({ kcp with mtu := ⟨mtu.toInt.toNat, by omega, by have := mtu.toInt_lt; omega⟩ }, 0)
  else
    (kcp, -1)

/-- The bounds that `ikcp_interval` and `ikcp_nodelay` put on an interval. -/
def boundInterval (interval : Int32) : UInt32 :=
  if interval > 5000 then 5000 else if interval < 10 then 10 else interval.toUInt32

/-- `ikcp_interval`. -/
def setInterval (kcp : Ikcpcb) (interval : Int32) : Ikcpcb :=
  { kcp with interval := boundInterval interval }

/-- `ikcp_nodelay`: a negative argument leaves its setting as it is. -/
def setNodelay (kcp : Ikcpcb) (nodelay interval resend nc : Int32) : Ikcpcb :=
  { kcp with
    nodelay := if nodelay ≥ 0 then nodelay.toUInt32 else kcp.nodelay
    rxMinrto := if nodelay ≥ 0 then (if nodelay ≠ 0 then rtoNdl else rtoMin) else kcp.rxMinrto
    interval := if interval ≥ 0 then boundInterval interval else kcp.interval
    fastresend := if resend ≥ 0 then resend else kcp.fastresend
    nocwnd := if nc ≥ 0 then nc else kcp.nocwnd }

/-- `ikcp_wndsize`. -/
def wndsize (kcp : Ikcpcb) (sndwnd rcvwnd : Int32) : Ikcpcb :=
  { kcp with
    sndWnd := if sndwnd > 0 then sndwnd.toUInt32 else kcp.sndWnd
    rcvWnd := if rcvwnd > 0 then imax rcvwnd.toUInt32 wndRcv else kcp.rcvWnd }

/-! ## Reading -/

/-- The lengths that the loop of `ikcp_peeksize` adds up: up to the first fragment with number 0. -/
def peekLoop : List Seg → Nat
  | [] => 0
  | seg :: rest => if seg.frg = 0 then seg.len else seg.len + peekLoop rest

/-- `ikcp_peeksize`. -/
def peeksize (kcp : Ikcpcb) : Int :=
  match kcp.rcvQueue with
  | [] => -1
  | seg :: rest =>
      if seg.frg = 0 then seg.len
      else if kcp.nrcvQue < seg.frg + 1 then -1
      else peekLoop (seg :: rest)

/-- The fragments that the loop of `ikcp_recv` merges, and what stays behind them in the queue. -/
def takeMessage : List Seg → List Seg × List Seg
  | [] => ([], [])
  | seg :: rest =>
      if seg.frg = 0 then ([seg], rest)
      else (seg :: (takeMessage rest).1, (takeMessage rest).2)

/-- The first segment of `rcv_buf` moves to `rcv_queue`. -/
def takeNext (kcp : Ikcpcb) (seg : Seg) (rest : List Seg) : Ikcpcb :=
  { kcp with
    rcvBuf := rest
    nrcvBuf := kcp.nrcvBuf - 1
    rcvQueue := kcp.rcvQueue ++ [seg]
    nrcvQue := kcp.nrcvQue + 1
    rcvNxt := kcp.rcvNxt + 1 }

/-- The loop at the end of `ikcp_recv` and of `ikcp_parse_data`, over the segments of `rcv_buf`: what is
next in turn moves to `rcv_queue` while that is shorter than the window. -/
def moveAvailable : List Seg → Ikcpcb → Ikcpcb
  | [], kcp => kcp
  | seg :: rest, kcp =>
      if seg.sn = kcp.rcvNxt ∧ kcp.nrcvQue < kcp.rcvWnd then moveAvailable rest (takeNext kcp seg rest)
      else kcp

/-- The first message is taken off `rcv_queue`. -/
def dropMessage (kcp : Ikcpcb) : Ikcpcb :=
  { kcp with
    rcvQueue := (takeMessage kcp.rcvQueue).2
    nrcvQue := kcp.nrcvQue - UInt32.ofNat (takeMessage kcp.rcvQueue).1.length }

/-- `recover` of `ikcp_recv`: a queue that was full and has room again is announced to the other side. -/
def fastRecover (recover : Bool) (kcp : Ikcpcb) : Ikcpcb :=
  if kcp.nrcvQue < kcp.rcvWnd ∧ recover = true then { kcp with probe := kcp.probe ||| askTell } else kcp

/-- The bytes of the first message in `rcv_queue`. -/
def firstMessage (kcp : Ikcpcb) : Bytes := (takeMessage kcp.rcvQueue).1.flatMap Seg.data

/-- `ikcp_recv` behind its tests: a look leaves the message in the queue. -/
def recvMessage (kcp : Ikcpcb) (len : Int) : Ikcpcb :=
  let recover := decide (kcp.nrcvQue ≥ kcp.rcvWnd)
  let kcp := if len < 0 then kcp else dropMessage kcp
  fastRecover recover (moveAvailable kcp.rcvBuf kcp)

/-- `ikcp_recv`: the endpoint afterwards, the returned number and the bytes written to the buffer. A
negative `len` asks for a look at the message only. -/
def recv (kcp : Ikcpcb) (len : Int) : Ikcpcb × Int × Bytes :=
  if kcp.rcvQueue = [] then (kcp, -1, [])
  else if peeksize kcp < 0 then (kcp, -2, [])
  else if peeksize kcp > |len| then (kcp, -3, [])
  else (recvMessage kcp len, (firstMessage kcp).length, firstMessage kcp)

/-- A call of `ikcp_recv` fails and changes nothing, or it reads the first message. -/
theorem recv_cases (kcp : Ikcpcb) (len : Int) :
    (∃ rc, rc < 0 ∧ recv kcp len = (kcp, rc, [])) ∨
      (kcp.rcvQueue ≠ [] ∧ 0 ≤ peeksize kcp ∧ peeksize kcp ≤ |len| ∧
        recv kcp len = (recvMessage kcp len, ((firstMessage kcp).length : Int), firstMessage kcp)) := by
  unfold recv
  by_cases hempty : kcp.rcvQueue = []
  · exact Or.inl ⟨-1, by decide, if_pos hempty⟩
  · by_cases hpart : peeksize kcp < 0
    · exact Or.inl ⟨-2, by decide, by rw [if_neg hempty, if_pos hpart]⟩
    · by_cases hsmall : peeksize kcp > |len|
      · exact Or.inl ⟨-3, by decide, by rw [if_neg hempty, if_neg hpart, if_pos hsmall]⟩
      · exact Or.inr ⟨hempty, not_lt.1 hpart, not_lt.1 hsmall, by
          rw [if_neg hempty, if_neg hpart, if_neg hsmall]⟩

/-! ## Writing -/

/-- A segment as `ikcp_segment_new` gives it to `ikcp_send`; the header is filled in by `ikcp_flush`. -/
def segmentNew (frg : UInt32) (data : Bytes) : Seg where
  conv := 0
  cmd := 0
  frg := frg
  wnd := 0
  ts := 0
  sn := 0
  una := 0
  resendts := 0
  rto := 0
  fastack := 0
  xmit := 0
  data := data

/-- The start of `ikcp_send` in stream mode: the last segment of `snd_queue` is filled up to `mss` bytes.
The queue afterwards and what is left of the buffer. -/
def appendStream (mss : Nat) (queue : List Seg) (buffer : Bytes) : List Seg × Bytes :=
  match queue.getLast? with
  | none => (queue, buffer)
  | some old =>
      if old.len < mss then
        let extend := min buffer.length (mss - old.len)
        (queue.dropLast ++ [segmentNew 0 (old.data ++ buffer.take extend)], buffer.drop extend)
      else (queue, buffer)

/-- The number of segments that `len` bytes are cut into. -/
def fragmentCount (mss len : Nat) : Nat := if len ≤ mss then 1 else (len + mss - 1) / mss

/-- The loop of `ikcp_send` with `n` segments to go: their numbers count down to 0, and are 0 throughout in
stream mode. -/
def fragment (stream : Int32) (mss : Nat) : Nat → Bytes → List Seg
  | 0, _ => []
  | n + 1, buffer =>
      segmentNew (if stream = 0 then UInt32.ofNat n else 0) (buffer.take mss) ::
        fragment stream mss n (buffer.drop mss)

/-- `ikcp_send` behind the part for stream mode. -/
def sendRest (kcp : Ikcpcb) (buffer : Bytes) : Ikcpcb × Int :=
  let count := fragmentCount kcp.mss buffer.length
  if count ≥ wndRcv.toNat then (kcp, -2)
  else
    ({ kcp with
       sndQueue := kcp.sndQueue ++ fragment kcp.stream kcp.mss count buffer
       nsndQue := kcp.nsndQue + UInt32.ofNat count }, 0)

/-- `ikcp_send` of the first `len` bytes of a buffer. -/
def send (kcp : Ikcpcb) (buffer : Bytes) (len : Int) : Ikcpcb × Int :=
  if len < 0 then (kcp, -1)
  else
    let buffer := buffer.take len.toNat
    if kcp.stream ≠ 0 then
      let (queue, buffer) := appendStream kcp.mss kcp.sndQueue buffer
      let kcp := { kcp with sndQueue := queue }
      if buffer.length = 0 then (kcp, 0) else sendRest kcp buffer
    else sendRest kcp buffer

end CppMisc.Kcp
