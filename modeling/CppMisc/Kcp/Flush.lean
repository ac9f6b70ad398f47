import CppMisc.Kcp.ControlBlock

/-!
# Flushing and the clock (src/kcp_learn/ikcp.c, `ikcp_flush`, `ikcp_update`)

`flush` writes the pending acknowledgements, the window probes and every segment of `snd_buf` that is due
into datagrams. Its parts are in the order of the source: `flushAcks`, `probeWindow`, `flushProbes`,
`moveToSndBuf`, `flushSegments` and the two updates of the congestion window.
-/

set_option autoImplicit false

namespace CppMisc.Kcp

open CppMisc.Library

/-! ## Datagrams -/

/-- The assembly buffer up to `ptr`, and the datagrams that went to `output` before. -/
structure Packer where
  out : List Bytes
  buffer : Bytes

/-- `ikcp_output`: nothing is sent for an empty buffer. -/
def output (out : List Bytes) (data : Bytes) : List Bytes := if data.length = 0 then out else out ++ [data]

/-- A piece goes into the buffer, which is sent first when the piece would lift it above `mtu`. -/
def Packer.put (mtu : Mtu) (b : Packer) (piece : Bytes) : Packer :=
  if b.buffer.length + piece.length > mtu.value then ⟨output b.out b.buffer, piece⟩
  else ⟨b.out, b.buffer ++ piece⟩

/-- The remaining segments are sent. -/
def Packer.finish (b : Packer) : List Bytes := output b.out b.buffer

/-! ## Acknowledgements and probes -/

/-- `ikcp_wnd_unused`. -/
def wndUnused (kcp : Ikcpcb) : UInt32 := if kcp.nrcvQue < kcp.rcvWnd then kcp.rcvWnd - kcp.nrcvQue else 0

/-- The local `seg` of `ikcp_flush`, from which the headers without data are written. -/
def ackSeg (kcp : Ikcpcb) (sn ts : UInt32) : Seg where
  conv := kcp.conv
  cmd := cmdAck
  frg := 0
  wnd := wndUnused kcp
  ts := ts
  sn := sn
  una := kcp.rcvNxt
  resendts := 0
  rto := 0
  fastack := 0
  xmit := 0
  data := []

/-- The acknowledgements are written. -/
def flushAcks (kcp : Ikcpcb) (b : Packer) : Packer :=
  kcp.acklist.foldl (fun b ack => b.put kcp.mtu (encodeSeg (ackSeg kcp ack.1 ack.2))) b

/-- The numbers that `seg` has behind that loop: those of the last acknowledgement. -/
def lastAck (kcp : Ikcpcb) : UInt32 × UInt32 := kcp.acklist.getLast?.getD (0, 0)

/-- How long to wait for the next probe: half as long again each time, up to `IKCP_PROBE_LIMIT`. -/
def backoff (probeWait : UInt32) : UInt32 :=
  let wait := if probeWait < probeInit then probeInit else probeWait
  let wait := wait + wait / 2
  if wait > probeLimit then probeLimit else wait

/-- Whether and when to ask for the window of the other side, which is asked for when it was 0. -/
def probeWindow (kcp : Ikcpcb) : Ikcpcb :=
  if kcp.rmtWnd = 0 then
    if kcp.probeWait = 0 then
      { kcp with probeWait := probeInit, tsProbe := kcp.current + probeInit }
    else if itimediff kcp.current kcp.tsProbe ≥ 0 then
      { kcp with
        probeWait := backoff kcp.probeWait
        tsProbe := kcp.current + backoff kcp.probeWait
        probe := kcp.probe ||| askSend }
    else kcp
  else { kcp with tsProbe := 0, probeWait := 0 }

/-- One of the two window commands is written when its bit is set in `probe`. -/
def flushProbe (kcp : Ikcpcb) (ask cmd : UInt32) (ack : UInt32 × UInt32) (b : Packer) : Packer :=
  if kcp.probe &&& ask ≠ 0 then b.put kcp.mtu (encodeSeg { ackSeg kcp ack.1 ack.2 with cmd := cmd })
  else b

/-- `IKCP_CMD_WASK` and `IKCP_CMD_WINS`. -/
def flushProbes (kcp : Ikcpcb) (ack : UInt32 × UInt32) (b : Packer) : Packer :=
  flushProbe kcp askTell cmdWins ack (flushProbe kcp askSend cmdWask ack b)

/-! ## Data segments -/

/-- The window for new segments. -/
def flushWindow (kcp : Ikcpcb) : UInt32 :=
  let cwnd := imin kcp.sndWnd kcp.rmtWnd
  if kcp.nocwnd = 0 then imin kcp.cwnd cwnd else cwnd

/-- The header of a segment that moves from `snd_queue` to `snd_buf`. -/
def numberSeg (kcp : Ikcpcb) (wnd : UInt32) (newseg : Seg) : Seg :=
  { newseg with
    conv := kcp.conv
    cmd := cmdPush
    wnd := wnd
    ts := kcp.current
    sn := kcp.sndNxt
    una := kcp.rcvNxt
    resendts := kcp.current
    rto := kcp.rxRto.toUInt32
    fastack := 0
    xmit := 0 }

/-- The first segment of `snd_queue` gets the next number and moves to `snd_buf`. -/
def sendNext (wnd : UInt32) (kcp : Ikcpcb) (newseg : Seg) (rest : List Seg) : Ikcpcb :=
  { kcp with
    sndQueue := rest
    sndBuf := kcp.sndBuf ++ [numberSeg kcp wnd newseg]
    nsndQue := kcp.nsndQue - 1
    nsndBuf := kcp.nsndBuf + 1
    sndNxt := kcp.sndNxt + 1 }

/-- The loop that moves segments from `snd_queue`, which it goes through, to `snd_buf`. -/
def moveToSndBuf (cwnd wnd : UInt32) : List Seg → Ikcpcb → Ikcpcb
  | [], kcp => kcp
  | newseg :: rest, kcp =>
      if itimediff kcp.sndNxt (kcp.sndUna + cwnd) < 0 then
        moveToSndBuf cwnd wnd rest (sendNext wnd kcp newseg rest)
      else kcp

/-- Why a segment of `snd_buf` is sent. -/
inductive Reason where
  | first
  | timeout
  | fast
  deriving DecidableEq, Repr

/-- `resent` of `ikcp_flush`. -/
def fastThreshold (kcp : Ikcpcb) : UInt32 := if kcp.fastresend > 0 then kcp.fastresend.toUInt32 else 0xffffffff

/-- `rtomin` of `ikcp_flush`. -/
def rtoMargin (kcp : Ikcpcb) : UInt32 := if kcp.nodelay = 0 then (kcp.rxRto >>> 3).toUInt32 else 0

/-- Whether and why a segment is sent now. -/
def needsend (kcp : Ikcpcb) (segment : Seg) : Option Reason :=
  if segment.xmit = 0 then some .first
  else if itimediff kcp.current segment.resendts ≥ 0 then some .timeout
  else if segment.fastack ≥ fastThreshold kcp ∧
      (segment.xmit.toInt32 ≤ kcp.fastlimit ∨ kcp.fastlimit ≤ 0) then some .fast
  else none

/-- The waiting time of a segment after a timeout. -/
def growRto (kcp : Ikcpcb) (rto : UInt32) : UInt32 :=
  if kcp.nodelay = 0 then rto + imax rto kcp.rxRto.toUInt32
  else rto + ((if kcp.nodelay < 2 then rto.toInt32 else kcp.rxRto) / 2).toUInt32

/-- The segment as it is sent for a reason. -/
def resend (kcp : Ikcpcb) (segment : Seg) : Reason → Seg
  | .first =>
      { segment with
        xmit := segment.xmit + 1
        rto := kcp.rxRto.toUInt32
        resendts := kcp.current + kcp.rxRto.toUInt32 + rtoMargin kcp }
  | .timeout =>
      { segment with
        xmit := segment.xmit + 1
        rto := growRto kcp segment.rto
        resendts := kcp.current + growRto kcp segment.rto }
  | .fast =>
      { segment with
        xmit := segment.xmit + 1
        fastack := 0
        resendts := kcp.current + segment.rto }

/-- The words of the header that are refreshed with every sending. -/
def stamp (kcp : Ikcpcb) (wnd : UInt32) (segment : Seg) : Seg :=
  { segment with ts := kcp.current, wnd := wnd, una := kcp.rcvNxt }

/-- The variables of the loop over `snd_buf`: what was written, whether a segment timed out, how many were
resent early, `kcp->xmit` and `kcp->state`. -/
structure Sending where
  packer : Packer
  lost : Bool
  change : Nat
  xmit : UInt32
  state : UInt32

/-- One round of the loop over `snd_buf`: a segment is sent when it is due. -/
def flushSegment (kcp : Ikcpcb) (wnd : UInt32) (s : Sending) (segment : Seg) : Seg × Sending :=
  match needsend kcp segment with
  | none => (segment, s)
  | some reason =>
      let segment := stamp kcp wnd (resend kcp segment reason)
      (segment,
        { packer := s.packer.put kcp.mtu (encodeSeg segment ++ segment.data)
          lost := s.lost || decide (reason = .timeout)
          change := if reason = .fast then s.change + 1 else s.change
          xmit := if reason = .timeout then s.xmit + 1 else s.xmit
          state := if segment.xmit ≥ kcp.deadLink then 0xffffffff else s.state })

/-- The loop over `snd_buf`. -/
def flushSegments (kcp : Ikcpcb) (wnd : UInt32) : List Seg → Sending → List Seg × Sending
  | [], s => ([], s)
  | segment :: rest, s =>
      let (segment, s) := flushSegment kcp wnd s segment
      let (rest, s) := flushSegments kcp wnd rest s
      (segment :: rest, s)

/-! ## The congestion window -/

/-- At least `IKCP_THRESH_MIN`. -/
def atLeastThreshMin (ssthresh : UInt32) : UInt32 := if ssthresh < threshMin then threshMin else ssthresh

/-- The window after segments were resent early. -/
def afterFastResend (kcp : Ikcpcb) : Ikcpcb :=
  let ssthresh := atLeastThreshMin ((kcp.sndNxt - kcp.sndUna) / 2)
  let cwnd := ssthresh + fastThreshold kcp
  { kcp with ssthresh := ssthresh, cwnd := cwnd, incr := cwnd * UInt32.ofNat kcp.mss }

/-- The window after segments timed out, with the window that this flush worked with. -/
def afterLoss (cwnd : UInt32) (kcp : Ikcpcb) : Ikcpcb :=
  { kcp with ssthresh := atLeastThreshMin (cwnd / 2), cwnd := 1, incr := UInt32.ofNat kcp.mss }

/-- The last lines of `ikcp_flush`. -/
def updateSsthresh (cwnd : UInt32) (s : Sending) (kcp : Ikcpcb) : Ikcpcb :=
  let kcp := if s.change ≠ 0 then afterFastResend kcp else kcp
  let kcp := if s.lost then afterLoss cwnd kcp else kcp
  if kcp.cwnd < 1 then { kcp with cwnd := 1, incr := UInt32.ofNat kcp.mss } else kcp

/-! ## The whole flush -/

/-- The endpoint behind the probes: the acknowledgements are done and `probe` is cleared. -/
def clearProbe (kcp : Ikcpcb) : Ikcpcb := { kcp with acklist := [], probe := 0 }

/-- The endpoint when the loop over `snd_buf` begins. -/
def flushQueue (kcp : Ikcpcb) : Ikcpcb :=
  let kcp' := clearProbe (probeWindow kcp)
  moveToSndBuf (flushWindow kcp') (wndUnused kcp) kcp'.sndQueue kcp'

/-- What was written when that loop begins. -/
def flushHeads (kcp : Ikcpcb) : Packer :=
  flushProbes (probeWindow kcp) (lastAck kcp) (flushAcks kcp ⟨[], []⟩)

/-- The loop over `snd_buf` with its variables at the start. -/
def flushData (kcp : Ikcpcb) : List Seg × Sending :=
  flushSegments (flushQueue kcp) (wndUnused kcp) (flushQueue kcp).sndBuf
    ⟨flushHeads kcp, false, 0, kcp.xmit, kcp.state⟩

/-- `ikcp_flush`: the endpoint afterwards and the datagrams given to `output`. -/
def flush (kcp : Ikcpcb) : Ikcpcb × List Bytes :=
  if kcp.updated = false then (kcp, [])
  else
    let (sndBuf, s) := flushData kcp
    let cwnd := flushWindow (clearProbe (probeWindow kcp))
    (updateSsthresh cwnd s { flushQueue kcp with sndBuf := sndBuf, xmit := s.xmit, state := s.state },
      s.packer.finish)

/-! ## The clock -/

/-- The start of `ikcp_update`: the clock is read, and the first call begins the counting. -/
def setClock (kcp : Ikcpcb) (current : UInt32) : Ikcpcb :=
  { kcp with
    current := current
    updated := true
    tsFlush := if kcp.updated = false then current else kcp.tsFlush }

/-- A clock that is ten seconds off begins the counting anew. -/
def resync (kcp : Ikcpcb) : Ikcpcb :=
  if itimediff kcp.current kcp.tsFlush ≥ 10000 ∨ itimediff kcp.current kcp.tsFlush < -10000 then
    { kcp with tsFlush := kcp.current }
  else kcp

/-- The time of the next flush. -/
def nextFlush (kcp : Ikcpcb) : Ikcpcb :=
  { kcp with
    tsFlush :=
      if itimediff kcp.current (kcp.tsFlush + kcp.interval) ≥ 0 then kcp.current + kcp.interval
      else kcp.tsFlush + kcp.interval }

/-- `ikcp_update`. -/
def update (kcp : Ikcpcb) (current : UInt32) : Ikcpcb × List Bytes :=
  let kcp := resync (setClock kcp current)
  if itimediff kcp.current kcp.tsFlush ≥ 0 then flush (nextFlush kcp) else (kcp, [])

end CppMisc.Kcp
