import CppMisc.Kcp.ControlBlock

/-!
# A datagram arrives (src/kcp_learn/ikcp.c, `ikcp_input` and what it calls)

`inputLoop` is the loop over the segments of a datagram. Each of them goes through `inputSeg`, which
acknowledges on the sending side (`parseUna`, `parseAck`, `shrinkBuf`) and stores on the receiving side
(`ackPush`, `parseData`). A malformed segment ends the loop with an error and leaves what the segments
before it did; only a datagram read to its end reaches `parseFastack` and `growCwnd`.
-/

set_option autoImplicit false

namespace CppMisc.Kcp

open CppMisc.Library

/-! ## Acknowledgements -/

/-- `ikcp_update_ack`. -/
def updateAck (kcp : Ikcpcb) (rtt : Int32) : Ikcpcb :=
  let kcp :=
    if kcp.rxSrtt = 0 then { kcp with rxSrtt := rtt, rxRttval := rtt / 2 }
    else
      let delta : Int := |(rtt - kcp.rxSrtt).toInt|
      let srtt := (7 * kcp.rxSrtt + rtt) / 8
      { kcp with
        rxRttval := Int32.ofInt (((3 * kcp.rxRttval).toInt + delta).tdiv 4)
        rxSrtt := if srtt < 1 then 1 else srtt }
  let rto := kcp.rxSrtt.toUInt32 + imax kcp.interval (4 * kcp.rxRttval).toUInt32
  { kcp with rxRto := (ibound kcp.rxMinrto.toUInt32 rto rtoMax).toInt32 }

/-- `ikcp_shrink_buf`. -/
def shrinkBuf (kcp : Ikcpcb) : Ikcpcb :=
  { kcp with sndUna := match kcp.sndBuf with
      | [] => kcp.sndNxt
      | seg :: _ => seg.sn }

/-- The tests at the start of `ikcp_parse_ack` and `ikcp_parse_fastack`: whether a number is not one of an
outstanding segment. -/
def outside (kcp : Ikcpcb) (sn : UInt32) : Prop :=
  itimediff sn kcp.sndUna < 0 ∨ itimediff sn kcp.sndNxt ≥ 0

instance (kcp : Ikcpcb) (sn : UInt32) : Decidable (outside kcp sn) :=
  inferInstanceAs (Decidable (_ ∨ _))

/-- The loop of `ikcp_parse_ack` over `snd_buf`, with the counter `nsnd_buf`. -/
def removeAck (sn : UInt32) : List Seg → UInt32 → List Seg × UInt32
  | [], nsndBuf => ([], nsndBuf)
  | seg :: rest, nsndBuf =>
      if sn = seg.sn then (rest, nsndBuf - 1)
      else if itimediff sn seg.sn < 0 then (seg :: rest, nsndBuf)
      else (seg :: (removeAck sn rest nsndBuf).1, (removeAck sn rest nsndBuf).2)

/-- `ikcp_parse_ack`. -/
def parseAck (kcp : Ikcpcb) (sn : UInt32) : Ikcpcb :=
  if outside kcp sn then kcp
  else
    { kcp with
      sndBuf := (removeAck sn kcp.sndBuf kcp.nsndBuf).1
      nsndBuf := (removeAck sn kcp.sndBuf kcp.nsndBuf).2 }

/-- The loop of `ikcp_parse_una` over `snd_buf`, with the counter `nsnd_buf`. -/
def removeUna (una : UInt32) : List Seg → UInt32 → List Seg × UInt32
  | [], nsndBuf => ([], nsndBuf)
  | seg :: rest, nsndBuf =>
      if itimediff una seg.sn > 0 then removeUna una rest (nsndBuf - 1) else (seg :: rest, nsndBuf)

/-- `ikcp_parse_una`. -/
def parseUna (kcp : Ikcpcb) (una : UInt32) : Ikcpcb :=
  { kcp with
    sndBuf := (removeUna una kcp.sndBuf kcp.nsndBuf).1
    nsndBuf := (removeUna una kcp.sndBuf kcp.nsndBuf).2 }

/-- The loop of `ikcp_parse_fastack` over `snd_buf`. -/
def countFastack (sn : UInt32) : List Seg → List Seg
  | [] => []
  | seg :: rest =>
      if itimediff sn seg.sn < 0 then seg :: rest
      else if sn ≠ seg.sn then { seg with fastack := seg.fastack + 1 } :: countFastack sn rest
      else seg :: countFastack sn rest

/-- `ikcp_parse_fastack`; the timestamp is not looked at without `IKCP_FASTACK_CONSERVE`. -/
def parseFastack (kcp : Ikcpcb) (sn : UInt32) : Ikcpcb :=
  if outside kcp sn then kcp else { kcp with sndBuf := countFastack sn kcp.sndBuf }

/-- `ikcp_ack_push`. -/
def ackPush (kcp : Ikcpcb) (sn ts : UInt32) : Ikcpcb := { kcp with acklist := kcp.acklist ++ [(sn, ts)] }

/-! ## Data -/

/-- The search of `ikcp_parse_data` through `rcv_buf`, which is given from its back: a repeated number is
refused, any other one is put behind the segments with smaller numbers. -/
def insertBack (newseg : Seg) : List Seg → Option (List Seg)
  | [] => some [newseg]
  | seg :: front =>
      if seg.sn = newseg.sn then none
      else if itimediff newseg.sn seg.sn > 0 then some (newseg :: seg :: front)
      else (insertBack newseg front).map (seg :: ·)

/-- `rcv_buf` with a segment put into its place. -/
def insertSeg (kcp : Ikcpcb) (newseg : Seg) : Ikcpcb :=
  match insertBack newseg kcp.rcvBuf.reverse with
  | none => kcp
  | some back => { kcp with rcvBuf := back.reverse, nrcvBuf := kcp.nrcvBuf + 1 }

/-- `ikcp_parse_data`. -/
def parseData (kcp : Ikcpcb) (newseg : Seg) : Ikcpcb :=
  if itimediff newseg.sn (kcp.rcvNxt + kcp.rcvWnd) ≥ 0 ∨ itimediff newseg.sn kcp.rcvNxt < 0 then kcp
  else
    let kcp := insertSeg kcp newseg
    moveAvailable kcp.rcvBuf kcp

/-! ## Segments -/

/-- The segment that `ikcp_input` builds for a header with `IKCP_CMD_PUSH` and the data behind it. -/
def pushSeg (h : Header) (data : Bytes) : Seg where
  conv := h.conv
  cmd := h.cmd.toUInt32
  frg := h.frg.toUInt32
  wnd := h.wnd.toUInt32
  ts := h.ts
  sn := h.sn
  una := h.una
  resendts := 0
  rto := 0
  fastack := 0
  xmit := 0
  data := data

/-- `flag` and `maxack` of `ikcp_input`: the largest acknowledged number so far, if there is one. -/
abbrev Maxack := Option UInt32

/-- The largest acknowledged number after one more acknowledgement. -/
def Maxack.add (maxack : Maxack) (sn : UInt32) : Maxack :=
  match maxack with
  | none => some sn
  | some m => if itimediff sn m > 0 then some sn else some m

/-- The branch for `IKCP_CMD_ACK`. -/
def inputAck (kcp : Ikcpcb) (h : Header) : Ikcpcb :=
  let kcp := if itimediff kcp.current h.ts ≥ 0 then updateAck kcp (kcp.current - h.ts).toInt32 else kcp
  shrinkBuf (parseAck kcp h.sn)

/-- The branch for `IKCP_CMD_PUSH`. -/
def inputPush (kcp : Ikcpcb) (h : Header) (data : Bytes) : Ikcpcb :=
  if itimediff h.sn (kcp.rcvNxt + kcp.rcvWnd) < 0 then
    let kcp := ackPush kcp h.sn h.ts
    if itimediff h.sn kcp.rcvNxt ≥ 0 then parseData kcp (pushSeg h data) else kcp
  else kcp

/-- What every segment does first: the window of the other side is noted and its `una` removes segments
from `snd_buf`. -/
def inputUna (kcp : Ikcpcb) (h : Header) : Ikcpcb :=
  shrinkBuf (parseUna { kcp with rmtWnd := h.wnd.toUInt32 } h.una)

/-- One segment with its data. -/
def inputSeg (kcp : Ikcpcb) (h : Header) (data : Bytes) : Ikcpcb :=
  let kcp := inputUna kcp h
  if h.cmd.toUInt32 = cmdAck then inputAck kcp h
  else if h.cmd.toUInt32 = cmdPush then inputPush kcp h data
  else if h.cmd.toUInt32 = cmdWask then { kcp with probe := kcp.probe ||| askTell }
  else kcp

/-- The commands that `ikcp_input` knows. -/
def knownCmd (cmd : UInt8) : Prop :=
  cmd.toUInt32 = cmdPush ∨ cmd.toUInt32 = cmdAck ∨ cmd.toUInt32 = cmdWask ∨ cmd.toUInt32 = cmdWins

instance (cmd : UInt8) : Decidable (knownCmd cmd) := inferInstanceAs (Decidable (_ ∨ _))

/-- What the loop of `ikcp_input` leaves: the endpoint, the largest acknowledged number and the error that
the loop was left with, if it was. -/
structure Parsed where
  kcp : Ikcpcb
  maxack : Maxack
  error : Option Int

/-- The loop of `ikcp_input`. A round takes at least a header, so that the length of the datagram is
enough as `fuel`. -/
def inputLoop : Nat → Ikcpcb → Maxack → Bytes → Parsed
  | 0, kcp, maxack, _ => ⟨kcp, maxack, none⟩
  | fuel + 1, kcp, maxack, data =>
      if data.length < overhead then ⟨kcp, maxack, none⟩
      else
        let (h, data) := decodeHeader data
        if h.conv ≠ kcp.conv then ⟨kcp, maxack, some (-1)⟩
        else if data.length < h.len.toNat ∨ h.len.toInt32 < 0 then ⟨kcp, maxack, some (-2)⟩
        else if ¬ knownCmd h.cmd then ⟨kcp, maxack, some (-3)⟩
        else
          inputLoop fuel (inputSeg kcp h (data.take h.len.toNat))
            (if h.cmd.toUInt32 = cmdAck then maxack.add h.sn else maxack) (data.drop h.len.toNat)

/-- The congestion window opens: by one below the threshold, by bytes above it. -/
def openCwnd (kcp : Ikcpcb) : Ikcpcb :=
  let mss := UInt32.ofNat kcp.mss
  if kcp.cwnd < kcp.ssthresh then { kcp with cwnd := kcp.cwnd + 1, incr := kcp.incr + mss }
  else
    let incr := if kcp.incr < mss then mss else kcp.incr
    let incr := incr + (mss * mss / incr + mss / 16)
    { kcp with
      incr := incr
      cwnd := if (kcp.cwnd + 1) * mss ≤ incr then (incr + mss - 1) / mss else kcp.cwnd }

/-- It does not open beyond the window of the other side. -/
def capCwnd (kcp : Ikcpcb) : Ikcpcb :=
  if kcp.cwnd > kcp.rmtWnd then
    { kcp with cwnd := kcp.rmtWnd, incr := kcp.rmtWnd * UInt32.ofNat kcp.mss }
  else kcp

/-- The congestion window after an advance of `snd_una`, at the end of `ikcp_input`. -/
def growCwnd (kcp : Ikcpcb) : Ikcpcb := if kcp.cwnd < kcp.rmtWnd then capCwnd (openCwnd kcp) else kcp

/-- The end of `ikcp_input`, for a datagram read to its end. -/
def inputTail (prevUna : UInt32) (kcp : Ikcpcb) (maxack : Maxack) : Ikcpcb :=
  let kcp := match maxack with
    | none => kcp
    | some maxack => parseFastack kcp maxack
  if itimediff kcp.sndUna prevUna > 0 then growCwnd kcp else kcp

/-- `ikcp_input`: the endpoint afterwards and the returned number. -/
def input (kcp : Ikcpcb) (data : Bytes) : Ikcpcb × Int :=
  if data.length < overhead then (kcp, -1)
  else
    let prevUna := kcp.sndUna
    let parsed := inputLoop data.length kcp none data
    match parsed.error with
    | some error => (parsed.kcp, error)
    | none => (inputTail prevUna parsed.kcp parsed.maxack, 0)

/-- A property that every segment keeps is kept by the loop over a datagram. -/
theorem inputLoop_induction {P : Ikcpcb → Prop}
    (hseg : ∀ kcp h data, P kcp → P (inputSeg kcp h data)) :
    ∀ (fuel : Nat) (kcp : Ikcpcb) (maxack : Maxack) (data : Bytes), P kcp →
      P (inputLoop fuel kcp maxack data).kcp := by
  intro fuel
  induction fuel with
  | zero => exact fun _ _ _ h => h
  | succ fuel ih =>
      intro kcp maxack data h
      unfold inputLoop
      dsimp only
      split
      · exact h
      · split
        · exact h
        · split
          · exact h
          · split
            · exact h
            · exact ih _ _ _ (hseg _ _ _ h)

/-- A property that every segment and the end of `ikcp_input` keep is kept by any datagram. -/
theorem input_induction {P : Ikcpcb → Prop} {kcp : Ikcpcb}
    (hseg : ∀ kcp h data, P kcp → P (inputSeg kcp h data))
    (htail : ∀ prevUna kcp maxack, P kcp → P (inputTail prevUna kcp maxack)) (h : P kcp) (data : Bytes) :
    P (input kcp data).1 := by
  have hloop := inputLoop_induction hseg data.length kcp none data h
  unfold input
  split
  · exact h
  · dsimp only
    cases (inputLoop data.length kcp none data).error with
    | some error => exact hloop
    | none => exact htail _ _ _ hloop

end CppMisc.Kcp
