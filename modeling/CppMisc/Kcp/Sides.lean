import CppMisc.Kcp.Input
import CppMisc.Kcp.Flush

/-!
# The two sides of an endpoint

An endpoint is a sender and a receiver that share a clock and a congestion window. `View` is what both
sides are made of, without the clock, the round trip estimate and the congestion control, and each part of
the implementation touches little of it: the frame lemmas `view_…` say which parts, and the rules
`moveAvailable_induction` and `moveToSndBuf_induction` reduce the two loops to one round of each.

`Call` is the interface of an endpoint with `call` as its effect.
-/

set_option autoImplicit false

namespace CppMisc.Kcp

open CppMisc.Library

/-- The sending side. -/
structure Sender where
  una : UInt32
  nxt : UInt32
  buf : List Seg
  nbuf : UInt32
  queue : List Seg
  nque : UInt32
  wnd : UInt32
  rmtWnd : UInt32

/-- The receiving side. -/
structure Receiver where
  nxt : UInt32
  wnd : UInt32
  buf : List Seg
  nbuf : UInt32
  queue : List Seg
  nque : UInt32

structure View where
  conv : UInt32
  mtu : Mtu
  stream : Int32
  sender : Sender
  receiver : Receiver
  acks : List (UInt32 × UInt32)

def Ikcpcb.sender (kcp : Ikcpcb) : Sender where
  una := kcp.sndUna
  nxt := kcp.sndNxt
  buf := kcp.sndBuf
  nbuf := kcp.nsndBuf
  queue := kcp.sndQueue
  nque := kcp.nsndQue
  wnd := kcp.sndWnd
  rmtWnd := kcp.rmtWnd

def Ikcpcb.receiver (kcp : Ikcpcb) : Receiver where
  nxt := kcp.rcvNxt
  wnd := kcp.rcvWnd
  buf := kcp.rcvBuf
  nbuf := kcp.nrcvBuf
  queue := kcp.rcvQueue
  nque := kcp.nrcvQue

def Ikcpcb.view (kcp : Ikcpcb) : View where
  conv := kcp.conv
  mtu := kcp.mtu
  stream := kcp.stream
  sender := kcp.sender
  receiver := kcp.receiver
  acks := kcp.acklist

variable (kcp : Ikcpcb)

/-! ## What touches neither side -/

@[simp] theorem view_updateAck (rtt : Int32) : (updateAck kcp rtt).view = kcp.view := by
  unfold updateAck
  split <;> rfl

@[simp] theorem view_openCwnd : (openCwnd kcp).view = kcp.view := by
  unfold openCwnd
  split <;> rfl

@[simp] theorem view_capCwnd : (capCwnd kcp).view = kcp.view := by
  unfold capCwnd
  split <;> rfl

@[simp] theorem view_growCwnd : (growCwnd kcp).view = kcp.view := by
  unfold growCwnd
  split
  · rw [view_capCwnd, view_openCwnd]
  · rfl

@[simp] theorem view_probeWindow : (probeWindow kcp).view = kcp.view := by
  unfold probeWindow
  by_cases h : kcp.rmtWnd = 0
  · rw [if_pos h]
    by_cases hwait : kcp.probeWait = 0
    · rw [if_pos hwait]
      simp only [Ikcpcb.view, Ikcpcb.sender, Ikcpcb.receiver]
    · rw [if_neg hwait]
      split <;> rfl
  · rw [if_neg h]
    rfl

@[simp] theorem view_fastRecover (recover : Bool) : (fastRecover recover kcp).view = kcp.view := by
  unfold fastRecover
  split <;> rfl

@[simp] theorem view_afterFastResend : (afterFastResend kcp).view = kcp.view := rfl

@[simp] theorem view_afterLoss (cwnd : UInt32) : (afterLoss cwnd kcp).view = kcp.view := rfl

@[simp] theorem view_updateSsthresh (cwnd : UInt32) (s : Sending) :
    (updateSsthresh cwnd s kcp).view = kcp.view := by
  have hlast : ∀ kcp : Ikcpcb,
      (if kcp.cwnd < 1 then { kcp with cwnd := 1, incr := UInt32.ofNat kcp.mss } else kcp).view =
        kcp.view := by
    intro kcp
    split <;> rfl
  rw [updateSsthresh, hlast]
  split <;> split <;> simp

@[simp] theorem view_setClock (current : UInt32) : (setClock kcp current).view = kcp.view := rfl

@[simp] theorem view_resync : (resync kcp).view = kcp.view := by
  unfold resync
  split <;> rfl

@[simp] theorem view_nextFlush : (nextFlush kcp).view = kcp.view := rfl

@[simp] theorem view_setInterval (interval : Int32) : (setInterval kcp interval).view = kcp.view := rfl

@[simp] theorem view_setNodelay (nodelay interval resend nc : Int32) :
    (setNodelay kcp nodelay interval resend nc).view = kcp.view := rfl

/-! ## What touches the receiver only -/

variable {kcp} in
/-- A property that moving one segment to `rcv_queue` keeps is kept by the loop. -/
theorem moveAvailable_induction {P : Ikcpcb → Prop}
    (hnext : ∀ kcp seg rest, P kcp → kcp.rcvBuf = seg :: rest → seg.sn = kcp.rcvNxt →
      kcp.nrcvQue < kcp.rcvWnd → P (takeNext kcp seg rest))
    (h : P kcp) : P (moveAvailable kcp.rcvBuf kcp) := by
  generalize hbuf : kcp.rcvBuf = buf
  induction buf generalizing kcp with
  | nil => exact h
  | cons seg rest ih =>
      rw [moveAvailable]
      split
      · rename_i hturn
        exact ih (hnext kcp seg rest h hbuf hturn.1 hturn.2) rfl
      · exact h

variable {kcp} in
/-- The loop ends in front of a segment that is not next in turn or finds no room. -/
theorem moveAvailable_stops : ∀ seg rest, (moveAvailable kcp.rcvBuf kcp).rcvBuf = seg :: rest →
    ¬ (seg.sn = (moveAvailable kcp.rcvBuf kcp).rcvNxt ∧
      (moveAvailable kcp.rcvBuf kcp).nrcvQue < (moveAvailable kcp.rcvBuf kcp).rcvWnd) := by
  generalize hbuf : kcp.rcvBuf = buf
  induction buf generalizing kcp with
  | nil =>
      intro seg rest h
      rw [moveAvailable, hbuf] at h
      cases h
  | cons first others ih =>
      rw [moveAvailable]
      split
      · apply ih
        rfl
      · rename_i hturn
        intro seg rest h
        rw [hbuf] at h
        cases h
        exact hturn

@[simp] theorem view_moveAvailable : (moveAvailable kcp.rcvBuf kcp).view =
    { kcp.view with receiver := (moveAvailable kcp.rcvBuf kcp).receiver } := by
  apply moveAvailable_induction (P := fun k => k.view = { kcp.view with receiver := k.receiver })
  · intro k seg rest h _ _ _
    calc (takeNext k seg rest).view = { k.view with receiver := (takeNext k seg rest).receiver } := rfl
      _ = { kcp.view with receiver := (takeNext k seg rest).receiver } := by rw [h]
  · rfl

theorem view_insertSeg (newseg : Seg) :
    (insertSeg kcp newseg).view = { kcp.view with receiver := (insertSeg kcp newseg).receiver } := by
  unfold insertSeg
  split <;> rfl

theorem view_parseData (newseg : Seg) :
    (parseData kcp newseg).view = { kcp.view with receiver := (parseData kcp newseg).receiver } := by
  unfold parseData
  split
  · rfl
  · dsimp only
    rw [view_moveAvailable, view_insertSeg]

theorem view_dropMessage : (dropMessage kcp).view =
    { kcp.view with receiver := (dropMessage kcp).receiver } := rfl

theorem view_recvMessage (len : Int) :
    (recvMessage kcp len).view = { kcp.view with receiver := (recvMessage kcp len).receiver } := by
  have hmove : ∀ (k : Ikcpcb) (recover : Bool), k.view = { kcp.view with receiver := k.receiver } →
      (fastRecover recover (moveAvailable k.rcvBuf k)).view = { kcp.view with
        receiver := (fastRecover recover (moveAvailable k.rcvBuf k)).receiver } := by
    intro k recover hk
    have hreceiver := congrArg View.receiver
      (view_fastRecover (moveAvailable k.rcvBuf k) recover)
    rw [view_fastRecover, view_moveAvailable, hk]
    exact congrArg (fun r => { kcp.view with receiver := r }) hreceiver.symm
  unfold recvMessage
  dsimp only
  split
  · exact hmove kcp _ rfl
  · exact hmove (dropMessage kcp) _ (view_dropMessage kcp)

theorem view_recv (len : Int) :
    (recv kcp len).1.view = { kcp.view with receiver := (recv kcp len).1.receiver } := by
  rcases recv_cases kcp len with ⟨rc, -, heq⟩ | ⟨-, -, -, heq⟩
  · rw [heq]
    rfl
  · rw [heq]
    exact view_recvMessage kcp len

theorem view_inputPush (h : Header) (data : Bytes) : (inputPush kcp h data).view =
    { kcp.view with
      receiver := (inputPush kcp h data).receiver
      acks := (inputPush kcp h data).acklist } := by
  unfold inputPush
  split
  · dsimp only
    split
    · have hview := view_parseData (ackPush kcp h.sn h.ts) (pushSeg h data)
      have hacks := congrArg View.acks hview
      rw [hview]
      exact congrArg (fun acks => { kcp.view with
        receiver := (parseData (ackPush kcp h.sn h.ts) (pushSeg h data)).receiver
        acks := acks }) hacks.symm
    · rfl
  · rfl

/-! ## What touches the sender only -/

theorem view_shrinkBuf : (shrinkBuf kcp).view = { kcp.view with sender := (shrinkBuf kcp).sender } := rfl

theorem view_parseAck (sn : UInt32) :
    (parseAck kcp sn).view = { kcp.view with sender := (parseAck kcp sn).sender } := by
  unfold parseAck
  split <;> rfl

theorem view_parseFastack (sn : UInt32) :
    (parseFastack kcp sn).view = { kcp.view with sender := (parseFastack kcp sn).sender } := by
  unfold parseFastack
  split <;> rfl

theorem view_inputUna (h : Header) :
    (inputUna kcp h).view = { kcp.view with sender := (inputUna kcp h).sender } := rfl

/-- The clock part of `inputAck` aside, it is `ikcp_parse_ack` and `ikcp_shrink_buf`. -/
theorem inputAck_eq (h : Header) :
    ∃ k : Ikcpcb, k.view = kcp.view ∧ inputAck kcp h = shrinkBuf (parseAck k h.sn) := by
  unfold inputAck
  split
  · exact ⟨_, view_updateAck kcp _, rfl⟩
  · exact ⟨kcp, rfl, rfl⟩

theorem view_inputAck (h : Header) :
    (inputAck kcp h).view = { kcp.view with sender := (inputAck kcp h).sender } := by
  obtain ⟨k, hk, heq⟩ := inputAck_eq kcp h
  rw [heq, view_shrinkBuf, view_parseAck, hk]

variable {kcp} in
/-- A property that numbering one segment keeps is kept by the loop over `snd_queue`. -/
theorem moveToSndBuf_induction {P : Ikcpcb → Prop} {cwnd wnd : UInt32}
    (hnext : ∀ kcp newseg rest, P kcp → kcp.sndQueue = newseg :: rest →
      itimediff kcp.sndNxt (kcp.sndUna + cwnd) < 0 → P (sendNext wnd kcp newseg rest))
    (h : P kcp) : P (moveToSndBuf cwnd wnd kcp.sndQueue kcp) := by
  generalize hqueue : kcp.sndQueue = queue
  induction queue generalizing kcp with
  | nil => exact h
  | cons newseg rest ih =>
      rw [moveToSndBuf]
      split
      · rename_i hwindow
        exact ih (hnext kcp newseg rest h hqueue hwindow) rfl
      · exact h

theorem view_moveToSndBuf (cwnd wnd : UInt32) : (moveToSndBuf cwnd wnd kcp.sndQueue kcp).view =
    { kcp.view with sender := (moveToSndBuf cwnd wnd kcp.sndQueue kcp).sender } := by
  apply moveToSndBuf_induction (P := fun k => k.view = { kcp.view with sender := k.sender })
  · intro k newseg rest h _ _
    calc (sendNext wnd k newseg rest).view =
          { k.view with sender := (sendNext wnd k newseg rest).sender } := rfl
      _ = { kcp.view with sender := (sendNext wnd k newseg rest).sender } := by rw [h]
  · rfl

/-- What a segment of `snd_buf` keeps from one sending to the next. -/
def Seg.key (seg : Seg) : UInt32 × UInt32 × UInt32 × UInt32 × Bytes :=
  (seg.sn, seg.conv, seg.cmd, seg.frg, seg.data)

theorem key_flushSegment (wnd : UInt32) (s : Sending) (segment : Seg) :
    (flushSegment kcp wnd s segment).1.key = segment.key := by
  unfold flushSegment
  cases needsend kcp segment with
  | none => rfl
  | some reason => cases reason <;> rfl

theorem keys_flushSegments (wnd : UInt32) (buf : List Seg) (s : Sending) :
    (flushSegments kcp wnd buf s).1.map Seg.key = buf.map Seg.key := by
  induction buf generalizing s with
  | nil => rfl
  | cons segment rest ih =>
      rw [flushSegments, List.map_cons, List.map_cons, key_flushSegment, ih]

/-- A segment without what acknowledgements of later ones count in it. -/
def Seg.body (seg : Seg) : Seg := { seg with fastack := 0 }

theorem bodies_countFastack (sn : UInt32) (buf : List Seg) :
    (countFastack sn buf).map Seg.body = buf.map Seg.body := by
  induction buf with
  | nil => rfl
  | cons seg rest ih =>
      unfold countFastack
      split
      · rfl
      · split
        · rw [List.map_cons, List.map_cons, ih]
          rfl
        · rw [List.map_cons, List.map_cons, ih]

theorem map_body_key (buf : List Seg) : (buf.map Seg.body).map Seg.key = buf.map Seg.key := by
  rw [List.map_map]
  rfl

theorem keys_countFastack (sn : UInt32) (buf : List Seg) :
    (countFastack sn buf).map Seg.key = buf.map Seg.key := by
  rw [← map_body_key, bodies_countFastack, map_body_key]

theorem view_flushQueue : (flushQueue kcp).view =
    { kcp.view with sender := (flushQueue kcp).sender, acks := [] } := by
  have hclear : (clearProbe (probeWindow kcp)).view = { kcp.view with acks := [] } := by
    calc (clearProbe (probeWindow kcp)).view = { (probeWindow kcp).view with acks := [] } := rfl
      _ = { kcp.view with acks := [] } := by rw [view_probeWindow]
  unfold flushQueue
  dsimp only
  rw [view_moveToSndBuf, hclear]

variable {kcp} in
/-- A flush in its parts: the queue is moved, then the segments of `snd_buf` are sent. -/
theorem view_flush_of_updated (hupdated : kcp.updated = true) : (flush kcp).1.view =
    { kcp.view with
      sender := { (flushQueue kcp).sender with buf := (flushData kcp).1 }
      acks := [] } := by
  have hdata : ∀ (buf : List Seg) (xmit state : UInt32),
      ({ flushQueue kcp with sndBuf := buf, xmit := xmit, state := state } : Ikcpcb).view =
        { (flushQueue kcp).view with sender := { (flushQueue kcp).sender with buf := buf } } :=
    fun _ _ _ => rfl
  rw [flush, hupdated, if_neg (by decide)]
  dsimp only
  rw [view_updateSsthresh, hdata, view_flushQueue]

/-- `ikcp_send` changes the queue only. -/
theorem view_sendRest (buffer : Bytes) : ∃ queue nque, (sendRest kcp buffer).1.view =
    { kcp.view with sender := { kcp.sender with queue := queue, nque := nque } } := by
  unfold sendRest
  dsimp only
  split
  · exact ⟨kcp.sndQueue, kcp.nsndQue, rfl⟩
  · exact ⟨_, _, rfl⟩

theorem view_send (buffer : Bytes) (len : Int) : ∃ queue nque, (send kcp buffer len).1.view =
    { kcp.view with sender := { kcp.sender with queue := queue, nque := nque } } := by
  unfold send
  split
  · exact ⟨kcp.sndQueue, kcp.nsndQue, rfl⟩
  · dsimp only
    split
    · split
      · exact ⟨_, kcp.nsndQue, rfl⟩
      · exact view_sendRest { kcp with sndQueue := _ } _
    · exact view_sendRest kcp _

/-! ## The interface -/

/-- A call of the application, other than `ikcp_input`. -/
inductive Call where
  | send (buffer : Bytes)
  | recv (len : Int)
  | update (current : UInt32)
  | flush
  | setmtu (mtu : Int32)
  | interval (interval : Int32)
  | nodelay (nodelay interval resend nc : Int32)
  | wndsize (sndwnd rcvwnd : Int32)
  deriving DecidableEq, Repr

/-- What a call leaves: the endpoint, the returned number, the bytes that were read and the datagrams that
went to `output`. -/
structure Outcome where
  kcp : Ikcpcb
  rc : Int
  data : Bytes
  datagrams : List Bytes

def Ikcpcb.call (kcp : Ikcpcb) : Call → Outcome
  | .send buffer => ⟨(send kcp buffer buffer.length).1, (send kcp buffer buffer.length).2, [], []⟩
  | .recv len => ⟨(recv kcp len).1, (recv kcp len).2.1, (recv kcp len).2.2, []⟩
  | .update current => ⟨(update kcp current).1, 0, [], (update kcp current).2⟩
  | .flush => ⟨(flush kcp).1, 0, [], (flush kcp).2⟩
  | .setmtu mtu => ⟨(setmtu kcp mtu).1, (setmtu kcp mtu).2, [], []⟩
  | .interval interval => ⟨setInterval kcp interval, 0, [], []⟩
  | .nodelay nodelay interval resend nc => ⟨setNodelay kcp nodelay interval resend nc, 0, [], []⟩
  | .wndsize sndwnd rcvwnd => ⟨wndsize kcp sndwnd rcvwnd, 0, [], []⟩

/-- What happens to an endpoint: a call, or a datagram of whatever origin. -/
inductive Event where
  | call (c : Call)
  | input (data : Bytes)
  deriving DecidableEq, Repr

/-- The endpoint after an event. A flush is taken to have a buffer that is large enough, whatever `setmtu` made of
it: where the program writes past `kcp->buffer` it promises nothing, and such a run is followed here as if it had not
(`Ikcpcb.step` has no such step). -/
def Ikcpcb.event (kcp : Ikcpcb) : Event → Ikcpcb
  | .call c => (kcp.call c).kcp
  | .input data => (input kcp data).1

/-- A property that every event keeps is kept by any events. -/
theorem events_induction {P : Ikcpcb → Prop} (hevent : ∀ kcp e, P kcp → P (kcp.event e)) (events : List Event) :
    ∀ {kcp : Ikcpcb}, P kcp → P (events.foldl Ikcpcb.event kcp) := by
  induction events with
  | nil => exact fun h => h
  | cons e events ih => exact fun h => ih (hevent _ e h)

end CppMisc.Kcp
