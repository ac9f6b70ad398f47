import CppMisc.Kcp.Timers
import CppMisc.Kcp.Completion

/-!
# One exchange between the endpoints

What a flush is sure to write, and what a datagram is sure to do when it arrives: a segment of `snd_buf` that is
due goes out, its arrival is noted in `acklist`, the acknowledgement goes out with the next flush, and it takes
the segment out of `snd_buf`. When the window of the other side is closed, a probe asks for it and the answer
opens it again.

These are the moves from which `CppMisc.Kcp.Progress` puts a way to the end of a transfer together.
-/

set_option autoImplicit false

namespace CppMisc.Kcp

open CppMisc.Library

/-! ## What a flush writes -/

/-- The endpoint as a flush at the time `c` finds it. -/
def Ikcpcb.atClock (kcp : Ikcpcb) (c tsFlush : UInt32) : Ikcpcb :=
  { kcp with current := c, updated := true, tsFlush := tsFlush }

@[simp] theorem view_atClock (kcp : Ikcpcb) (c tsFlush : UInt32) : (kcp.atClock c tsFlush).view = kcp.view := rfl

/-- `ikcp_update` flushes, or it sets the clock only. -/
theorem update_cases (kcp : Ikcpcb) (c : UInt32) : ∃ tsFlush,
    update kcp c = flush (kcp.atClock c tsFlush) ∨ update kcp c = (kcp.atClock c tsFlush, []) := by
  have hclock : ∃ tsFlush, resync (setClock kcp c) = kcp.atClock c tsFlush := by
    unfold resync
    split <;> exact ⟨_, rfl⟩
  obtain ⟨tsFlush, hclock⟩ := hclock
  unfold update
  dsimp only
  rw [hclock]
  split
  · exact ⟨_, Or.inl rfl⟩
  · exact ⟨tsFlush, Or.inr rfl⟩

variable {kcp : Ikcpcb}

/-- A flush leaves room for at least one segment in the congestion window. -/
theorem cwnd_flush (hupdated : kcp.updated = true) : (flush kcp).1.cwnd ≠ 0 := by
  have hlast : ∀ k : Ikcpcb,
      (if k.cwnd < 1 then { k with cwnd := 1, incr := UInt32.ofNat k.mss } else k).cwnd ≠ 0 := by
    intro k
    split
    · exact show (1 : UInt32) ≠ 0 by decide
    · rename_i hpos
      intro hzero
      rw [hzero] at hpos
      exact hpos (by decide)
  rw [flush, hupdated, if_neg (by decide)]
  exact hlast _

/-- What a flush leaves as the window probe left it. -/
structure SameFlow (kcp k : Ikcpcb) : Prop where
  una : k.sndUna = kcp.sndUna
  rmtWnd : k.rmtWnd = kcp.rmtWnd
  probeWait : k.probeWait = kcp.probeWait
  tsProbe : k.tsProbe = kcp.tsProbe

namespace SameFlow

variable {k l : Ikcpcb}

theorem trans (h : SameFlow kcp k) (h' : SameFlow k l) : SameFlow kcp l where
  una := h'.una.trans h.una
  rmtWnd := h'.rmtWnd.trans h.rmtWnd
  probeWait := h'.probeWait.trans h.probeWait
  tsProbe := h'.tsProbe.trans h.tsProbe

theorem updateSsthresh (cwnd : UInt32) (s : Sending) (k : Ikcpcb) : SameFlow k (updateSsthresh cwnd s k) := by
  have hfast : SameFlow k (if s.change ≠ 0 then afterFastResend k else k) := by
    split <;> exact ⟨rfl, rfl, rfl, rfl⟩
  have hloss : ∀ k, SameFlow k (if s.lost then afterLoss cwnd k else k) := by
    intro k
    split <;> exact ⟨rfl, rfl, rfl, rfl⟩
  have hlast : ∀ k : Ikcpcb,
      SameFlow k (if k.cwnd < 1 then { k with cwnd := 1, incr := UInt32.ofNat k.mss } else k) := by
    intro k
    split <;> exact ⟨rfl, rfl, rfl, rfl⟩
  exact (hfast.trans (hloss _)).trans (hlast _)

theorem flush (hupdated : kcp.updated = true) : SameFlow (probeWindow kcp) (flush kcp).1 := by
  have hqueue : SameFlow (probeWindow kcp) (flushQueue kcp) := by
    apply moveToSndBuf_induction (P := SameFlow (probeWindow kcp))
    · intro k newseg rest h _ _
      exact ⟨h.una, h.rmtWnd, h.probeWait, h.tsProbe⟩
    · exact ⟨rfl, rfl, rfl, rfl⟩
  have hsent : SameFlow (flushQueue kcp) { flushQueue kcp with
      sndBuf := (flushData kcp).1, xmit := (flushData kcp).2.xmit, state := (flushData kcp).2.state } :=
    ⟨rfl, rfl, rfl, rfl⟩
  rw [Kcp.flush, hupdated, if_neg (by decide)]
  exact (hqueue.trans hsent).trans
    (updateSsthresh (flushWindow (clearProbe (probeWindow kcp))) (flushData kcp).2 _)

end SameFlow

theorem written_of_ack {ack : UInt32 × UInt32} (hack : ack ∈ kcp.acklist) :
    ackSeg kcp ack.1 ack.2 ∈ written kcp := by
  rw [written, List.append_assoc, List.append_assoc]
  exact List.mem_append_left _ (List.mem_map_of_mem hack)

/-- The segments of `snd_buf` stay in front of those that a flush numbers. -/
theorem flushQueue_keeps (kcp : Ikcpcb) :
    kcp.sndBuf <+: (flushQueue kcp).sndBuf ∧ (flushQueue kcp).current = kcp.current := by
  have hclear : (clearProbe (probeWindow kcp)).sndBuf = kcp.sndBuf :=
    congrArg (fun v => v.sender.buf) (view_probeWindow kcp)
  have hcurrent : (clearProbe (probeWindow kcp)).current = kcp.current := by
    show (probeWindow kcp).current = _
    unfold probeWindow
    split
    · split
      · rfl
      · split <;> rfl
    · rfl
  apply moveToSndBuf_induction (P := fun k => kcp.sndBuf <+: k.sndBuf ∧ k.current = kcp.current)
  · rintro k newseg rest ⟨hfront, hk⟩ _ _
    exact ⟨hfront.trans (List.prefix_append _ _), hk⟩
  · exact ⟨hclear ▸ List.prefix_refl _, hcurrent⟩

/-- The loop over `snd_buf` keeps the keys of the segments. -/
theorem keys_flush (hupdated : kcp.updated = true) :
    (flush kcp).1.sndBuf.map Seg.key = (flushQueue kcp).sndBuf.map Seg.key := by
  have hbuf : (flush kcp).1.sndBuf = (flushData kcp).1 :=
    congrArg (fun v => v.sender.buf) (view_flush_of_updated hupdated)
  rw [hbuf]
  exact keys_flushSegments _ _ _ _

/-- A segment of `snd_buf` stays there with its number. -/
theorem sn_flush (hupdated : kcp.updated = true) {seg : Seg} (hseg : seg ∈ kcp.sndBuf) :
    ∃ kept ∈ (flush kcp).1.sndBuf, kept.sn = seg.sn := by
  have hmem : seg.key ∈ (flush kcp).1.sndBuf.map Seg.key := by
    rw [keys_flush hupdated]
    exact List.mem_map_of_mem ((flushQueue_keeps kcp).1.subset hseg)
  obtain ⟨kept, hkept, hkey⟩ := List.mem_map.1 hmem
  exact ⟨kept, hkept, congrArg Prod.fst hkey⟩

/-- A segment that was never sent, or whose time has come, goes out with the next flush. -/
theorem written_of_due {seg : Seg} (hseg : seg ∈ kcp.sndBuf)
    (hdue : seg.xmit = 0 ∨ itimediff kcp.current seg.resendts ≥ 0) :
    ∃ sent ∈ written kcp, sent.key = seg.key := by
  obtain ⟨hfront, hcurrent⟩ := flushQueue_keeps kcp
  have hneeds : ∃ reason, needsend (flushQueue kcp) seg = some reason := by
    unfold needsend
    rw [hcurrent]
    by_cases hfirst : seg.xmit = 0
    · exact ⟨.first, if_pos hfirst⟩
    · exact ⟨.timeout, by rw [if_neg hfirst, if_pos (hdue.resolve_left hfirst)]⟩
  obtain ⟨reason, hreason⟩ := hneeds
  refine ⟨_, List.mem_append_right _ (List.mem_filterMap.2 ⟨seg, hfront.subset hseg, ?_⟩),
    Ikcpcb.Writes.key_stamp (flushQueue kcp) (wndUnused kcp) seg reason⟩
  rw [hreason]
  rfl

/-- A bit of `probe` stays set when others are set. -/
theorem bit_or_left {probe ask other : UInt32} (h : probe &&& ask ≠ 0) : (probe ||| other) &&& ask ≠ 0 := by
  have hsplit : (probe ||| other) &&& ask = (probe &&& ask) ||| (other &&& ask) :=
    UInt32.toBitVec_inj.1 BitVec.and_or_distrib_right
  intro hzero
  rw [hsplit, UInt32.or_eq_zero_iff] at hzero
  exact h hzero.1

theorem bit_or_right {probe ask : UInt32} (h : ask ≠ 0) : (probe ||| ask) &&& ask ≠ 0 := by
  rw [UInt32.or_comm]
  apply bit_or_left
  rwa [UInt32.and_self]

/-- A closed window is asked for when the time of the probe has come. -/
theorem written_of_probe (hclosed : kcp.rmtWnd = 0) (hwait : kcp.probeWait ≠ 0)
    (htime : itimediff kcp.current kcp.tsProbe ≥ 0) : ∃ sent ∈ written kcp, sent.cmd = cmdWask := by
  have hprobe : (probeWindow kcp).probe = kcp.probe ||| askSend := by
    unfold probeWindow
    rw [if_pos hclosed, if_neg hwait, if_pos htime]
  have hbit : (probeWindow kcp).probe &&& askSend ≠ 0 := by
    rw [hprobe]
    exact bit_or_right (by decide)
  refine ⟨{ ackSeg (probeWindow kcp) (lastAck kcp).1 (lastAck kcp).2 with cmd := cmdWask }, ?_, rfl⟩
  apply List.mem_append_left
  apply List.mem_append_left
  apply List.mem_append_right
  rw [probeSegs, if_pos hbit]
  exact List.mem_singleton.2 rfl

/-- The window is told when it was asked for. -/
theorem written_of_tell (htell : kcp.probe &&& askTell ≠ 0) : written kcp ≠ [] := by
  have hbit : (probeWindow kcp).probe &&& askTell ≠ 0 := by
    unfold probeWindow
    split
    · split
      · exact htell
      · split
        · exact bit_or_left htell
        · exact htell
    · exact htell
  have hmem : { ackSeg (probeWindow kcp) (lastAck kcp).1 (lastAck kcp).2 with cmd := cmdWins } ∈ written kcp := by
    apply List.mem_append_left
    apply List.mem_append_right
    rw [probeSegs, if_pos hbit]
    exact List.mem_singleton.2 rfl
  exact List.ne_nil_of_mem hmem

/-- All segments of a flush tell the same window. -/
theorem wnd_of_written : ∀ seg ∈ written kcp, seg.wnd = wndUnused kcp := by
  apply written_induction
  · intro ack _
    rfl
  · intro cmd _
    rfl
  · intro seg _ reason _
    rfl

/-- While a closed window waits for its probe, `probe_wait` is set. -/
theorem probeWait_flush (htimers : kcp.timers.Bounded) (hupdated : kcp.updated = true) (hclosed : kcp.rmtWnd = 0) :
    (flush kcp).1.probeWait ≠ 0 := by
  rw [(SameFlow.flush hupdated).probeWait]
  unfold probeWindow
  rw [if_pos hclosed]
  by_cases hwait : kcp.probeWait = 0
  · rw [if_pos hwait]
    exact show probeInit ≠ 0 by decide
  · rw [if_neg hwait]
    split
    · have hle : kcp.probeWait.toNat ≤ probeLimit.toNat := (htimers.probeWait.resolve_left hwait).2
      have hlow := (Timers.Bounded.backoff hle).1
      show backoff kcp.probeWait ≠ 0
      intro hzero
      rw [hzero] at hlow
      exact absurd hlow (by decide)
    · exact hwait

theorem rmtWnd_flush (hupdated : kcp.updated = true) : (flush kcp).1.rmtWnd = kcp.rmtWnd :=
  (SameFlow.flush hupdated).rmtWnd.trans (congrArg (fun v => v.sender.rmtWnd) (view_probeWindow kcp))

/-! ## How a flush moves the queue -/

/-- The number of segments that wait for an acknowledgement. -/
def Ikcpcb.load (kcp : Ikcpcb) : Nat := kcp.sndQueue.length + kcp.sndBuf.length

theorem load_flush (kcp : Ikcpcb) : (flush kcp).1.load = kcp.load := by
  cases hupdated : kcp.updated with
  | false => rw [flush_of_not_updated hupdated]
  | true =>
      have hview := view_flush_of_updated hupdated
      have hqueue : (flush kcp).1.sndQueue = (flushQueue kcp).sndQueue := congrArg (fun v => v.sender.queue) hview
      have hlength : (flush kcp).1.sndBuf.length = (flushQueue kcp).sndBuf.length := by
        have hkeys := congrArg List.length (keys_flush hupdated)
        rwa [List.length_map, List.length_map] at hkeys
      have hsender : (clearProbe (probeWindow kcp)).sender = kcp.sender :=
        congrArg View.sender (view_probeWindow kcp)
      have hmoved : (flushQueue kcp).load = kcp.load := by
        apply moveToSndBuf_induction (P := fun k => k.load = kcp.load)
        · intro k newseg rest hk hq _
          rw [← hk, Ikcpcb.load, Ikcpcb.load, hq]
          show rest.length + (k.sndBuf ++ [numberSeg k _ newseg]).length = (newseg :: rest).length + k.sndBuf.length
          rw [List.length_append, List.length_singleton, List.length_cons]
          omega
        · exact congrArg (fun s : Sender => s.queue.length + s.buf.length) hsender
      rw [Ikcpcb.load, hqueue, hlength]
      exact hmoved

theorem toNat_pos_of_ne_zero {w : UInt32} (h : w ≠ 0) : 0 < w.toNat :=
  Nat.pos_of_ne_zero fun hzero => h (UInt32.toNat_inj.1 hzero)

/-- The window for new segments is open when the three windows are that it is made of. -/
theorem flushWindow_pos (hordered : kcp.Ordered) (hopen : kcp.rmtWnd ≠ 0) (hcwnd : kcp.cwnd ≠ 0) :
    0 < (flushWindow (clearProbe (probeWindow kcp))).toNat := by
  have hsender : (clearProbe (probeWindow kcp)).sender = kcp.sender :=
    congrArg View.sender (view_probeWindow kcp)
  have hsnd : (clearProbe (probeWindow kcp)).sndWnd = kcp.sndWnd := congrArg Sender.wnd hsender
  have hrmt : (clearProbe (probeWindow kcp)).rmtWnd = kcp.rmtWnd := congrArg Sender.rmtWnd hsender
  have hsame : (clearProbe (probeWindow kcp)).cwnd = kcp.cwnd := by
    show (probeWindow kcp).cwnd = _
    unfold probeWindow
    rw [if_neg hopen]
  have hboth : 0 < (imin kcp.sndWnd kcp.rmtWnd).toNat := by
    rw [imin_toNat]
    exact Nat.lt_min.2 ⟨hordered.sender.wnd, toNat_pos_of_ne_zero hopen⟩
  rw [flushWindow, hsnd, hrmt, hsame]
  split
  · rw [imin_toNat]
    exact Nat.lt_min.2 ⟨toNat_pos_of_ne_zero hcwnd, hboth⟩
  · exact hboth

/-- With nothing in flight the first number that is not acknowledged is the next one. -/
theorem una_eq_nxt (hordered : kcp.Ordered) (hnil : kcp.sndBuf = []) : kcp.sndUna = kcp.sndNxt := by
  have huna : kcp.sndUna = kcp.sender.first := hordered.settled
  have hlist : kcp.sender.buf = [] := hnil
  rw [huna, Sender.first, hlist]
  rfl

/-- The first segment of the queue gets a number when the window is open. -/
theorem sndBuf_moveToSndBuf_ne_nil {cwnd wnd : UInt32} (hqueue : kcp.sndQueue ≠ [])
    (hwindow : itimediff kcp.sndNxt (kcp.sndUna + cwnd) < 0) :
    (moveToSndBuf cwnd wnd kcp.sndQueue kcp).sndBuf ≠ [] := by
  cases hq : kcp.sndQueue with
  | nil => exact absurd hq hqueue
  | cons newseg rest =>
      have hmore : ∀ k : Ikcpcb, k.sndBuf ≠ [] → (moveToSndBuf cwnd wnd k.sndQueue k).sndBuf ≠ [] := by
        intro k hk
        apply moveToSndBuf_induction (P := fun k => k.sndBuf ≠ [])
        · intro l _ _ _ _ _
          exact List.append_ne_nil_of_right_ne_nil l.sndBuf (List.cons_ne_nil _ _)
        · exact hk
      rw [moveToSndBuf, if_pos hwindow]
      apply hmore (sendNext wnd kcp newseg rest)
      exact List.append_ne_nil_of_right_ne_nil kcp.sndBuf (List.cons_ne_nil _ _)

/-- With an open window something is in flight after a flush, if there is anything to send. -/
theorem sndBuf_flush_ne_nil (hordered : kcp.Ordered) (hupdated : kcp.updated = true) (hopen : kcp.rmtWnd ≠ 0)
    (hcwnd : kcp.cwnd ≠ 0) (hload : kcp.load ≠ 0) : (flush kcp).1.sndBuf ≠ [] := by
  have hprobed : (probeWindow kcp).Ordered := hordered.of_view (view_probeWindow kcp)
  have hclear : (clearProbe (probeWindow kcp)).Ordered := ⟨hprobed.sender, hprobed.settled, hprobed.receiver⟩
  have hsender : (clearProbe (probeWindow kcp)).sender = kcp.sender :=
    congrArg View.sender (view_probeWindow kcp)
  have hqueue : (flushQueue kcp).sndBuf ≠ [] := by
    by_cases hnil : kcp.sndBuf = []
    · have hstart : (clearProbe (probeWindow kcp)).sndBuf = [] := (congrArg Sender.buf hsender).trans hnil
      have hlist : (clearProbe (probeWindow kcp)).sndQueue = kcp.sndQueue := congrArg Sender.queue hsender
      have hne : kcp.sndQueue ≠ [] := by
        intro hempty
        rw [Ikcpcb.load, hempty, hnil] at hload
        exact hload rfl
      apply sndBuf_moveToSndBuf_ne_nil (hlist ▸ hne)
      have hpos := flushWindow_pos hordered hopen hcwnd
      have hlt := hclear.flushWindow_lt
      rw [← una_eq_nxt hclear hstart]
      exact serialDiff_self_add hpos (by omega)
    · intro hempty
      have hfront := (flushQueue_keeps kcp).1
      rw [hempty] at hfront
      exact hnil (List.prefix_nil.1 hfront)
  have hkeys := keys_flush hupdated
  intro hempty
  rw [hempty, List.map_nil] at hkeys
  exact hqueue (List.map_eq_nil_iff.1 hkeys.symm)

/-! ## What an arrival does -/

/-- What any segment of a datagram leaves behind: pending acknowledgements and answers to probes stay, and the
window of the other side is the last one told. -/
structure Notes (kcp k : Ikcpcb) : Prop where
  acks : kcp.acklist ⊆ k.acklist
  tell : kcp.probe &&& askTell ≠ 0 → k.probe &&& askTell ≠ 0

theorem Notes.refl (kcp : Ikcpcb) : Notes kcp kcp :=
  ⟨fun _ h => h, fun h => h⟩

theorem Notes.trans {k l : Ikcpcb} (h : Notes kcp k) (h' : Notes k l) : Notes kcp l :=
  ⟨fun _ hmem => h'.acks (h.acks hmem), fun htell => h'.tell (h.tell htell)⟩

theorem Notes.of_eq {k : Ikcpcb} (hacks : k.acklist = kcp.acklist) (hprobe : k.probe = kcp.probe) : Notes kcp k :=
  ⟨fun _ h => hacks ▸ h, fun h => hprobe ▸ h⟩

theorem probe_parseData (k : Ikcpcb) (newseg : Seg) : (parseData k newseg).probe = k.probe := by
  have hmove : ∀ l : Ikcpcb, (moveAvailable l.rcvBuf l).probe = l.probe := by
    intro l
    apply moveAvailable_induction (P := fun m => m.probe = l.probe)
    · intro m seg rest h _ _ _
      exact h
    · rfl
  unfold parseData
  split
  · rfl
  · dsimp only
    rw [hmove]
    unfold insertSeg
    split <;> rfl

theorem notes_inputAck (k : Ikcpcb) (h : Header) : Notes k (inputAck k h) := by
  refine Notes.of_eq (congrArg View.acks (view_inputAck k h)) ?_
  have hparse : ∀ l : Ikcpcb, (shrinkBuf (parseAck l h.sn)).probe = l.probe := by
    intro l
    unfold parseAck
    split <;> rfl
  unfold inputAck
  dsimp only
  rw [hparse]
  split
  · unfold updateAck
    split <;> rfl
  · rfl

theorem notes_inputPush (k : Ikcpcb) (h : Header) (data : Bytes) : Notes k (inputPush k h data) := by
  have hpush : Notes k (ackPush k h.sn h.ts) := ⟨List.subset_append_left _ _, fun htell => htell⟩
  unfold inputPush
  split
  · dsimp only
    split
    · refine hpush.trans (Notes.of_eq ?_ (probe_parseData _ _))
      exact congrArg View.acks (view_parseData (ackPush k h.sn h.ts) (pushSeg h data))
    · exact hpush
  · exact Notes.refl k

theorem notes_inputWire (k : Ikcpcb) (seg : Seg) : Notes k (inputWire k seg) := by
  have huna : Notes k (inputUna k seg.header) := Notes.of_eq rfl rfl
  refine huna.trans ?_
  unfold inputWire inputSeg
  dsimp only
  split
  · exact notes_inputAck _ _
  · split
    · exact notes_inputPush _ _ _
    · split
      · exact ⟨fun _ h => h, fun htell => bit_or_left htell⟩
      · exact Notes.refl _

theorem notes_inputTail (prevUna : UInt32) (k : Ikcpcb) (maxack : Maxack) :
    Notes k (inputTail prevUna k maxack) := by
  have hgrow : ∀ l : Ikcpcb, Notes l (if itimediff l.sndUna prevUna > 0 then growCwnd l else l) := by
    intro l
    split
    · refine Notes.of_eq (congrArg View.acks (view_growCwnd l)) ?_
      unfold growCwnd
      split
      · unfold capCwnd
        split <;> (unfold openCwnd; split <;> rfl)
      · rfl
    · exact Notes.refl l
  cases maxack with
  | none => exact hgrow k
  | some sn =>
      refine Notes.trans ?_ (hgrow (parseFastack k sn))
      unfold parseFastack
      split <;> exact Notes.of_eq rfl rfl

/-- An arriving segment is noted in `acklist`, also when it came before, as long as it lies less than half of the
range before the end of the window. -/
theorem ack_noted {seg : Seg} (hfits : seg.Fits) (hpush : seg.cmd = cmdPush)
    (hwindow : itimediff seg.sn (kcp.rcvNxt + kcp.rcvWnd) < 0) :
    ∃ ts, (seg.sn, ts) ∈ (inputWire kcp seg).acklist := by
  refine ⟨seg.ts, ?_⟩
  have hack : ¬ cmdPush = cmdAck := by decide
  have hpast : itimediff seg.header.sn ((inputUna kcp seg.header).rcvNxt + (inputUna kcp seg.header).rcvWnd) < 0 :=
    hwindow
  unfold inputWire inputSeg
  dsimp only
  rw [hfits.cmd_header, hpush, if_neg hack, if_pos rfl]
  unfold inputPush
  rw [if_pos hpast]
  dsimp only
  have hmem : (seg.sn, seg.ts) ∈ (ackPush (inputUna kcp seg.header) seg.header.sn seg.header.ts).acklist :=
    List.mem_append_right _ (List.mem_singleton.2 rfl)
  split
  · have hsame : (parseData (ackPush (inputUna kcp seg.header) seg.header.sn seg.header.ts)
        (pushSeg seg.header seg.data)).acklist = _ := congrArg View.acks (view_parseData _ _)
    rw [hsame]
    exact hmem
  · exact hmem

/-- A question about the window is noted in `probe`. -/
theorem tell_noted {seg : Seg} (hfits : seg.Fits) (hask : seg.cmd = cmdWask) :
    (inputWire kcp seg).probe &&& askTell ≠ 0 := by
  have hack : ¬ cmdWask = cmdAck := by decide
  have hpush : ¬ cmdWask = cmdPush := by decide
  unfold inputWire inputSeg
  dsimp only
  rw [hfits.cmd_header, hask, if_neg hack, if_neg hpush, if_pos rfl]
  exact bit_or_right (by decide)

/-- Every segment tells the window of its sender. -/
theorem rmtWnd_inputWire (seg : Seg) : (inputWire kcp seg).rmtWnd = seg.header.wnd.toUInt32 := by
  have hack : ∀ k : Ikcpcb, (inputAck k seg.header).rmtWnd = k.rmtWnd := by
    intro k
    obtain ⟨l, hview, heq⟩ := inputAck_eq k seg.header
    have hsame : l.rmtWnd = k.rmtWnd := congrArg (fun v => v.sender.rmtWnd) hview
    rw [heq, ← hsame]
    unfold parseAck
    split <;> rfl
  have hpush : ∀ k : Ikcpcb, (inputPush k seg.header seg.data).rmtWnd = k.rmtWnd :=
    fun k => congrArg (fun v => v.sender.rmtWnd) (view_inputPush k seg.header seg.data)
  unfold inputWire inputSeg
  dsimp only
  split
  · rw [hack]
    rfl
  · split
    · rw [hpush]
      rfl
    · split <;> rfl

theorem rmtWnd_inputTail (prevUna : UInt32) (k : Ikcpcb) (maxack : Maxack) :
    (inputTail prevUna k maxack).rmtWnd = k.rmtWnd := by
  have hgrow : ∀ l : Ikcpcb, (if itimediff l.sndUna prevUna > 0 then growCwnd l else l).rmtWnd = l.rmtWnd := by
    intro l
    split
    · exact congrArg (fun v => v.sender.rmtWnd) (view_growCwnd l)
    · rfl
  cases maxack with
  | none => exact hgrow k
  | some sn =>
      refine (hgrow (parseFastack k sn)).trans ?_
      unfold parseFastack
      split <;> rfl

/-- After a datagram whose segments all tell an open window, the window is open. -/
theorem rmtWnd_foldl {segs : List Seg} (hne : segs ≠ []) (hopen : ∀ seg ∈ segs, seg.header.wnd.toUInt32 ≠ 0) :
    (segs.foldl inputWire kcp).rmtWnd ≠ 0 := by
  obtain ⟨front, last, rfl⟩ := (List.eq_nil_or_concat segs).resolve_left hne
  rw [List.concat_eq_append] at hopen ⊢
  rw [List.foldl_append, List.foldl_cons, List.foldl_nil, rmtWnd_inputWire]
  exact hopen last (List.mem_append_right _ (List.mem_singleton.2 rfl))

/-- An acknowledgement takes its segment out of the list. -/
theorem removeAck_removed {sn una : UInt32} {buf : List Seg} (nsndBuf : UInt32)
    (hsorted : buf.Pairwise fun a b => ahead a.sn una < ahead b.sn una)
    (hnear : ahead sn una < 2 ^ 31) (hbuf : ∀ seg ∈ buf, ahead seg.sn una < 2 ^ 31) :
    ∀ seg ∈ (removeAck sn buf nsndBuf).1, seg.sn ≠ sn := by
  induction buf with
  | nil => exact fun seg hseg => absurd hseg List.not_mem_nil
  | cons first rest ih =>
      rw [List.pairwise_cons] at hsorted
      rw [List.forall_mem_cons] at hbuf
      unfold removeAck
      by_cases hfound : sn = first.sn
      · rw [if_pos hfound]
        intro seg hseg hsame
        have hlater := hsorted.1 seg hseg
        rw [hsame, hfound] at hlater
        exact absurd hlater (Nat.lt_irrefl _)
      · rw [if_neg hfound]
        by_cases hpassed : itimediff sn first.sn < 0
        · -- the number is smaller than all that follow
          rw [if_pos hpassed]
          rw [itimediff, serialDiff_of_base hnear hbuf.1] at hpassed
          intro seg hseg hsame
          rcases List.mem_cons.1 hseg with rfl | hrest
          · exact hfound hsame.symm
          · have hlater := hsorted.1 seg hrest
            rw [hsame] at hlater
            omega
        · rw [if_neg hpassed]
          intro seg hseg
          rcases List.mem_cons.1 hseg with rfl | hrest
          · exact fun hsame => hfound hsame.symm
          · exact ih hsorted.2 hbuf.2 seg hrest

/-- After an acknowledgement its segment is no longer in `snd_buf`. -/
theorem ack_removes {seg : Seg} (hordered : kcp.Ordered) (hfits : seg.Fits) (hack : seg.cmd = cmdAck) :
    ∀ other ∈ (inputWire kcp seg).sndBuf, other.sn ≠ seg.sn := by
  have huna := hordered.inputUna seg.header
  unfold inputWire inputSeg
  dsimp only
  rw [hfits.cmd_header, hack, if_pos rfl]
  obtain ⟨k, hview, heq⟩ := inputAck_eq (inputUna kcp seg.header) seg.header
  have hk : k.Ordered := huna.of_view hview
  rw [heq]
  have hin := hk.sender.inflight
  show ∀ other ∈ (parseAck k seg.sn).sndBuf, other.sn ≠ seg.sn
  unfold parseAck
  by_cases hout : outside k seg.sn
  · rw [if_pos hout]
    intro other hother hsame
    have hnumber : ahead other.sn k.sndUna < ahead k.sndNxt k.sndUna := hk.sender.numbers other hother
    have hin' : ahead k.sndNxt k.sndUna < 2 ^ 16 := hin
    rw [hsame] at hnumber
    rcases hout with hpast | hfuture
    · have hahead : 0 ≤ serialDiff seg.sn k.sndUna := serialDiff_nonneg_iff.2 (by omega)
      exact absurd hahead (not_le.2 hpast)
    · have hnear : ahead seg.sn k.sndUna < 2 ^ 31 := by omega
      have hnxt : ahead k.sndNxt k.sndUna < 2 ^ 31 := by omega
      rw [itimediff, serialDiff_of_base hnear hnxt] at hfuture
      omega
  · rw [if_neg hout]
    have hnear : ahead seg.sn k.sndUna < 2 ^ 31 :=
      serialDiff_nonneg_iff.1 (not_lt.1 fun hneg => hout (Or.inl hneg))
    refine removeAck_removed k.nsndBuf hk.sender.sorted hnear fun other hother => ?_
    have hnumber := hk.sender.numbers other hother
    omega

/-! ## What a datagram does -/

theorem shrinks_foldl (segs : List Seg) (k : Ikcpcb) : Shrinks k (segs.foldl inputWire k) := by
  induction segs generalizing k with
  | nil => exact Shrinks.refl k
  | cons seg segs ih => exact (Shrinks.inputSeg k seg.header seg.data).trans (ih _)

/-- A property that one segment of a datagram brings about, and that the others and the end of `ikcp_input` keep,
holds after the datagram. -/
theorem input_of_mem {P : Ikcpcb → Prop} {segs : List Seg} {seg : Seg} (hmem : seg ∈ segs)
    (hfits : ∀ other ∈ segs, other.Fits ∧ other.conv = kcp.conv)
    (hseg : ∀ front, front ⊆ segs → P (inputWire (front.foldl inputWire kcp) seg))
    (hwire : ∀ k other, P k → P (inputWire k other))
    (htail : ∀ prevUna k maxack, P k → P (inputTail prevUna k maxack)) : P (input kcp (packed segs)).1 := by
  obtain ⟨front, back, rfl⟩ := List.append_of_mem hmem
  have hlater : ∀ (others : List Seg) (k : Ikcpcb), P k → P (others.foldl inputWire k) := by
    intro others
    induction others with
    | nil => exact fun _ hk => hk
    | cons other others ih => exact fun k hk => ih _ (hwire k other hk)
  rw [input_packed (List.ne_nil_of_mem hmem) hfits]
  apply htail
  rw [List.foldl_append, List.foldl_cons]
  apply hlater
  exact hseg front (List.subset_append_left _ _)

/-- A segment of a datagram is noted in `acklist` when what is in turn lies behind it by less than half of the
range. -/
theorem ack_noted_of_packed {c : UInt32} {h hin : List Frag} {p : Nat} {got : Nat → Prop} {segs : List Seg} {seg : Seg}
    (hf : kcp.Follows c h hin p) (hshort : h.length < 2 ^ 31) (hshort' : hin.length < 2 ^ 31)
    (hgood : ∀ other ∈ segs, Good c hin got other) (hmem : seg ∈ segs) (hpush : seg.cmd = cmdPush)
    (hnext : seg.sn.toNat ≤ kcp.rcvNxt.toNat) (hfew : hin.length < seg.sn.toNat + 2 ^ 16)
    (hwnd : kcp.rcvWnd.toNat < 2 ^ 16) : ∃ ts, (seg.sn, ts) ∈ (input kcp (packed segs)).1.acklist := by
  apply input_of_mem (P := fun k => ∃ ts, (seg.sn, ts) ∈ k.acklist) hmem
  · exact fun other hother => ⟨(hgood other hother).fits, (hgood other hother).conv.trans hf.conv.symm⟩
  · intro front hfront
    obtain ⟨hfollows, hadvance⟩ := hf.foldl_inputWire got hshort hshort' fun other hother => hgood other (hfront hother)
    have hsame := (shrinks_foldl front kcp).wnd
    generalize front.foldl inputWire kcp = k at hfollows hadvance hsame
    have hnxt : k.rcvNxt.toNat ≤ hin.length := hfollows.received.nxt
    have hmore := hadvance.next
    have hpos : wndRcv.toNat ≤ k.rcvWnd.toNat := hfollows.ordered.receiver.wnd_ge
    have hleast : wndRcv.toNat = 128 := rfl
    rw [← hsame] at hwnd
    apply ack_noted (hgood seg hmem).fits hpush
    have hend : (k.rcvNxt + k.rcvWnd).toNat = k.rcvNxt.toNat + k.rcvWnd.toNat := toNat_add_of_lt (by omega)
    rw [itimediff, serialDiff_eq_sub (by omega) (by omega)]
    omega
  · rintro k other ⟨ts, hts⟩
    exact ⟨ts, (notes_inputWire k other).acks hts⟩
  · rintro prevUna k maxack ⟨ts, hts⟩
    exact ⟨ts, (notes_inputTail prevUna k maxack).acks hts⟩

theorem tell_noted_of_packed {segs : List Seg} {seg : Seg} (hmem : seg ∈ segs) (hask : seg.cmd = cmdWask)
    (hfits : ∀ other ∈ segs, other.Fits ∧ other.conv = kcp.conv) :
    (input kcp (packed segs)).1.probe &&& askTell ≠ 0 := by
  apply input_of_mem (P := fun k => k.probe &&& askTell ≠ 0) hmem hfits
  · exact fun front _ => tell_noted (hfits seg hmem).1 hask
  · exact fun k other hk => (notes_inputWire k other).tell hk
  · exact fun prevUna k maxack hk => (notes_inputTail prevUna k maxack).tell hk

/-- An arriving acknowledgement makes `snd_buf` shorter, if its segment is there. -/
theorem load_lt_of_packed {c : UInt32} {h hin : List Frag} {p : Nat} {got : Nat → Prop} {segs : List Seg}
    {seg acked : Seg} (hf : kcp.Follows c h hin p) (hshort : h.length < 2 ^ 31) (hshort' : hin.length < 2 ^ 31)
    (hgood : ∀ other ∈ segs, Good c hin got other) (hmem : seg ∈ segs) (hack : seg.cmd = cmdAck)
    (hacked : acked ∈ kcp.sndBuf) (hsn : acked.sn = seg.sn) : (input kcp (packed segs)).1.load < kcp.load := by
  have hshrinks := Shrinks.input kcp (packed segs)
  have hgone : ∀ other ∈ (input kcp (packed segs)).1.sndBuf, other.sn ≠ seg.sn := by
    have hsub : ∀ k l : Ikcpcb, Shrinks k l → (∀ other ∈ k.sndBuf, other.sn ≠ seg.sn) →
        ∀ other ∈ l.sndBuf, other.sn ≠ seg.sn := by
      intro k l hkl hk other hother
      obtain ⟨old, hold, hbody⟩ := List.mem_map.1 (hkl.bodies.subset (List.mem_map_of_mem hother))
      have hsame : old.body.sn = other.body.sn := congrArg Seg.sn hbody
      show other.body.sn ≠ seg.sn
      rw [← hsame]
      exact hk old hold
    apply input_of_mem (P := fun k => ∀ other ∈ k.sndBuf, other.sn ≠ seg.sn) hmem
    · exact fun other hother => ⟨(hgood other hother).fits, (hgood other hother).conv.trans hf.conv.symm⟩
    · intro front hfront
      have hfollows := (hf.foldl_inputWire got hshort hshort' fun other hother => hgood other (hfront hother)).1
      exact ack_removes hfollows.ordered (hgood seg hmem).fits hack
    · exact fun k other hk => hsub k _ (Shrinks.inputSeg k other.header other.data) hk
    · exact fun prevUna k maxack hk => hsub k _ (Shrinks.inputTail prevUna k maxack) hk
  -- as long a list would have to be the same one
  have hlength : (input kcp (packed segs)).1.sndBuf.length < kcp.sndBuf.length := by
    have hle := hshrinks.bodies.length_le
    rw [List.length_map, List.length_map] at hle
    refine lt_of_le_of_ne hle fun hsame => ?_
    have hbodies := hshrinks.bodies.eq_of_length (by rw [List.length_map, List.length_map, hsame])
    have hbody : acked.body ∈ (input kcp (packed segs)).1.sndBuf.map Seg.body := by
      rw [hbodies]
      exact List.mem_map_of_mem hacked
    obtain ⟨other, hother, heq⟩ := List.mem_map.1 hbody
    have hnumber : other.body.sn = acked.body.sn := congrArg Seg.sn heq
    exact hgone other hother (hnumber.trans hsn)
  rw [Ikcpcb.load, Ikcpcb.load, hshrinks.queue]
  exact Nat.add_lt_add_left hlength _

/-- A datagram whose segments all tell an open window opens it. -/
theorem rmtWnd_of_packed {segs : List Seg} (hne : segs ≠ [])
    (hfits : ∀ other ∈ segs, other.Fits ∧ other.conv = kcp.conv)
    (hopen : ∀ seg ∈ segs, seg.header.wnd.toUInt32 ≠ 0) : (input kcp (packed segs)).1.rmtWnd ≠ 0 := by
  rw [input_packed hne hfits]
  show (inputTail kcp.sndUna (segs.foldl inputWire kcp) (segs.foldl ackWire none)).rmtWnd ≠ 0
  rw [rmtWnd_inputTail]
  exact rmtWnd_foldl hne hopen

end CppMisc.Kcp
