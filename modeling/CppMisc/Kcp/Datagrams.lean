import CppMisc.Kcp.Windows

/-!
# Datagrams

What `ikcp_flush` gives to `output` are whole segments one behind another, and `ikcp_input` takes them apart
again: `written` are the segments of a flush, and `flush_groups` says how its datagrams hold them. `Packed P d`
says that `d` is made of segments with the property `P`, and `input_packed` reads such a datagram back, segment
by segment.

Datagrams of other conversations change nothing (`input_stray`).
-/

set_option autoImplicit false

namespace CppMisc.Kcp

open CppMisc.Library

/-- A segment with its data. -/
def wire (seg : Seg) : Bytes := encodeSeg seg ++ seg.data

/-- Segments one behind another. -/
def packed (segs : List Seg) : Bytes := segs.flatMap wire

/-- A datagram of segments with the property `P`. -/
def Packed (P : Seg → Prop) (d : Bytes) : Prop := ∃ segs, segs ≠ [] ∧ packed segs = d ∧ ∀ seg ∈ segs, P seg

/-- Datagrams with the segments `segs` in order: each has room for its segments below `mtu`, or it is one
segment alone. -/
def Groups (mtu : Nat) (segs : List Seg) (ds : List Bytes) : Prop :=
  ∃ groups : List (List Seg), ds = groups.map packed ∧ groups.flatten = segs ∧
    ∀ g ∈ groups, g ≠ [] ∧ ((packed g).length ≤ mtu ∨ ∃ seg, g = [seg])

/-- What was put so far are the segments `segs`: those of the datagrams that went out, and those in the
buffer. None went out as long as there was room for all of them. -/
def Packer.Wrote (mtu : Nat) (segs : List Seg) (b : Packer) : Prop :=
  ∃ done last, done ++ last = segs ∧ Groups mtu done b.out ∧ packed last = b.buffer ∧
    ((packed last).length ≤ mtu ∨ ∃ seg, last = [seg]) ∧ ((packed segs).length ≤ mtu → done = [])

variable {P : Seg → Prop} {b : Packer} {kcp : Ikcpcb} {segs : List Seg}

theorem length_wire (seg : Seg) : (wire seg).length = overhead + seg.len := by
  rw [wire, List.length_append, length_encodeSeg, Seg.len]

theorem wire_nodata (seg : Seg) (h : seg.data = []) : wire seg = encodeSeg seg := by
  rw [wire, h, List.append_nil]

theorem length_packed_cons (seg : Seg) (segs : List Seg) :
    (packed (seg :: segs)).length = overhead + seg.len + (packed segs).length := by
  rw [packed, List.flatMap_cons, List.length_append, length_wire, packed]

theorem packed_append (segs more : List Seg) : packed (segs ++ more) = packed segs ++ packed more :=
  List.flatMap_append

/-! ## Writing -/

theorem Groups.nil (mtu : Nat) : Groups mtu [] [] :=
  ⟨[], rfl, rfl, fun _ hg => absurd hg List.not_mem_nil⟩

theorem Groups.snoc {mtu : Nat} {ds : List Bytes} {last : List Seg} (h : Groups mtu segs ds)
    (hne : last ≠ []) (hroom : (packed last).length ≤ mtu ∨ ∃ seg, last = [seg]) :
    Groups mtu (segs ++ last) (ds ++ [packed last]) := by
  obtain ⟨groups, rfl, rfl, hall⟩ := h
  refine ⟨groups ++ [last], ?_, ?_, ?_⟩
  · rw [List.map_append, List.map_singleton]
  · rw [List.flatten_append, List.flatten_singleton]
  · intro g hg
    rcases List.mem_append.1 hg with hold | hnew
    · exact hall g hold
    · rw [List.mem_singleton.1 hnew]
      exact ⟨hne, hroom⟩

namespace Packer.Wrote

variable {mtu : Mtu}

theorem empty (mtu : Mtu) : Packer.Wrote mtu.value [] ⟨[], []⟩ :=
  ⟨[], [], rfl, Groups.nil mtu.value, rfl, Or.inl (Nat.zero_le _), fun _ => rfl⟩

/-- The buffer is sent unless it is empty. -/
theorem output (h : b.Wrote mtu.value segs) : Groups mtu.value segs (output b.out b.buffer) := by
  obtain ⟨done, last, rfl, hdone, hbuffer, hroom, -⟩ := h
  rw [Kcp.output, ← hbuffer]
  cases hlast : last with
  | nil =>
      have hzero : (packed []).length = 0 := rfl
      rw [if_pos hzero, List.append_nil]
      exact hdone
  | cons seg rest =>
      have hpos : (packed (seg :: rest)).length ≠ 0 := by
        rw [length_packed_cons, overhead]
        omega
      rw [if_neg hpos]
      exact hdone.snoc (List.cons_ne_nil _ _) (hlast ▸ hroom)

theorem put (h : b.Wrote mtu.value segs) (seg : Seg) :
    (b.put mtu (wire seg)).Wrote mtu.value (segs ++ [seg]) := by
  have hone : packed [seg] = wire seg := List.append_nil _
  unfold Packer.put
  by_cases hfull : b.buffer.length + (wire seg).length > mtu.value
  · rw [if_pos hfull]
    refine ⟨segs, [seg], rfl, h.output, hone, Or.inr ⟨seg, rfl⟩, fun hall => ?_⟩
    obtain ⟨done, last, rfl, -, hbuffer, -⟩ := h
    rw [packed_append, packed_append, hone, hbuffer, List.length_append, List.length_append] at hall
    omega
  · rw [if_neg hfull]
    obtain ⟨done, last, rfl, hdone, hbuffer, -, hfirst⟩ := h
    have hmore : packed (last ++ [seg]) = b.buffer ++ wire seg := by
      rw [packed_append, hone, hbuffer]
    refine ⟨done, last ++ [seg], (List.append_assoc ..).symm, hdone, hmore, Or.inl ?_, fun hall => ?_⟩
    · rw [hmore, List.length_append]
      exact Nat.le_of_not_lt hfull
    · rw [packed_append, List.length_append] at hall
      exact hfirst (by omega)

end Packer.Wrote

/-- The pending acknowledgements as segments. -/
def ackSegs (kcp : Ikcpcb) : List Seg := kcp.acklist.map fun ack => ackSeg kcp ack.1 ack.2

/-- The window command that is written when its bit is set in `probe`. -/
def probeSegs (kcp : Ikcpcb) (ask cmd : UInt32) (ack : UInt32 × UInt32) : List Seg :=
  if kcp.probe &&& ask ≠ 0 then [{ ackSeg kcp ack.1 ack.2 with cmd := cmd }] else []

/-- The segments of `snd_buf` that are due, as they are sent. -/
def dueSegs (kcp : Ikcpcb) (wnd : UInt32) (buf : List Seg) : List Seg :=
  buf.filterMap fun seg => (needsend kcp seg).map fun reason => stamp kcp wnd (resend kcp seg reason)

/-- Everything that a flush sends, in order: the acknowledgements, the window commands and the segments of
`snd_buf` that are due. -/
def written (kcp : Ikcpcb) : List Seg :=
  ackSegs kcp ++ probeSegs (probeWindow kcp) askSend cmdWask (lastAck kcp) ++
    probeSegs (probeWindow kcp) askTell cmdWins (lastAck kcp) ++
    dueSegs (flushQueue kcp) (wndUnused kcp) (flushQueue kcp).sndBuf

theorem flushAcks_wrote (h : b.Wrote kcp.mtu.value segs) :
    (flushAcks kcp b).Wrote kcp.mtu.value (segs ++ ackSegs kcp) := by
  unfold flushAcks ackSegs
  generalize kcp.acklist = acks
  induction acks generalizing b segs with
  | nil =>
      rw [List.map_nil, List.append_nil]
      exact h
  | cons ack acks ih =>
      have hnext := ih (h.put (ackSeg kcp ack.1 ack.2))
      rw [List.foldl_cons, List.map_cons, ← wire_nodata (ackSeg kcp ack.1 ack.2) rfl]
      rwa [List.append_assoc] at hnext

theorem flushProbe_wrote (h : b.Wrote kcp.mtu.value segs) (ask cmd : UInt32) (ack : UInt32 × UInt32) :
    (flushProbe kcp ask cmd ack b).Wrote kcp.mtu.value (segs ++ probeSegs kcp ask cmd ack) := by
  unfold flushProbe probeSegs
  by_cases hask : kcp.probe &&& ask ≠ 0
  · rw [if_pos hask, if_pos hask, ← wire_nodata { ackSeg kcp ack.1 ack.2 with cmd := cmd } rfl]
    exact h.put _
  · rw [if_neg hask, if_neg hask, List.append_nil]
    exact h

theorem flushSegment_wrote {wnd : UInt32} {s : Sending} (h : s.packer.Wrote kcp.mtu.value segs) (seg : Seg) :
    (flushSegment kcp wnd s seg).2.packer.Wrote kcp.mtu.value (segs ++ dueSegs kcp wnd [seg]) := by
  unfold flushSegment dueSegs
  rw [List.filterMap_cons, List.filterMap_nil]
  cases needsend kcp seg with
  | none =>
      rw [Option.map_none]
      dsimp only
      rw [List.append_nil]
      exact h
  | some reason => exact h.put (stamp kcp wnd (resend kcp seg reason))

theorem flushSegments_wrote {wnd : UInt32} {buf : List Seg} {s : Sending}
    (h : s.packer.Wrote kcp.mtu.value segs) :
    (flushSegments kcp wnd buf s).2.packer.Wrote kcp.mtu.value (segs ++ dueSegs kcp wnd buf) := by
  induction buf generalizing s segs with
  | nil =>
      rw [dueSegs, List.filterMap_nil, List.append_nil]
      exact h
  | cons seg rest ih =>
      have hsplit : dueSegs kcp wnd (seg :: rest) = dueSegs kcp wnd [seg] ++ dueSegs kcp wnd rest :=
        List.filterMap_append (l := [seg])
      rw [flushSegments, hsplit, ← List.append_assoc]
      exact ih (flushSegment_wrote h seg)

theorem mtu_probeWindow (kcp : Ikcpcb) : (probeWindow kcp).mtu = kcp.mtu :=
  congrArg View.mtu (view_probeWindow kcp)

theorem mtu_flushQueue (kcp : Ikcpcb) : (flushQueue kcp).mtu = kcp.mtu :=
  congrArg View.mtu (view_flushQueue kcp)

theorem flush_of_updated (hupdated : kcp.updated = true) :
    (flush kcp).2 = (flushData kcp).2.packer.finish := by
  rw [flush, hupdated]
  rfl

theorem flush_of_not_updated (hupdated : kcp.updated = false) : flush kcp = (kcp, []) := by
  rw [flush, hupdated]
  rfl

/-- What is put during a flush. -/
theorem flushData_wrote (kcp : Ikcpcb) : (flushData kcp).2.packer.Wrote kcp.mtu.value (written kcp) := by
  have hacks := flushAcks_wrote (Packer.Wrote.empty kcp.mtu)
  rw [← mtu_probeWindow] at hacks
  have hheads := flushProbe_wrote (flushProbe_wrote hacks askSend cmdWask (lastAck kcp)) askTell cmdWins
    (lastAck kcp)
  rw [mtu_probeWindow, ← mtu_flushQueue] at hheads
  have hdata : (flushData kcp).2.packer.Wrote (flushQueue kcp).mtu.value (written kcp) :=
    flushSegments_wrote hheads
  rwa [mtu_flushQueue] at hdata

/-- The datagrams of a flush hold what it writes, in order. -/
theorem flush_groups (hupdated : kcp.updated = true) : Groups kcp.mtu.value (written kcp) (flush kcp).2 := by
  rw [flush_of_updated hupdated]
  exact (flushData_wrote kcp).output

/-- What a flush writes goes out as one datagram when there is room for it. -/
theorem flush_single (hupdated : kcp.updated = true) (hroom : (packed (written kcp)).length ≤ kcp.mtu.value) :
    (flush kcp).2 = output [] (packed (written kcp)) := by
  obtain ⟨done, last, hall, hdone, hbuffer, -, hfirst⟩ := flushData_wrote kcp
  obtain rfl := hfirst hroom
  obtain ⟨groups, hout, hflat, hne⟩ := hdone
  have hnone : groups = [] := by
    cases groups with
    | nil => rfl
    | cons g groups =>
        rw [List.flatten_cons, List.append_eq_nil_iff] at hflat
        exact absurd hflat.1 (hne g List.mem_cons_self).1
  rw [hnone, List.map_nil] at hout
  rw [List.nil_append] at hall
  rw [flush_of_updated hupdated, Packer.finish, hout, ← hbuffer, hall]

/-- Every datagram of a flush is packed from segments that it writes. -/
theorem flush_packed (hwritten : ∀ seg ∈ written kcp, P seg) : ∀ d ∈ (flush kcp).2, Packed P d := by
  intro d hd
  cases hupdated : kcp.updated with
  | false =>
      rw [flush_of_not_updated hupdated] at hd
      exact absurd hd List.not_mem_nil
  | true =>
      obtain ⟨groups, hds, hflat, hall⟩ := flush_groups hupdated
      rw [hds] at hd
      obtain ⟨g, hg, rfl⟩ := List.mem_map.1 hd
      refine ⟨g, (hall g hg).1, rfl, fun seg hseg => hwritten seg ?_⟩
      rw [← hflat]
      exact List.mem_flatten_of_mem hg hseg

/-- Every segment that a flush writes is in one of its datagrams. -/
theorem exists_packed_of_written (hupdated : kcp.updated = true) (hwritten : ∀ seg ∈ written kcp, P seg)
    {seg : Seg} (hseg : seg ∈ written kcp) :
    ∃ segs, packed segs ∈ (flush kcp).2 ∧ seg ∈ segs ∧ ∀ other ∈ segs, P other := by
  obtain ⟨groups, hds, hflat, -⟩ := flush_groups hupdated
  rw [← hflat] at hseg hwritten
  obtain ⟨g, hg, hmem⟩ := List.mem_flatten.1 hseg
  refine ⟨g, ?_, hmem, fun other hother => hwritten other (List.mem_flatten_of_mem hg hother)⟩
  rw [hds]
  exact List.mem_map_of_mem hg

/-- The header of an acknowledgement or a probe does not depend on the probe timer. -/
theorem ackSeg_probeWindow (kcp : Ikcpcb) (sn ts : UInt32) : ackSeg (probeWindow kcp) sn ts = ackSeg kcp sn ts := by
  have hview := view_probeWindow kcp
  have hconv : (probeWindow kcp).conv = kcp.conv := congrArg View.conv hview
  have hreceiver : (probeWindow kcp).receiver = kcp.receiver := congrArg View.receiver hview
  have hnxt : (probeWindow kcp).rcvNxt = kcp.rcvNxt := congrArg Receiver.nxt hreceiver
  have hwnd : (probeWindow kcp).rcvWnd = kcp.rcvWnd := congrArg Receiver.wnd hreceiver
  have hnque : (probeWindow kcp).nrcvQue = kcp.nrcvQue := congrArg Receiver.nque hreceiver
  simp only [ackSeg, wndUnused, hconv, hnxt, hwnd, hnque]

/-- What a flush writes are acknowledgements, window commands and segments of `snd_buf`. -/
theorem written_induction (hacks : ∀ ack ∈ kcp.acklist, P (ackSeg kcp ack.1 ack.2))
    (hprobes : ∀ cmd, cmd = cmdWask ∨ cmd = cmdWins →
      P { ackSeg kcp (lastAck kcp).1 (lastAck kcp).2 with cmd := cmd })
    (hsegs : ∀ seg ∈ (flushQueue kcp).sndBuf, ∀ reason, needsend (flushQueue kcp) seg = some reason →
      P (stamp (flushQueue kcp) (wndUnused kcp) (resend (flushQueue kcp) seg reason))) :
    ∀ seg ∈ written kcp, P seg := by
  have hprobe : ∀ ask cmd, cmd = cmdWask ∨ cmd = cmdWins →
      ∀ seg ∈ probeSegs (probeWindow kcp) ask cmd (lastAck kcp), P seg := by
    intro ask cmd hcmd seg hseg
    rw [probeSegs, ackSeg_probeWindow] at hseg
    split at hseg
    · rw [List.mem_singleton.1 hseg]
      exact hprobes cmd hcmd
    · exact absurd hseg List.not_mem_nil
  intro seg hseg
  rw [written, List.mem_append, List.mem_append, List.mem_append] at hseg
  rcases hseg with ((hseg | hseg) | hseg) | hseg
  · obtain ⟨ack, hack, rfl⟩ := List.mem_map.1 hseg
    exact hacks ack hack
  · exact hprobe _ _ (Or.inl rfl) seg hseg
  · exact hprobe _ _ (Or.inr rfl) seg hseg
  · obtain ⟨old, hold, hsome⟩ := List.mem_filterMap.1 hseg
    obtain ⟨reason, hreason, rfl⟩ := Option.map_eq_some_iff.1 hsome
    exact hsegs old hold reason hreason

/-! ## Reading -/

/-- A segment that the header can hold: its casts lose nothing. -/
structure Seg.Fits (seg : Seg) : Prop where
  cmd : seg.cmd = cmdPush ∨ seg.cmd = cmdAck ∨ seg.cmd = cmdWask ∨ seg.cmd = cmdWins
  frg : seg.frg.toNat < 2 ^ 8
  len : seg.len < 2 ^ 31

/-- What `ikcp_input` does with one segment of a datagram. -/
def inputWire (kcp : Ikcpcb) (seg : Seg) : Ikcpcb := inputSeg kcp seg.header seg.data

/-- The largest acknowledged number after one more segment. -/
def ackWire (maxack : Maxack) (seg : Seg) : Maxack :=
  if seg.header.cmd.toUInt32 = cmdAck then maxack.add seg.header.sn else maxack

theorem conv_inputSeg (h : Header) (data : Bytes) : (inputSeg kcp h data).conv = kcp.conv := by
  unfold inputSeg
  dsimp only
  split
  · exact congrArg View.conv (view_inputAck (inputUna kcp h) h)
  · split
    · exact congrArg View.conv (view_inputPush (inputUna kcp h) h data)
    · split <;> rfl

/-- The length word of a segment that fits. -/
theorem Seg.Fits.toNat_len {seg : Seg} (h : seg.Fits) : seg.header.len.toNat = seg.data.length := by
  have hlen : seg.data.length < 2 ^ 31 := h.len
  exact UInt32.toNat_ofNat_of_lt' (by rw [UInt32.size, Seg.len]; omega)

theorem Seg.Fits.cmd_header {seg : Seg} (h : seg.Fits) : seg.header.cmd.toUInt32 = seg.cmd := by
  show seg.cmd.toUInt8.toUInt32 = seg.cmd
  rcases h.cmd with hcmd | hcmd | hcmd | hcmd <;> rw [hcmd] <;> rfl

theorem Seg.Fits.known {seg : Seg} (h : seg.Fits) : knownCmd seg.header.cmd := by
  unfold knownCmd
  rw [h.cmd_header]
  exact h.cmd

theorem Seg.Fits.frg_header {seg : Seg} (h : seg.Fits) : seg.header.frg.toUInt32 = seg.frg := by
  have hfrg := h.frg
  apply UInt32.toNat_inj.1
  show seg.frg.toUInt8.toUInt32.toNat = _
  rw [UInt8.toNat_toUInt32, UInt32.toNat_toUInt8]
  omega

theorem Seg.Fits.len_nonneg {seg : Seg} (h : seg.Fits) : ¬ seg.header.len.toInt32 < 0 := by
  have hlen := h.len
  have hword : (seg.header.len - 0).toNat = seg.data.length := by
    rw [UInt32.sub_zero]
    exact h.toNat_len
  rw [Int32.lt_iff_toInt_lt, not_lt]
  have hdiff : serialDiff seg.header.len 0 = seg.header.len.toInt32.toInt := by
    rw [serialDiff, UInt32.sub_zero]
  show (0 : Int) ≤ seg.header.len.toInt32.toInt
  rw [← hdiff]
  apply serialDiff_nonneg_iff.2
  rw [ahead, hword]
  exact hlen

/-- A datagram of segments that fit determines their headers and their data. -/
theorem packed_inj {segs segs' : List Seg} (hfits : ∀ seg ∈ segs, seg.Fits) (hfits' : ∀ seg ∈ segs', seg.Fits)
    (heq : packed segs = packed segs') :
    segs.map (fun seg => (seg.header, seg.data)) = segs'.map fun seg => (seg.header, seg.data) := by
  have hsplit : ∀ (seg : Seg) (rest : List Seg),
      packed (seg :: rest) = seg.header.encode ++ (seg.data ++ packed rest) := by
    intro seg rest
    simp [packed, wire, encodeSeg]
  induction segs generalizing segs' with
  | nil =>
      cases segs' with
      | nil => rfl
      | cons seg' rest' =>
          have hlength := congrArg List.length heq
          rw [length_packed_cons, overhead] at hlength
          have hzero : (packed []).length = 0 := rfl
          omega
  | cons seg rest ih =>
      cases segs' with
      | nil =>
          have hlength := congrArg List.length heq
          rw [length_packed_cons, overhead] at hlength
          have hzero : (packed []).length = 0 := rfl
          omega
      | cons seg' rest' =>
          rw [List.forall_mem_cons] at hfits hfits'
          have hdecode := congrArg decodeHeader heq
          rw [hsplit, hsplit, decodeHeader_encode, decodeHeader_encode, Prod.mk.injEq] at hdecode
          obtain ⟨hheader, hbody⟩ := hdecode
          -- the length word tells where the data ends
          have hlength : seg.data.length = seg'.data.length := by
            rw [← hfits.1.toNat_len, ← hfits'.1.toNat_len, hheader]
          obtain ⟨hdata, hrest⟩ := List.append_inj hbody hlength
          rw [List.map_cons, List.map_cons, ih hfits.2 hfits'.2 hrest, hheader, hdata]

/-- The loop of `ikcp_input` goes through the segments of a datagram in order. -/
theorem inputLoop_packed {segs : List Seg} (hfits : ∀ seg ∈ segs, seg.Fits ∧ seg.conv = kcp.conv) :
    ∀ (fuel : Nat) (maxack : Maxack), (packed segs).length ≤ fuel →
      inputLoop fuel kcp maxack (packed segs) =
        ⟨segs.foldl inputWire kcp, segs.foldl ackWire maxack, none⟩ := by
  induction segs generalizing kcp with
  | nil =>
      intro fuel maxack _
      cases fuel with
      | zero => rfl
      | succ fuel =>
          rw [inputLoop, if_pos (by simp [packed, overhead])]
          rfl
  | cons seg segs ih =>
      intro fuel maxack hfuel
      rw [List.forall_mem_cons] at hfits
      obtain ⟨⟨hseg, hconv⟩, hrest⟩ := hfits
      have hlength := length_packed_cons seg segs
      have hsplit : packed (seg :: segs) = seg.header.encode ++ (seg.data ++ packed segs) := by
        simp [packed, wire, encodeSeg]
      cases fuel with
      | zero =>
          rw [hlength, overhead] at hfuel
          omega
      | succ fuel =>
          have henough : ¬ (packed (seg :: segs)).length < overhead := by omega
          have hbody : ¬ ((seg.data ++ packed segs).length < seg.header.len.toNat ∨
              seg.header.len.toInt32 < 0) := by
            rw [hseg.toNat_len, List.length_append]
            rintro (h | h)
            · omega
            · exact hseg.len_nonneg h
          have hsame : seg.header.conv = kcp.conv := hconv
          have hcmd := hseg.known
          rw [inputLoop, if_neg henough, hsplit, decodeHeader_encode]
          dsimp only
          rw [if_neg (not_not.2 hsame), if_neg hbody, if_neg (not_not.2 hcmd), hseg.toNat_len,
            List.take_left, List.drop_left]
          apply ih
          · intro other hother
            rw [conv_inputSeg]
            exact hrest other hother
          · rw [hlength, overhead] at hfuel
            omega

/-- A datagram of segments that fit is read without an error. -/
theorem input_packed {segs : List Seg} (hne : segs ≠ [])
    (hfits : ∀ seg ∈ segs, seg.Fits ∧ seg.conv = kcp.conv) :
    input kcp (packed segs) =
      (inputTail kcp.sndUna (segs.foldl inputWire kcp) (segs.foldl ackWire none), 0) := by
  have henough : ¬ (packed segs).length < overhead := by
    cases segs with
    | nil => exact absurd rfl hne
    | cons seg segs =>
        rw [length_packed_cons]
        omega
  unfold input
  rw [if_neg henough, inputLoop_packed hfits _ none le_rfl]

/-- A datagram of another conversation, or one too short for a header, is refused as a whole. -/
theorem input_stray {data : Bytes} (h : data.length < overhead ∨ getconv data ≠ kcp.conv) :
    input kcp data = (kcp, -1) := by
  unfold input
  by_cases hshort : data.length < overhead
  · rw [if_pos hshort]
  · have hconv : (decodeHeader data).1.conv ≠ kcp.conv := h.resolve_left hshort
    have hpos : data.length = (data.length - 1) + 1 := by
      rw [overhead] at hshort
      omega
    rw [if_neg hshort, hpos, inputLoop, if_neg hshort]
    dsimp only
    rw [if_pos hconv]

end CppMisc.Kcp
