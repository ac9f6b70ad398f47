import CppMisc.Kcp.History

/-!
# A flush continues the history

The segments that `ikcp_flush` moves from `snd_queue` to `snd_buf` get the next numbers, and what it writes
to the wire is good for the other side: data of the history, and acknowledgements of what has arrived.
-/

set_option autoImplicit false

namespace CppMisc.Kcp

open CppMisc.Library

namespace Ikcpcb.Follows

variable {c : UInt32} {h hin : List Frag} {p : Nat} {kcp : Ikcpcb}

theorem una_le (hf : kcp.Follows c h hin p) : kcp.sndUna.toNat ≤ h.length := by
  have hsettled := hf.ordered.settled
  have huna : kcp.sndUna = kcp.sender.first := hsettled
  rw [huna]
  unfold Sender.first
  cases hbuf : kcp.sender.buf with
  | nil => exact Nat.le_of_eq hf.sent.nxt
  | cons seg rest =>
      exact Nat.le_of_lt (hf.outstanding_lt ⟨seg, by rw [hbuf]; exact List.mem_cons_self, rfl⟩)

/-- Numbers in flight behind a `snd_una` in the lower half do not wrap around. -/
theorem nxt_lt {s : Sender} (hordered : s.Ordered) (huna : s.una.toNat < 2 ^ 31) :
    s.nxt.toNat < s.una.toNat + 2 ^ 16 := by
  have hin := hordered.inflight
  have hlt := s.nxt.toNat_lt
  rw [ahead_eq] at hin
  omega

/-- The segments `moved` of the queue got their numbers: they continue the history and are kept in
`snd_buf`. -/
structure Numbered (c : UInt32) (h : List Frag) (kcp k : Ikcpcb) (moved : List Seg) : Prop where
  ordered : k.Ordered
  una : k.sndUna = kcp.sndUna
  queue : kcp.sndQueue = moved ++ k.sndQueue
  sent : k.sender.Sent c (h ++ moved.map Seg.frag)
  kept : ∀ i, kcp.sender.Outstanding i ∨ h.length ≤ i ∧ i < h.length + moved.length →
    k.sender.Outstanding i

/-- One more segment gets its number. -/
theorem Numbered.next {kcp k : Ikcpcb} {moved : List Seg} {cwnd wnd : UInt32} {newseg : Seg} {rest : List Seg}
    (hn : Numbered c h kcp k moved) (huna : kcp.sndUna.toNat < 2 ^ 31) (hconv : k.conv = c)
    (hcwnd : cwnd.toNat < 2 ^ 16) (hqueue : k.sndQueue = newseg :: rest)
    (hwindow : itimediff k.sndNxt (k.sndUna + cwnd) < 0) :
    Numbered c h kcp (sendNext wnd k newseg rest) (moved ++ [newseg]) := by
  have hsame : k.sender.una.toNat < 2 ^ 31 := by
    show k.sndUna.toNat < _
    rwa [hn.una]
  have hlt := nxt_lt hn.ordered.sender hsame
  have hnxt := hn.sent.nxt
  rw [List.length_append, List.length_map] at hnxt
  have hnext : (k.sender.nxt + 1).toNat = k.sender.nxt.toNat + 1 := toNat_add_one (by omega)
  have hmap : (moved ++ [newseg]).map Seg.frag = moved.map Seg.frag ++ [newseg.frag] := by
    rw [List.map_append, List.map_singleton]
  have hsmall : newseg.frag.Small := hn.sent.queue newseg (by
    show newseg ∈ k.sndQueue
    rw [hqueue]
    exact List.mem_cons_self)
  exact {
    ordered := ⟨hn.ordered.sender.number (numberSeg k wnd newseg) hqueue hcwnd hwindow rfl,
      hn.ordered.settled.number (numberSeg k wnd newseg) rfl, hn.ordered.receiver⟩
    una := hn.una
    queue := by
      rw [hn.queue, hqueue, List.append_assoc]
      rfl
    sent := {
      nxt := by
        show (k.sender.nxt + 1).toNat = _
        rw [hnext, hnxt, hmap, List.length_append, List.length_append, List.length_map,
          List.length_singleton, Nat.add_assoc]
      buf := by
        intro seg hseg
        rw [hmap, ← List.append_assoc]
        rcases List.mem_append.1 hseg with hold | hnew
        · obtain ⟨h1, h2, hfrag⟩ := hn.sent.buf seg hold
          obtain ⟨hin, -⟩ := List.getElem?_eq_some_iff.1 hfrag
          rw [List.getElem?_append_left hin]
          exact ⟨h1, h2, hfrag⟩
        · rw [List.mem_singleton.1 hnew]
          refine ⟨hconv, rfl, ?_⟩
          have hsn : (numberSeg k wnd newseg).sn.toNat = (h ++ moved.map Seg.frag).length := hn.sent.nxt
          rw [hsn, List.getElem?_concat_length]
          rfl
      history := by
        intro f hmem
        rw [hmap, ← List.append_assoc] at hmem
        rcases List.mem_append.1 hmem with hold | hnew
        · exact hn.sent.history f hold
        · rw [List.mem_singleton.1 hnew]
          exact hsmall
      queue := by
        intro seg hseg
        refine hn.sent.queue seg ?_
        show seg ∈ k.sndQueue
        rw [hqueue]
        exact List.mem_cons_of_mem _ hseg }
    kept := by
      intro i hi
      rw [List.length_append, List.length_singleton] at hi
      by_cases hlast : i = h.length + moved.length
      · refine ⟨numberSeg k wnd newseg, List.mem_append_right _ (List.mem_singleton.2 rfl), ?_⟩
        exact hnxt.trans hlast.symm
      · obtain ⟨seg, hseg, hsn⟩ := hn.kept i (hi.imp_right fun hrange => by omega)
        exact ⟨seg, List.mem_append_left _ hseg, hsn⟩ }

theorem flushQueue (hf : kcp.Follows c h hin p) (hshort : h.length < 2 ^ 31) :
    ∃ moved, Numbered c h kcp (flushQueue kcp) moved := by
  have hprobed : (probeWindow kcp).Follows c h hin p := hf.of_view (view_probeWindow _)
  have hsender : (clearProbe (probeWindow kcp)).sender = kcp.sender :=
    congrArg View.sender (view_probeWindow kcp)
  have hconv : (clearProbe (probeWindow kcp)).conv = c := hprobed.conv
  have hordered : (clearProbe (probeWindow kcp)).Ordered :=
    ⟨hprobed.ordered.sender, hprobed.ordered.settled, hprobed.ordered.receiver⟩
  have hcwnd := hordered.flushWindow_lt
  have huna : kcp.sndUna.toNat < 2 ^ 31 := by
    have := hf.una_le
    omega
  unfold Kcp.flushQueue
  dsimp only
  generalize flushWindow (clearProbe (probeWindow kcp)) = cwnd at hcwnd
  generalize wndUnused kcp = wnd
  generalize clearProbe (probeWindow kcp) = start at hsender hconv hordered
  have hqueue : start.sndQueue = kcp.sndQueue := congrArg Sender.queue hsender
  have hmoved : (∃ moved, Numbered c h kcp (moveToSndBuf cwnd wnd start.sndQueue start) moved) ∧
      (moveToSndBuf cwnd wnd start.sndQueue start).conv = c := by
    apply moveToSndBuf_induction (P := fun k => (∃ moved, Numbered c h kcp k moved) ∧ k.conv = c)
    · rintro k newseg rest ⟨⟨moved, hn⟩, hk⟩ hq hwindow
      exact ⟨⟨moved ++ [newseg], hn.next huna hk hcwnd hq hwindow⟩, hk⟩
    · refine ⟨⟨[], ?_⟩, hconv⟩
      exact {
        ordered := hordered
        una := congrArg Sender.una hsender
        queue := hqueue.symm
        sent := by
          rw [hsender, List.map_nil, List.append_nil]
          exact hf.sent
        kept := by
          intro i hi
          rw [hsender]
          exact hi.resolve_right fun h => by
            rw [List.length_nil] at h
            omega }
  exact hmoved.1

/-- What a flush does to the histories: some segments of the queue continue them. -/
structure Flushed (c : UInt32) (h hin : List Frag) (p : Nat) (kcp : Ikcpcb) (r : Ikcpcb × List Bytes)
    (moved : List Seg) : Prop where
  follows : r.1.Follows c (h ++ moved.map Seg.frag) hin p
  queue : kcp.sndQueue = moved ++ r.1.sndQueue
  few : moved.length < 2 ^ 16
  receiver : r.1.receiver = kcp.receiver
  stream : r.1.stream = kcp.stream
  kept : ∀ i, kcp.sender.Outstanding i ∨ h.length ≤ i ∧ i < h.length + moved.length →
    r.1.sender.Outstanding i
  datagrams : ∀ d ∈ r.2, Packed (Good c (h ++ moved.map Seg.frag) kcp.receiver.Got) d

/-- A segment that is sent: one of `snd_buf` with the words of its header refreshed. -/
theorem good_stamp {k : Ikcpcb} {h' : List Frag} {got : Nat → Prop} {wnd : UInt32} {seg : Seg}
    (hsent : k.sender.Sent c h') (huna : k.rcvNxt.toNat < 2 ^ 31) (hgot : ∀ i < k.rcvNxt.toNat, got i)
    (hseg : seg ∈ k.sndBuf) (reason : Reason) : Good c h' got (stamp k wnd (resend k seg reason)) := by
  obtain ⟨hconv, hcmd, hfrag⟩ := hsent.buf seg hseg
  obtain ⟨hlt, hget⟩ := List.getElem?_eq_some_iff.1 hfrag
  have hsmall : seg.frag.Small := hget ▸ hsent.history _ (List.getElem_mem hlt)
  have hfields : (stamp k wnd (resend k seg reason)).conv = seg.conv ∧
      (stamp k wnd (resend k seg reason)).cmd = seg.cmd ∧ (stamp k wnd (resend k seg reason)).sn = seg.sn ∧
      (stamp k wnd (resend k seg reason)).frag = seg.frag := by
    cases reason <;> exact ⟨rfl, rfl, rfl, rfl⟩
  obtain ⟨h1, h2, h3, h4⟩ := hfields
  have hfrg : (stamp k wnd (resend k seg reason)).frg = seg.frg := congrArg Frag.frg h4
  have hdata : (stamp k wnd (resend k seg reason)).data = seg.data := congrArg Frag.data h4
  exact {
    conv := h1.trans hconv
    fits := {
      cmd := Or.inl (h2.trans hcmd)
      frg := by
        rw [hfrg]
        exact hsmall.frg
      len := by
        rw [Seg.len, hdata]
        exact hsmall.data }
    push := fun _ => by rw [h3, h4]; exact hfrag
    una_lt := huna
    una := hgot
    ack := fun hack => by
      rw [h2, hcmd] at hack
      exact absurd hack (by decide) }

/-- A header without data: an acknowledgement of what was got, or a window command. -/
theorem good_ackSeg {h' : List Frag} (hf : kcp.Follows c h hin p) (hshort : hin.length < 2 ^ 31)
    {sn ts : UInt32} (cmd : UInt32) (hcmd : cmd = cmdAck ∨ cmd = cmdWask ∨ cmd = cmdWins)
    (hgot : cmd = cmdAck → kcp.receiver.Got sn.toNat) :
    Good c h' kcp.receiver.Got { ackSeg kcp sn ts with cmd := cmd } := by
  have hnxt : kcp.rcvNxt.toNat ≤ hin.length := hf.received.nxt
  exact {
    conv := hf.conv
    fits := ⟨Or.inr hcmd, show (0 : UInt32).toNat < 2 ^ 8 by decide, Nat.two_pow_pos 31⟩
    push := fun hpush => by
      have hpush' : cmd = cmdPush := hpush
      rw [hpush'] at hcmd
      exact absurd hcmd (by decide)
    una_lt := by
      show kcp.rcvNxt.toNat < _
      omega
    una := fun i hi => Or.inl hi
    ack := hgot }

theorem flush (hf : kcp.Follows c h hin p) (hshort : h.length < 2 ^ 31) (hshort' : hin.length < 2 ^ 31) :
    ∃ moved, Flushed c h hin p kcp (flush kcp) moved := by
  cases hupdated : kcp.updated with
  | false =>
      have heq : Kcp.flush kcp = (kcp, []) := by
        rw [Kcp.flush, hupdated]
        rfl
      rw [heq]
      refine ⟨[], ?_⟩
      exact {
        follows := by
          rw [List.map_nil, List.append_nil]
          exact hf
        queue := rfl
        few := by decide
        receiver := rfl
        stream := rfl
        kept := fun i hi => hi.resolve_right fun h => by
          rw [List.length_nil] at h
          omega
        datagrams := fun d hd => absurd hd List.not_mem_nil }
  | true =>
      obtain ⟨moved, hn⟩ := hf.flushQueue hshort
      have hview := view_flush_of_updated hupdated
      have hsender : (Kcp.flush kcp).1.sender =
        { (Kcp.flushQueue kcp).sender with buf := (flushData kcp).1 } := congrArg View.sender hview
      have hreceiver : (Kcp.flush kcp).1.receiver = kcp.receiver := congrArg View.receiver hview
      have hconv : (Kcp.flush kcp).1.conv = kcp.conv := congrArg View.conv hview
      have hacks : (Kcp.flush kcp).1.acklist = [] := congrArg View.acks hview
      have hqview := view_flushQueue kcp
      have hqreceiver : (Kcp.flushQueue kcp).receiver = kcp.receiver := congrArg View.receiver hqview
      have hqconv : (Kcp.flushQueue kcp).conv = kcp.conv := congrArg View.conv hqview
      have hqacks : (Kcp.flushQueue kcp).acklist = [] := congrArg View.acks hqview
      -- the endpoint in front of the loop over `snd_buf`, which keeps the keys
      have hqueued : (Kcp.flushQueue kcp).Follows c (h ++ moved.map Seg.frag) hin p := {
        ordered := hn.ordered
        conv := hqconv.trans hf.conv
        sent := hn.sent
        received := hqreceiver ▸ hf.received
        acks := by
          rw [hqacks]
          exact fun ack hack => absurd hack List.not_mem_nil }
      have hkeys := keys_flushSegments (Kcp.flushQueue kcp) (wndUnused kcp)
        (Kcp.flushQueue kcp).sndBuf ⟨flushHeads kcp, false, 0, kcp.xmit, kcp.state⟩
      obtain ⟨hsent, hkept⟩ := hqueued.rewrite hkeys
      have hnxt : kcp.rcvNxt.toNat ≤ hin.length := hf.received.nxt
      refine ⟨moved, ?_⟩
      exact {
        follows := {
          ordered := hf.ordered.flush
          conv := hconv.trans hf.conv
          sent := by
            rw [hsender]
            exact hsent
          received := hreceiver ▸ hf.received
          acks := by
            rw [hacks]
            exact fun ack hack => absurd hack List.not_mem_nil }
        queue := by
          have hsame : (Kcp.flush kcp).1.sndQueue = (Kcp.flushQueue kcp).sndQueue :=
            congrArg Sender.queue hsender
          rw [hsame]
          exact hn.queue
        few := by
          have huna := hf.una_le
          have hsame : (Kcp.flushQueue kcp).sender.una.toNat = kcp.sndUna.toNat := congrArg UInt32.toNat hn.una
          have hlt := nxt_lt hn.ordered.sender (by omega)
          have hlength := hn.sent.nxt
          rw [List.length_append, List.length_map] at hlength
          omega
        receiver := hreceiver
        stream := congrArg View.stream hview
        kept := by
          intro i hi
          rw [hsender]
          exact (hkept i).1 (hn.kept i hi)
        datagrams := by
          have hsame : (Kcp.flushQueue kcp).rcvNxt = kcp.rcvNxt := congrArg Receiver.nxt hqreceiver
          apply flush_packed
          apply written_induction
          · intro ack hack
            exact hf.good_ackSeg hshort' cmdAck (Or.inl rfl) fun _ => hf.acks ack hack
          · intro cmd hcmd
            refine hf.good_ackSeg hshort' cmd (Or.inr hcmd) fun hack => ?_
            rw [hack] at hcmd
            exact absurd hcmd (by decide)
          · intro seg hseg reason _
            refine good_stamp hn.sent ?_ ?_ hseg reason
            · rw [hsame]
              omega
            · rw [hsame]
              exact fun i hi => Or.inl hi }

theorem update (hf : kcp.Follows c h hin p) (hshort : h.length < 2 ^ 31) (hshort' : hin.length < 2 ^ 31)
    (current : UInt32) : ∃ moved, Flushed c h hin p kcp (update kcp current) moved := by
  have hview : (resync (setClock kcp current)).view = kcp.view :=
    (view_resync _).trans (view_setClock _ current)
  have hclock : (resync (setClock kcp current)).Follows c h hin p := hf.of_view hview
  unfold Kcp.update
  dsimp only
  split
  · have hsame : (nextFlush (resync (setClock kcp current))).view = kcp.view := (view_nextFlush _).trans hview
    obtain ⟨moved, hflushed⟩ := (hf.of_view hsame).flush hshort hshort'
    have hsender : (nextFlush (resync (setClock kcp current))).sender = kcp.sender :=
      congrArg View.sender hsame
    have hreceiver : (nextFlush (resync (setClock kcp current))).receiver = kcp.receiver :=
      congrArg View.receiver hsame
    refine ⟨moved, ?_⟩
    exact {
      follows := hflushed.follows
      queue := (congrArg Sender.queue hsender).symm.trans hflushed.queue
      few := hflushed.few
      receiver := hflushed.receiver.trans hreceiver
      stream := hflushed.stream.trans (congrArg View.stream hsame)
      kept := hsender ▸ hflushed.kept
      datagrams := hreceiver ▸ hflushed.datagrams }
  · have hsender : (resync (setClock kcp current)).sender = kcp.sender := congrArg View.sender hview
    refine ⟨[], ?_⟩
    exact {
      follows := by
        rw [List.map_nil, List.append_nil]
        exact hclock
      queue := (congrArg Sender.queue hsender).symm
      few := by decide
      receiver := congrArg View.receiver hview
      stream := congrArg View.stream hview
      kept := fun i hi => by
        rw [hsender]
        exact hi.resolve_right fun h => by
          rw [List.length_nil] at h
          omega
      datagrams := fun d hd => absurd hd List.not_mem_nil }

end Ikcpcb.Follows

end CppMisc.Kcp
