import CppMisc.Kcp.Datagrams

/-!
# An endpoint and the history of its connection

The history of a direction is the list of all fragments that were given a sequence number, so that the
fragment with the number `i` stands at position `i`. `Ikcpcb.Follows` relates an endpoint to the histories of
both directions: what it holds for sending and what it has received are pieces of them.

A segment that comes from the other side is `Good` when its data is that of the history and it acknowledges
only what the other side has got. Good segments keep `Follows` and remove from `snd_buf` only what has
arrived (`Ikcpcb.Follows.inputWire`), and a flush sends good segments (`Ikcpcb.Follows.flush`). The numbers
are compared as they are, which needs histories shorter than `2 ^ 31`.
-/

set_option autoImplicit false

namespace CppMisc.Kcp

open CppMisc.Library

/-- A piece of a message with its number, counted from the end of the message. -/
structure Frag where
  frg : UInt32
  data : Bytes
  deriving DecidableEq, Repr

def Seg.frag (seg : Seg) : Frag := ⟨seg.frg, seg.data⟩

/-- A fragment that a header can describe. -/
structure Frag.Small (f : Frag) : Prop where
  frg : f.frg.toNat < 2 ^ 8
  data : f.data.length < 2 ^ 31

/-- The segment with the number `i` has arrived. -/
def Receiver.Got (r : Receiver) (i : Nat) : Prop := i < r.nxt.toNat ∨ ∃ seg ∈ r.buf, seg.sn.toNat = i

/-- The segment with the number `i` is kept for another sending. -/
def Sender.Outstanding (s : Sender) (i : Nat) : Prop := ∃ seg ∈ s.buf, seg.sn.toNat = i

/-- The sending side with the history `h`. -/
structure Sender.Sent (c : UInt32) (h : List Frag) (s : Sender) : Prop where
  nxt : s.nxt.toNat = h.length
  buf : ∀ seg ∈ s.buf, seg.conv = c ∧ seg.cmd = cmdPush ∧ h[seg.sn.toNat]? = some seg.frag
  history : ∀ f ∈ h, f.Small
  queue : ∀ seg ∈ s.queue, seg.frag.Small

/-- The receiving side with the history `h`, from which `p` fragments were read. -/
structure Receiver.Received (h : List Frag) (p : Nat) (r : Receiver) : Prop where
  nxt : r.nxt.toNat ≤ h.length
  taken : p + r.queue.length = r.nxt.toNat
  queue : r.queue.map Seg.frag = (h.take r.nxt.toNat).drop p
  buf : ∀ seg ∈ r.buf, r.nxt.toNat ≤ seg.sn.toNat ∧ h[seg.sn.toNat]? = some seg.frag

/-- An endpoint with the history `h` of what it sends, the history `hin` of what the other side sends, and
`p` fragments of that read. -/
structure Ikcpcb.Holds (c : UInt32) (h hin : List Frag) (p : Nat) (kcp : Ikcpcb) : Prop where
  ordered : kcp.Ordered
  conv : kcp.conv = c
  sent : kcp.sender.Sent c h
  received : kcp.receiver.Received hin p

/-- It acknowledges only what it has got. -/
structure Ikcpcb.Follows (c : UInt32) (h hin : List Frag) (p : Nat) (kcp : Ikcpcb) : Prop
    extends kcp.Holds c h hin p where
  acks : ∀ ack ∈ kcp.acklist, kcp.receiver.Got ack.1.toNat

/-- A segment of a side with the history `hin`, which has got the numbers of `got`. -/
structure Good (c : UInt32) (hin : List Frag) (got : Nat → Prop) (seg : Seg) : Prop where
  conv : seg.conv = c
  fits : seg.Fits
  push : seg.cmd = cmdPush → hin[seg.sn.toNat]? = some seg.frag
  una_lt : seg.una.toNat < 2 ^ 31
  una : ∀ i < seg.una.toNat, got i
  ack : seg.cmd = cmdAck → got seg.sn.toNat

/-- What happens at an endpoint loses nothing: what it has got it keeps, and what it no longer keeps for
sending is got by the other side. -/
structure Advance (got : Nat → Prop) (kcp kcp' : Ikcpcb) : Prop where
  received : ∀ i, kcp.receiver.Got i → kcp'.receiver.Got i
  kept : ∀ i, kcp.sender.Outstanding i → kcp'.sender.Outstanding i ∨ got i
  queue : kcp'.sndQueue = kcp.sndQueue
  stream : kcp'.stream = kcp.stream
  next : kcp.rcvNxt.toNat ≤ kcp'.rcvNxt.toNat

theorem Advance.refl (got : Nat → Prop) (kcp : Ikcpcb) : Advance got kcp kcp where
  received := fun _ h => h
  kept := fun _ h => Or.inl h
  queue := rfl
  stream := rfl
  next := le_rfl

theorem Advance.trans {got : Nat → Prop} {a b c : Ikcpcb} (hab : Advance got a b) (hbc : Advance got b c) :
    Advance got a c where
  received := fun i h => hbc.received i (hab.received i h)
  kept := fun i h => (hab.kept i h).elim (hbc.kept i) Or.inr
  queue := hbc.queue.trans hab.queue
  stream := hbc.stream.trans hab.stream
  next := hab.next.trans hbc.next

theorem Good.mono {c : UInt32} {hin hin' : List Frag} {got got' : Nat → Prop} {seg : Seg}
    (h : Good c hin got seg) (hmore : hin <+: hin') (hgot : ∀ i, got i → got' i) :
    Good c hin' got' seg where
  conv := h.conv
  fits := h.fits
  push := fun hcmd => by
    obtain ⟨new, rfl⟩ := hmore
    obtain ⟨hlt, -⟩ := List.getElem?_eq_some_iff.1 (h.push hcmd)
    rw [List.getElem?_append_left hlt]
    exact h.push hcmd
  una_lt := h.una_lt
  una := fun i hi => hgot i (h.una i hi)
  ack := fun hcmd => hgot _ (h.ack hcmd)

theorem Packed.mono {P Q : Seg → Prop} {d : Bytes} (h : Packed P d) (hPQ : ∀ seg, P seg → Q seg) :
    Packed Q d := by
  obtain ⟨segs, hne, hd, hall⟩ := h
  exact ⟨segs, hne, hd, fun seg hseg => hPQ seg (hall seg hseg)⟩

namespace Ikcpcb.Follows

variable {c : UInt32} {h hin : List Frag} {p : Nat} {kcp : Ikcpcb} (got : Nat → Prop)

/-- Only what `View` shows matters. -/
theorem of_view {k : Ikcpcb} (hf : kcp.Follows c h hin p) (hview : k.view = kcp.view) :
    k.Follows c h hin p := by
  have hsender : k.sender = kcp.sender := congrArg View.sender hview
  have hreceiver : k.receiver = kcp.receiver := congrArg View.receiver hview
  have hacks : k.acklist = kcp.acklist := congrArg View.acks hview
  have hconv : k.conv = kcp.conv := congrArg View.conv hview
  exact {
    ordered := hf.ordered.of_view hview
    conv := hconv.trans hf.conv
    sent := hsender ▸ hf.sent
    received := hreceiver ▸ hf.received
    acks := by
      rw [hacks, hreceiver]
      exact hf.acks }

theorem advance_of_view {k : Ikcpcb} (hview : k.view = kcp.view) : Advance got kcp k := by
  have hsender : k.sender = kcp.sender := congrArg View.sender hview
  have hreceiver : k.receiver = kcp.receiver := congrArg View.receiver hview
  exact {
    received := fun i hi => hreceiver ▸ hi
    kept := fun i hi => Or.inl (hsender ▸ hi)
    queue := congrArg Sender.queue hsender
    stream := congrArg View.stream hview
    next := Nat.le_of_eq (congrArg (fun r => r.nxt.toNat) hreceiver.symm) }

theorem outstanding_lt (hf : kcp.Follows c h hin p) {i : Nat} (hi : kcp.sender.Outstanding i) :
    i < h.length := by
  obtain ⟨seg, hseg, rfl⟩ := hi
  obtain ⟨hlt, -⟩ := List.getElem?_eq_some_iff.1 (hf.sent.buf seg hseg).2.2
  exact hlt

/-! ## Acknowledgements -/

/-- Segments may be taken out of `snd_buf` when the other side has got them. -/
theorem remove {k : Ikcpcb} (hf : kcp.Follows c h hin p)
    (hview : k.view = { kcp.view with sender := k.sender }) (hordered : k.Ordered)
    (hnxt : k.sndNxt = kcp.sndNxt) (hqueue : k.sndQueue = kcp.sndQueue) (hsub : k.sndBuf.Sublist kcp.sndBuf)
    (hgot : ∀ seg ∈ kcp.sndBuf, seg ∈ k.sndBuf ∨ got seg.sn.toNat) :
    k.Follows c h hin p ∧ Advance got kcp k := by
  have hreceiver : k.receiver = kcp.receiver := congrArg View.receiver hview
  have hacks : k.acklist = kcp.acklist := congrArg View.acks hview
  have hconv : k.conv = kcp.conv := congrArg View.conv hview
  constructor
  · exact {
      ordered := hordered
      conv := hconv.trans hf.conv
      sent := {
        nxt := (congrArg UInt32.toNat hnxt).trans hf.sent.nxt
        buf := fun seg hseg => hf.sent.buf seg (hsub.subset hseg)
        history := hf.sent.history
        queue := by
          show ∀ seg ∈ k.sndQueue, seg.frag.Small
          rw [hqueue]
          exact hf.sent.queue }
      received := hreceiver ▸ hf.received
      acks := by
        rw [hacks, hreceiver]
        exact hf.acks }
  · exact {
      received := fun i hi => hreceiver ▸ hi
      kept := by
        rintro i ⟨seg, hseg, rfl⟩
        exact (hgot seg hseg).imp_left fun hmem => ⟨seg, hmem, rfl⟩
      queue := hqueue
      stream := congrArg View.stream hview
      next := Nat.le_of_eq (congrArg (fun r => r.nxt.toNat) hreceiver.symm) }

theorem inputUna (hf : kcp.Follows c h hin p) (hshort : h.length < 2 ^ 31) (hd : Header)
    (hlt : hd.una.toNat < 2 ^ 31) (huna : ∀ i < hd.una.toNat, got i) :
    (inputUna kcp hd).Follows c h hin p ∧ Advance got kcp (inputUna kcp hd) := by
  obtain ⟨front, hfront, hbefore⟩ := removeUna_eq hd.una kcp.sndBuf kcp.nsndBuf
  have hbuf : (Kcp.inputUna kcp hd).sndBuf = (removeUna hd.una kcp.sndBuf kcp.nsndBuf).1 := rfl
  refine hf.remove got (view_inputUna _ hd) (hf.ordered.inputUna hd) rfl rfl ?_ ?_
  · rw [hbuf]
    conv => rhs; rw [hfront]
    exact List.sublist_append_right _ _
  · intro seg hseg
    rw [hbuf]
    have hmem := hseg
    rw [hfront, List.mem_append] at hmem
    refine hmem.symm.imp_right fun hremoved => huna _ ?_
    have hsn : seg.sn.toNat < h.length := hf.outstanding_lt ⟨seg, hseg, rfl⟩
    have hdiff := hbefore seg hremoved
    rw [itimediff, serialDiff_of_lt hlt (by omega)] at hdiff
    omega

theorem parseAck (hf : kcp.Follows c h hin p) {sn : UInt32} (hgot : got sn.toNat) :
    (shrinkBuf (parseAck kcp sn)).Follows c h hin p ∧ Advance got kcp (shrinkBuf (parseAck kcp sn)) := by
  have hview : (shrinkBuf (Kcp.parseAck kcp sn)).view =
      { kcp.view with sender := (shrinkBuf (Kcp.parseAck kcp sn)).sender } := by
    rw [view_shrinkBuf, view_parseAck]
  have hordered := hf.ordered.parseAck sn
  by_cases hout : outside kcp sn
  · have heq : Kcp.parseAck kcp sn = kcp := if_pos hout
    rw [heq] at hview hordered ⊢
    exact hf.remove got hview hordered rfl rfl (List.Sublist.refl _) fun seg hseg => Or.inl hseg
  · have hspec := removeAck_spec sn kcp.sndBuf kcp.nsndBuf
    have heq : Kcp.parseAck kcp sn = { kcp with
        sndBuf := (removeAck sn kcp.sndBuf kcp.nsndBuf).1
        nsndBuf := (removeAck sn kcp.sndBuf kcp.nsndBuf).2 } := if_neg hout
    rw [heq] at hview hordered ⊢
    refine hf.remove got hview hordered rfl rfl hspec.1 fun seg hseg => ?_
    rcases hspec.2 seg hseg with hmem | hsn
    · exact Or.inl hmem
    · rw [hsn]
      exact Or.inr hgot

theorem inputAck (hf : kcp.Follows c h hin p) (hd : Header) (hgot : got hd.sn.toNat) :
    (inputAck kcp hd).Follows c h hin p ∧ Advance got kcp (inputAck kcp hd) := by
  obtain ⟨k, hview, heq⟩ := inputAck_eq kcp hd
  obtain ⟨hfollows, hadvance⟩ := (hf.of_view hview).parseAck got hgot
  rw [heq]
  exact ⟨hfollows, (advance_of_view got hview).trans hadvance⟩

end Ikcpcb.Follows

/-! ## Data -/

namespace Ikcpcb.Holds

variable {c : UInt32} {h hin : List Frag} {p : Nat} {kcp : Ikcpcb} (got : Nat → Prop)

/-- The segment that is next in turn continues what was received. -/
theorem take (hk : kcp.Holds c h hin p) (hshort : hin.length < 2 ^ 31) {seg : Seg} {rest : List Seg}
    (hbuf : kcp.rcvBuf = seg :: rest) (hturn : seg.sn = kcp.rcvNxt) (hroom : kcp.nrcvQue < kcp.rcvWnd) :
    (takeNext kcp seg rest).Holds c h hin p ∧ Advance got kcp (takeNext kcp seg rest) := by
  have hr := hk.received
  have hordered := hk.ordered.receiver
  have hsorted := hordered.sorted
  have hlist : kcp.receiver.buf = seg :: rest := hbuf
  rw [hlist, List.pairwise_cons] at hsorted
  have hturn' : seg.sn = kcp.receiver.nxt := hturn
  rw [hturn', ahead_self] at hsorted
  obtain ⟨-, hseg⟩ := hr.buf seg (by rw [hlist]; exact List.mem_cons_self)
  rw [hturn'] at hseg
  obtain ⟨hlt, hget⟩ := List.getElem?_eq_some_iff.1 hseg
  have hnxt : (kcp.receiver.nxt + 1).toNat = kcp.receiver.nxt.toNat + 1 := toNat_add_one (by omega)
  have hrest : ∀ other ∈ rest, kcp.receiver.nxt.toNat + 1 ≤ other.sn.toNat := by
    intro other hother
    obtain ⟨hle, -⟩ := hr.buf other (by rw [hlist]; exact List.mem_cons_of_mem _ hother)
    have hpos := hsorted.1 other hother
    have hne : other.sn.toNat ≠ kcp.receiver.nxt.toNat := by
      intro heq
      rw [UInt32.toNat_inj.1 heq, ahead_self] at hpos
      omega
    omega
  constructor
  · refine ⟨⟨hk.ordered.sender, hk.ordered.settled, hordered.take hlist hturn' hroom⟩, hk.conv, hk.sent, ?_⟩
    have htaken := hr.taken
    exact {
      nxt := by
        show (kcp.receiver.nxt + 1).toNat ≤ _
        omega
      taken := by
        show p + (kcp.receiver.queue ++ [seg]).length = (kcp.receiver.nxt + 1).toNat
        rw [List.length_append, List.length_singleton, hnxt, ← htaken, Nat.add_assoc]
      queue := by
        show (kcp.receiver.queue ++ [seg]).map Seg.frag = (hin.take (kcp.receiver.nxt + 1).toNat).drop p
        have hlength : p ≤ (hin.take kcp.receiver.nxt.toNat).length := by
          rw [List.length_take]
          omega
        rw [hnxt, List.take_add_one, hseg, List.map_append, hr.queue, Option.toList_some,
          List.drop_append_of_le_length hlength]
        rfl
      buf := by
        intro other hother
        obtain ⟨-, hfrag⟩ := hr.buf other (by rw [hlist]; exact List.mem_cons_of_mem _ hother)
        refine ⟨?_, hfrag⟩
        show (kcp.receiver.nxt + 1).toNat ≤ _
        rw [hnxt]
        exact hrest other hother }
  · exact {
      received := by
        rintro i (hi | ⟨other, hother, rfl⟩)
        · refine Or.inl ?_
          show i < (kcp.receiver.nxt + 1).toNat
          omega
        · rw [hlist] at hother
          rcases List.mem_cons.1 hother with rfl | hmem
          · refine Or.inl ?_
            show other.sn.toNat < (kcp.receiver.nxt + 1).toNat
            rw [hturn', hnxt]
            omega
          · exact Or.inr ⟨other, hmem, rfl⟩
      kept := fun _ hi => Or.inl hi
      queue := rfl
      stream := rfl
      next := by
        show kcp.receiver.nxt.toNat ≤ (kcp.receiver.nxt + 1).toNat
        omega }

theorem moveAvailable (hk : kcp.Holds c h hin p) (hshort : hin.length < 2 ^ 31) :
    (moveAvailable kcp.rcvBuf kcp).Holds c h hin p ∧ Advance got kcp (moveAvailable kcp.rcvBuf kcp) := by
  apply moveAvailable_induction (P := fun k => k.Holds c h hin p ∧ Advance got kcp k)
  · rintro k seg rest ⟨hholds, hadvance⟩ hbuf hturn hroom
    obtain ⟨htake, hnext⟩ := hholds.take got hshort hbuf hturn hroom
    exact ⟨htake, hadvance.trans hnext⟩
  · exact ⟨hk, Advance.refl got kcp⟩

/-- A segment of the history that was not read yet finds its place, if it is not there. -/
theorem insert (hk : kcp.Holds c h hin p) (hshort : hin.length < 2 ^ 31) {newseg : Seg}
    (hle : kcp.rcvNxt.toNat ≤ newseg.sn.toNat) (hfrag : hin[newseg.sn.toNat]? = some newseg.frag) :
    (insertSeg kcp newseg).Holds c h hin p ∧ Advance got kcp (insertSeg kcp newseg) ∧
      (insertSeg kcp newseg).receiver.Got newseg.sn.toNat := by
  obtain ⟨hlt, -⟩ := List.getElem?_eq_some_iff.1 hfrag
  have hahead : ahead newseg.sn kcp.rcvNxt < 2 ^ 31 := by
    rw [ahead_eq]
    omega
  have hordered := hk.ordered.receiver.insert hahead
  unfold insertSeg at hordered ⊢
  cases hins : insertBack newseg kcp.rcvBuf.reverse with
  | none =>
      obtain ⟨seg, hseg, hsn⟩ := exists_of_insertBack_eq_none hins
      refine ⟨hk, Advance.refl got kcp, Or.inr ⟨seg, List.mem_reverse.1 hseg, ?_⟩⟩
      rw [hsn]
  | some back =>
      rw [hins] at hordered
      have hperm := insertBack_perm hins
      have hmem : ∀ seg, seg ∈ back.reverse ↔ seg = newseg ∨ seg ∈ kcp.rcvBuf := by
        intro seg
        rw [List.mem_reverse, hperm.mem_iff, List.mem_cons, List.mem_reverse]
      refine ⟨⟨⟨hk.ordered.sender, hk.ordered.settled, hordered⟩, hk.conv, hk.sent, ?_⟩, ?_, ?_⟩
      · exact {
          nxt := hk.received.nxt
          taken := hk.received.taken
          queue := hk.received.queue
          buf := by
            intro seg hseg
            rcases (hmem seg).1 hseg with rfl | hold
            · exact ⟨hle, hfrag⟩
            · exact hk.received.buf seg hold }
      · exact {
          received := by
            rintro i (hi | ⟨seg, hseg, rfl⟩)
            · exact Or.inl hi
            · exact Or.inr ⟨seg, (hmem seg).2 (Or.inr hseg), rfl⟩
          kept := fun _ hi => Or.inl hi
          queue := rfl
          stream := rfl
          next := le_rfl }
      · exact Or.inr ⟨newseg, (hmem newseg).2 (Or.inl rfl), rfl⟩

/-- A segment of the history inside the window is stored. -/
theorem parseData (hk : kcp.Holds c h hin p) (hshort : hin.length < 2 ^ 31) (newseg : Seg)
    (hwindow : itimediff newseg.sn (kcp.rcvNxt + kcp.rcvWnd) < 0)
    (hnext : itimediff newseg.sn kcp.rcvNxt ≥ 0) (hfrag : hin[newseg.sn.toNat]? = some newseg.frag) :
    (parseData kcp newseg).Holds c h hin p ∧ Advance got kcp (parseData kcp newseg) ∧
      (parseData kcp newseg).receiver.Got newseg.sn.toNat := by
  obtain ⟨hlt, -⟩ := List.getElem?_eq_some_iff.1 hfrag
  have hnxt : kcp.rcvNxt.toNat ≤ hin.length := hk.received.nxt
  have hle : kcp.rcvNxt.toNat ≤ newseg.sn.toNat := by
    rw [itimediff, serialDiff_of_lt (by omega) (by omega)] at hnext
    omega
  obtain ⟨hholds, hadvance, hgot⟩ := hk.insert got hshort hle hfrag
  obtain ⟨hmoved, hmore⟩ := hholds.moveAvailable got hshort
  have hguard : ¬ (itimediff newseg.sn (kcp.rcvNxt + kcp.rcvWnd) ≥ 0 ∨ itimediff newseg.sn kcp.rcvNxt < 0) := by
    rintro (hout | hout) <;> omega
  unfold Kcp.parseData
  rw [if_neg hguard]
  exact ⟨hmoved, hadvance.trans hmore, hmore.received _ hgot⟩

end Ikcpcb.Holds

namespace Ikcpcb.Follows

variable {c : UInt32} {h hin : List Frag} {p : Nat} {kcp : Ikcpcb} (got : Nat → Prop)

theorem inputPush (hf : kcp.Follows c h hin p) (hshort : hin.length < 2 ^ 31) {hd : Header} {data : Bytes}
    (hfrag : hin[hd.sn.toNat]? = some ⟨hd.frg.toUInt32, data⟩) :
    (inputPush kcp hd data).Follows c h hin p ∧ Advance got kcp (inputPush kcp hd data) := by
  have hpushed : (ackPush kcp hd.sn hd.ts).Holds c h hin p :=
    ⟨⟨hf.ordered.sender, hf.ordered.settled, hf.ordered.receiver⟩, hf.conv, hf.sent, hf.received⟩
  have hsame : Advance got kcp (ackPush kcp hd.sn hd.ts) :=
    ⟨fun _ hi => hi, fun _ hi => Or.inl hi, rfl, rfl, le_rfl⟩
  -- every number of the list is got once the new one is
  have hacks : ∀ k : Ikcpcb, Advance got (ackPush kcp hd.sn hd.ts) k →
      k.acklist = kcp.acklist ++ [(hd.sn, hd.ts)] → k.receiver.Got hd.sn.toNat →
      ∀ ack ∈ k.acklist, k.receiver.Got ack.1.toNat := by
    intro k hadvance hlist hgot ack hack
    rw [hlist] at hack
    rcases List.mem_append.1 hack with hold | hnew
    · exact hadvance.received _ (hf.acks ack hold)
    · rw [List.mem_singleton.1 hnew]
      exact hgot
  obtain ⟨hlt, -⟩ := List.getElem?_eq_some_iff.1 hfrag
  have hnxt : kcp.rcvNxt.toNat ≤ hin.length := hf.received.nxt
  unfold Kcp.inputPush
  by_cases hwindow : itimediff hd.sn (kcp.rcvNxt + kcp.rcvWnd) < 0
  · rw [if_pos hwindow]
    dsimp only
    by_cases hnext : itimediff hd.sn kcp.rcvNxt ≥ 0
    · obtain ⟨hholds, hadvance, hgot⟩ := hpushed.parseData got hshort (pushSeg hd data)
        hwindow hnext hfrag
      have hlist : (Kcp.parseData (ackPush kcp hd.sn hd.ts) (pushSeg hd data)).acklist = _ :=
        congrArg View.acks (view_parseData (ackPush kcp hd.sn hd.ts) (pushSeg hd data))
      rw [if_pos (show itimediff hd.sn (ackPush kcp hd.sn hd.ts).rcvNxt ≥ 0 from hnext)]
      exact ⟨⟨hholds, hacks _ hadvance hlist hgot⟩, hsame.trans hadvance⟩
    · have hgot : kcp.receiver.Got hd.sn.toNat := by
        rw [itimediff, serialDiff_of_lt (by omega) (by omega)] at hnext
        refine Or.inl ?_
        show hd.sn.toNat < kcp.rcvNxt.toNat
        omega
      rw [if_neg (show ¬ itimediff hd.sn (ackPush kcp hd.sn hd.ts).rcvNxt ≥ 0 from hnext)]
      exact ⟨⟨hpushed, hacks _ (Advance.refl _ _) rfl hgot⟩, hsame⟩
  · rw [if_neg hwindow]
    exact ⟨hf, Advance.refl got kcp⟩

/-- A good segment keeps an endpoint with its histories, whatever its command is. -/
theorem inputWire (hf : kcp.Follows c h hin p) (hshort : h.length < 2 ^ 31) (hshort' : hin.length < 2 ^ 31)
    {seg : Seg} (hgood : Good c hin got seg) :
    (inputWire kcp seg).Follows c h hin p ∧ Advance got kcp (inputWire kcp seg) := by
  have hfits := hgood.fits
  obtain ⟨hfu, hau⟩ := hf.inputUna got hshort seg.header hgood.una_lt hgood.una
  unfold Kcp.inputWire Kcp.inputSeg
  dsimp only
  rw [hfits.cmd_header]
  by_cases hack : seg.cmd = cmdAck
  · rw [if_pos hack]
    obtain ⟨hfa, haa⟩ := hfu.inputAck got seg.header (hgood.ack hack)
    exact ⟨hfa, hau.trans haa⟩
  · rw [if_neg hack]
    by_cases hpush : seg.cmd = cmdPush
    · rw [if_pos hpush]
      have hfrag : hin[seg.header.sn.toNat]? = some ⟨seg.header.frg.toUInt32, seg.data⟩ := by
        rw [hfits.frg_header]
        exact hgood.push hpush
      obtain ⟨hfp, hap⟩ := hfu.inputPush got hshort' hfrag
      exact ⟨hfp, hau.trans hap⟩
    · rw [if_neg hpush]
      split
      · exact ⟨hfu.of_view rfl, hau.trans (advance_of_view got rfl)⟩
      · exact ⟨hfu, hau⟩

theorem foldl_inputWire {segs : List Seg} (hf : kcp.Follows c h hin p) (hshort : h.length < 2 ^ 31)
    (hshort' : hin.length < 2 ^ 31) (hgood : ∀ seg ∈ segs, Good c hin got seg) :
    (segs.foldl Kcp.inputWire kcp).Follows c h hin p ∧
      Advance got kcp (segs.foldl Kcp.inputWire kcp) := by
  induction segs generalizing kcp with
  | nil => exact ⟨hf, Advance.refl got kcp⟩
  | cons seg segs ih =>
      rw [List.forall_mem_cons] at hgood
      obtain ⟨hone, hadvance⟩ := hf.inputWire got hshort hshort' hgood.1
      obtain ⟨hall, hmore⟩ := ih hone hgood.2
      exact ⟨hall, hadvance.trans hmore⟩

/-- Segments may be replaced by others with the same keys. -/
theorem rewrite (hf : kcp.Follows c h hin p) {buf : List Seg}
    (hkeys : buf.map Seg.key = kcp.sndBuf.map Seg.key) :
    Sender.Sent c h { kcp.sender with buf := buf } ∧
      ∀ i, kcp.sender.Outstanding i ↔ Sender.Outstanding { kcp.sender with buf := buf } i := by
  have hmem : ∀ {buf buf' : List Seg}, buf.map Seg.key = buf'.map Seg.key →
      ∀ seg ∈ buf, ∃ seg' ∈ buf', seg'.key = seg.key := by
    intro buf buf' heq seg hseg
    have hkey : seg.key ∈ buf'.map Seg.key := heq ▸ List.mem_map_of_mem hseg
    exact List.mem_map.1 hkey
  have hsn : ∀ {seg seg' : Seg}, seg.key = seg'.key → seg.sn = seg'.sn := fun heq => congrArg Prod.fst heq
  constructor
  · exact {
      nxt := hf.sent.nxt
      buf := by
        intro seg hseg
        obtain ⟨old, hold, hkey⟩ := hmem hkeys seg hseg
        obtain ⟨hconv, hcmd, hfrag⟩ := hf.sent.buf old hold
        simp only [Seg.key, Prod.mk.injEq] at hkey
        obtain ⟨h1, h2, h3, h4, h5⟩ := hkey
        rw [← h1, ← h2, ← h3, Seg.frag, ← h4, ← h5]
        exact ⟨hconv, hcmd, hfrag⟩
      history := hf.sent.history
      queue := hf.sent.queue }
  · intro i
    constructor
    · rintro ⟨seg, hseg, rfl⟩
      obtain ⟨new, hnew, hkey⟩ := hmem hkeys.symm seg hseg
      exact ⟨new, hnew, by rw [hsn hkey]⟩
    · rintro ⟨seg, hseg, rfl⟩
      obtain ⟨old, hold, hkey⟩ := hmem hkeys seg hseg
      exact ⟨old, hold, by rw [hsn hkey]⟩

theorem inputTail (hf : kcp.Follows c h hin p) (prevUna : UInt32) (maxack : Maxack) :
    (inputTail prevUna kcp maxack).Follows c h hin p ∧ Advance got kcp (inputTail prevUna kcp maxack) := by
  have hgrow : ∀ k : Ikcpcb, k.Follows c h hin p → Advance got kcp k →
      (if itimediff k.sndUna prevUna > 0 then growCwnd k else k).Follows c h hin p ∧
        Advance got kcp (if itimediff k.sndUna prevUna > 0 then growCwnd k else k) := by
    intro k hk hadvance
    split
    · exact ⟨hk.of_view (view_growCwnd _), hadvance.trans (advance_of_view got (view_growCwnd _))⟩
    · exact ⟨hk, hadvance⟩
  unfold Kcp.inputTail
  cases maxack with
  | none => exact hgrow kcp hf (Advance.refl got kcp)
  | some maxack =>
      dsimp only
      have hordered := hf.ordered.parseFastack maxack
      refine hgrow _ ?_ ?_
      · unfold Kcp.parseFastack at hordered ⊢
        split
        · exact hf
        · rename_i hout
          rw [if_neg hout] at hordered
          obtain ⟨hsent, -⟩ := hf.rewrite (keys_countFastack maxack kcp.sndBuf)
          exact ⟨⟨hordered, hf.conv, hsent, hf.received⟩, hf.acks⟩
      · unfold Kcp.parseFastack
        split
        · exact Advance.refl got kcp
        · obtain ⟨-, hkept⟩ := hf.rewrite (keys_countFastack maxack kcp.sndBuf)
          exact ⟨fun _ hi => hi, fun i hi => Or.inl ((hkept i).1 hi), rfl, rfl, le_rfl⟩

/-- A datagram of good segments is taken in without an error. -/
theorem input (hf : kcp.Follows c h hin p) (hshort : h.length < 2 ^ 31) (hshort' : hin.length < 2 ^ 31)
    {d : Bytes} (hd : Packed (Good c hin got) d) :
    (input kcp d).1.Follows c h hin p ∧ Advance got kcp (input kcp d).1 ∧ (input kcp d).2 = 0 := by
  obtain ⟨segs, hne, rfl, hgood⟩ := hd
  have hfits : ∀ seg ∈ segs, seg.Fits ∧ seg.conv = kcp.conv :=
    fun seg hseg => ⟨(hgood seg hseg).fits, (hgood seg hseg).conv.trans hf.conv.symm⟩
  obtain ⟨hfold, hadvance⟩ := hf.foldl_inputWire got hshort hshort' hgood
  obtain ⟨htail, hmore⟩ := hfold.inputTail got kcp.sndUna (segs.foldl ackWire none)
  rw [input_packed hne hfits]
  exact ⟨htail, hadvance.trans hmore, rfl⟩

end Ikcpcb.Follows

end CppMisc.Kcp
